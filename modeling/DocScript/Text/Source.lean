import DocScript.Text.Span

/-!
# Source texts

A source text has a name for diagnostics and a list of lines. A line feed ends a line, so
a text with `n` line feeds has `n + 1` lines; carriage returns at the end of a line belong to
the line break and are not part of the line that `line?` gives.
-/

namespace DocScript

/-- A named script. -/
structure Source where
  name : String
  text : String
  deriving DecidableEq, Repr

namespace Source

/-- Puts `c` in front of the first of the lines. -/
def consLine (c : Char) : List (List Char) → List (List Char)
  | [] => [[c]]
  | l :: ls => (c :: l) :: ls

/-- The pieces of `cs` between its line feeds. -/
def splitLines (cs : List Char) : List (List Char) :=
  cs.foldr (fun c ls => if c = '\n' then [] :: ls else consLine c ls) [[]]

/-- Drops the carriage returns at the end. -/
def trimReturns (cs : List Char) : List Char :=
  (cs.reverse.dropWhile (· = '\r')).reverse

/-- The lines of a source, without line feeds. -/
def lines (s : Source) : List (List Char) := splitLines s.text.toList

def lineCount (s : Source) : Nat := s.lines.length

/-- The line with number `n`, counted from one. -/
def line? (s : Source) (n : Nat) : Option String :=
  match n with
  | 0 => none
  | n + 1 => s.lines[n]?.map fun cs => String.ofList (trimReturns cs)

end Source

end DocScript
