/-!
# Trivia

What stands between lexemes: blanks, line breaks and comments, which run from `//` to the end of
the line. `Trivia.skip` splits it off a text, so that what is left is empty or starts with a
lexeme, and measures the blanks in front of the line that it ends on, if it crossed a line break.
-/

namespace DocScript

/-- The blanks at the start of a line: how many, and of which kinds. -/
structure Leading where
  width : Nat
  spaces : Bool
  tabs : Bool
  deriving DecidableEq, Repr

namespace Leading

def empty : Leading := ⟨0, false, false⟩

/-- One more space. -/
def space (l : Leading) : Leading := { l with width := l.width + 1, spaces := true }

/-- One more tab, which counts as one column. -/
def tab (l : Leading) : Leading := { l with width := l.width + 1, tabs := true }

end Leading

/-- A stretch of trivia. -/
structure Trivia where
  text : List Char
  /-- The blanks before the first line break. -/
  blanks : Leading
  /-- The blanks after the last line break, if there is one. -/
  entered : Option Leading
  deriving DecidableEq, Repr

namespace Trivia

def empty : Trivia := ⟨[], .empty, none⟩

/-- Trivia with the line break `c` in front. -/
def lineBreak (c : Char) (t : Trivia) : Trivia :=
  ⟨c :: t.text, .empty, some (t.entered.getD t.blanks)⟩

/-- Trivia with a character in front that does not indent. -/
def plain (c : Char) (t : Trivia) : Trivia := { t with text := c :: t.text }

/-- Splits the trivia off the start of a text; `comment` says that the text starts inside one. -/
def skipFrom (comment : Bool) : List Char → Trivia × List Char
  | [] => (.empty, [])
  | c :: cs =>
    if c = '\n' then
      let (t, rest) := skipFrom false cs
      (t.lineBreak c, rest)
    else if comment then
      let (t, rest) := skipFrom true cs
      (t.plain c, rest)
    else if c = ' ' then
      let (t, rest) := skipFrom false cs
      ({ t.plain c with blanks := t.blanks.space }, rest)
    else if c = '\t' then
      let (t, rest) := skipFrom false cs
      ({ t.plain c with blanks := t.blanks.tab }, rest)
    else if c = '\r' then
      let (t, rest) := skipFrom false cs
      (t.plain c, rest)
    else if c = '/' ∧ cs.head? = some '/' then
      let (t, rest) := skipFrom true cs
      (t.plain c, rest)
    else (.empty, c :: cs)

/-- Splits the trivia off the start of a text. -/
def skip (cs : List Char) : Trivia × List Char := skipFrom false cs

theorem skipFrom_split (comment : Bool) (cs : List Char) :
    (skipFrom comment cs).1.text ++ (skipFrom comment cs).2 = cs := by
  fun_induction skipFrom comment cs <;> simp_all +zetaDelta [empty, lineBreak, plain]

theorem skip_split (cs : List Char) : (skip cs).1.text ++ (skip cs).2 = cs :=
  skipFrom_split false cs

theorem length_skip_le (cs : List Char) : (skip cs).2.length ≤ cs.length := by
  have h := congrArg List.length (skip_split cs)
  rw [List.length_append] at h
  omega

end Trivia

end DocScript
