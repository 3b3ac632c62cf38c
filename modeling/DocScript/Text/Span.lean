/-!
# Positions and spans

A position is a line and a column, both counted from one; columns count the bytes of the
UTF-8 encoding. A span is a pair of positions, and `Span.merge` is the smallest span that
covers two others. Positions are ordered line first.
-/

namespace DocScript

/-- A place in a text. -/
structure Pos where
  line : Nat
  col : Nat
  deriving DecidableEq, Repr

namespace Pos

/-- The first place of every text. -/
def start : Pos := ⟨1, 1⟩

instance : LE Pos := ⟨fun a b => a.line < b.line ∨ a.line = b.line ∧ a.col ≤ b.col⟩

instance (a b : Pos) : Decidable (a ≤ b) :=
  inferInstanceAs (Decidable (a.line < b.line ∨ a.line = b.line ∧ a.col ≤ b.col))

instance : Min Pos := minOfLe

instance : Max Pos := maxOfLe

/-- The place just after the character `c` standing at `p`. -/
def after (p : Pos) (c : Char) : Pos :=
  if c = '\n' then ⟨p.line + 1, 1⟩ else ⟨p.line, p.col + c.utf8Size⟩

/-- The place just after the text `cs` standing at `p`. -/
def advance (p : Pos) (cs : List Char) : Pos := cs.foldl after p

/-- The last column that a text ending just before `p` occupies, on the line of `p`. -/
def lastOf (p : Pos) : Pos := ⟨p.line, max (p.col - 1) 1⟩

theorem advance_nil (p : Pos) : p.advance [] = p := rfl

theorem advance_cons (p : Pos) (c : Char) (cs : List Char) :
    p.advance (c :: cs) = (p.after c).advance cs := rfl

theorem advance_append (p : Pos) (as bs : List Char) :
    p.advance (as ++ bs) = (p.advance as).advance bs := List.foldl_append

end Pos

/-- A stretch of text from `start` to `stop`, both included. -/
structure Span where
  start : Pos
  stop : Pos
  deriving DecidableEq, Repr

namespace Span

/-- The span that holds one place. -/
def point (p : Pos) : Span := ⟨p, p⟩

/-- The smallest span that covers both. -/
def merge (a b : Span) : Span := ⟨min a.start b.start, max a.stop b.stop⟩

/-- A span is written by the place where it starts. -/
def text (s : Span) : String := s!"{s.start.line}:{s.start.col}"

end Span

end DocScript
