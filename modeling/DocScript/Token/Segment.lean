import DocScript.Token.Lexeme
import DocScript.Token.Trivia

/-!
# Segments

A text is cut into segments: each is a lexeme with the trivia in front of it, and trivia may follow
the last one. Nothing is lost by the cut (`Segmentation.text_ofText`). It depends on the characters
alone; the line structure is read off the segments afterwards.
-/

namespace DocScript

/-- A lexeme and the trivia in front of it. -/
structure Segment where
  trivia : Trivia
  lexeme : Lexeme
  deriving DecidableEq

/-- A text cut at its lexemes. -/
structure Segmentation where
  segments : List Segment
  /-- The trivia behind the last lexeme. -/
  last : Trivia
  deriving DecidableEq

namespace Segment

def text (s : Segment) : List Char := s.trivia.text ++ s.lexeme.text

end Segment

namespace Segmentation

/-- The characters of all segments, in order. -/
def text (x : Segmentation) : List Char := x.segments.flatMap Segment.text ++ x.last.text

/-- The cut with one more segment in front. -/
def cons (s : Segment) (x : Segmentation) : Segmentation := ⟨s :: x.segments, x.last⟩

theorem length_scan_lt {cs : List Char} {t : Trivia} {c : Char} {rest : List Char}
    (h : Trivia.skip cs = (t, c :: rest)) : (Lexeme.scan c rest).2.length < cs.length := by
  have h1 := Trivia.length_skip_le cs
  have h2 := Lexeme.length_scan_le c rest
  rw [h] at h1
  simp only [List.length_cons] at h1
  omega

/-- Cuts a text at its lexemes. -/
def ofText (cs : List Char) : Segmentation :=
  match _ : Trivia.skip cs with
  | (t, []) => ⟨[], t⟩
  | (t, c :: rest) =>
    (ofText (Lexeme.scan c rest).2).cons ⟨t, (Lexeme.scan c rest).1⟩
termination_by cs.length
decreasing_by exact length_scan_lt ‹_›

theorem text_cons (s : Segment) (x : Segmentation) : (x.cons s).text = s.text ++ x.text := by
  simp [text, cons]

theorem ofText_of_end {cs : List Char} {t : Trivia} (h : Trivia.skip cs = (t, [])) :
    ofText cs = ⟨[], t⟩ := by
  rw [ofText]
  split
  · next h' => rw [h] at h'; cases h'; rfl
  · next h' => rw [h] at h'; cases h'

theorem ofText_of_lexeme {cs : List Char} {t : Trivia} {c : Char} {rest : List Char}
    (h : Trivia.skip cs = (t, c :: rest)) :
    ofText cs = (ofText (Lexeme.scan c rest).2).cons ⟨t, (Lexeme.scan c rest).1⟩ := by
  rw [ofText]
  split
  · next h' => rw [h] at h'; cases h'
  · next h' => rw [h] at h'; cases h'; rfl

/-- The segments of a text make up the text. -/
theorem text_ofText (cs : List Char) : (ofText cs).text = cs := by
  fun_induction ofText cs with
  | case1 cs t h =>
    have hs := Trivia.skip_split cs
    rw [h] at hs
    simpa [text] using hs
  | case2 cs t c rest h ih =>
    have hs := Trivia.skip_split cs
    obtain ⟨u, hu, hr⟩ := Lexeme.scan_split c rest
    rw [h] at hs
    rw [text_cons, ih, Segment.text, hu, List.append_assoc, List.cons_append, hr]
    exact hs

end Segmentation

end DocScript
