import DocScript.Proofs.Number.Text
import DocScript.Proofs.Token.Lines

/-!
# The outline of a text

What the token stream of a text depends on are its lexemes and the line breaks between them. The outline of
a text is the list of these pieces; `outline_space`, `outline_line` and `outline_word` compute it from the
front of the text, and `Source.kinds_tokens` gives the kinds of the tokens in terms of it.

Printed texts are put together from smaller ones. `Spells text ps` says that the text contributes the pieces
`ps` wherever it stands, provided that what follows does not go on with its last lexeme; `Stands text ps` that
it does so whatever follows.
-/

namespace DocScript

open Lexeme

/-- A piece of a text : a line break with the blanks behind it, or a lexeme. -/
inductive Piece where
  | line (blanks : Leading)
  | word (kind : TokenKind)
  deriving DecidableEq

/-- The pieces of a segment. -/
def Segment.pieces (s : Segment) : List Piece :=
  (s.trivia.entered.map Piece.line).toList ++ [.word s.lexeme.kind]

/-- The pieces of a text that was cut at its lexemes. -/
def Segmentation.pieces (x : Segmentation) : List Piece :=
  x.segments.flatMap Segment.pieces ++ (x.last.entered.map Piece.line).toList

theorem Segmentation.pieces_cons (s : Segment) (x : Segmentation) :
    (x.cons s).pieces = s.pieces ++ x.pieces := by
  simp [pieces, cons]

/-- The pieces of a text, in order. -/
def outline (cs : List Char) : List Piece := (Segmentation.ofText cs).pieces

/-- The pieces of a text without line breaks. -/
def words (ks : List TokenKind) : List Piece := ks.map .word

@[simp] theorem words_nil : words [] = [] := rfl

@[simp] theorem words_cons (k : TokenKind) (ks : List TokenKind) : words (k :: ks) = .word k :: words ks := rfl

@[simp] theorem words_append (ks ks' : List TokenKind) : words (ks ++ ks') = words ks ++ words ks' :=
  List.map_append

/-! ## Trivia -/

/-- A lexeme starts with `c` if `cs` follows. -/
def Visible (c : Char) (cs : List Char) : Prop :=
  c ≠ '\n' ∧ c ≠ ' ' ∧ c ≠ '\t' ∧ c ≠ '\r' ∧ (c = '/' → cs.head? ≠ some '/')

theorem skip_visible {c : Char} {cs : List Char} (h : Visible c cs) :
    Trivia.skip (c :: cs) = (.empty, c :: cs) := by
  obtain ⟨h₁, h₂, h₃, h₄, h₅⟩ := h
  rw [Trivia.skip, Trivia.skipFrom, if_neg h₁, if_neg (by decide), if_neg h₂, if_neg h₃, if_neg h₄,
    if_neg fun hc => h₅ hc.1 hc.2]

/-- The blanks of a line that is indented with spaces. -/
def Leading.spaced (width : Nat) : Leading := ⟨width, 0 < width, false⟩

theorem skip_spaces {c : Char} {cs : List Char} (h : Visible c cs) (w : Nat) :
    Trivia.skip (List.replicate w ' ' ++ c :: cs) = (⟨List.replicate w ' ', .spaced w, none⟩, c :: cs) := by
  induction w with
  | zero => exact skip_visible h
  | succ w ih =>
    rw [List.replicate_succ, List.cons_append, Trivia.skip, Trivia.skipFrom, if_neg (by decide),
      if_neg (by decide), if_pos rfl]
    rw [Trivia.skip] at ih
    rw [ih]
    simp [Trivia.plain, Leading.space, Leading.spaced]

/-! ## The outline from the front -/

@[simp] theorem outline_nil : outline [] = [] := by
  rw [outline, Segmentation.ofText_of_end (t := .empty) rfl]
  rfl

/-- The outline behind trivia. -/
theorem outline_of_skip {cs : List Char} {t : Trivia} {c : Char} {rest : List Char}
    (h : Trivia.skip cs = (t, c :: rest)) :
    outline cs = (t.entered.map Piece.line).toList ++
      .word (scan c rest).1.kind :: outline (scan c rest).2 := by
  rw [outline, Segmentation.ofText_of_lexeme h, Segmentation.pieces_cons]
  simp [Segment.pieces, outline]

theorem outline_word {c : Char} {cs : List Char} (h : Visible c cs) :
    outline (c :: cs) = .word (scan c cs).1.kind :: outline (scan c cs).2 :=
  outline_of_skip (skip_visible h)

/-- A blank inside a line is no piece. -/
@[simp] theorem outline_space (cs : List Char) : outline (' ' :: cs) = outline cs := by
  have hskip : ∀ t rest, Trivia.skip cs = (t, rest) →
      Trivia.skip (' ' :: cs) = ({ t.plain ' ' with blanks := t.blanks.space }, rest) := by
    intro t rest h
    rw [Trivia.skip] at h ⊢
    rw [Trivia.skipFrom, if_neg (by decide), if_neg (by decide), if_pos rfl, h]
  rcases h : Trivia.skip cs with ⟨t, _ | ⟨c, rest⟩⟩
  · rw [outline, outline, Segmentation.ofText_of_end h, Segmentation.ofText_of_end (hskip _ _ h)]
    rfl
  · rw [outline_of_skip h, outline_of_skip (hskip _ _ h)]
    rfl

/-- A line break and the blanks behind it are one piece. -/
theorem outline_line {c : Char} {cs : List Char} (h : Visible c cs) (w : Nat) :
    outline ('\n' :: (List.replicate w ' ' ++ c :: cs)) = .line (.spaced w) :: outline (c :: cs) := by
  have hskip : Trivia.skip ('\n' :: (List.replicate w ' ' ++ c :: cs)) =
      (.lineBreak '\n' ⟨List.replicate w ' ', .spaced w, none⟩, c :: cs) := by
    have := skip_spaces h w
    rw [Trivia.skip] at this ⊢
    rw [Trivia.skipFrom, if_pos rfl, this]
  rw [outline_of_skip hskip, outline_word h]
  rfl

/-! ## Kinds of tokens -/

/-- The kinds of the tokens that the pieces stand for, if the line structure is in the state `l` and the
line with the blanks `entered` was begun since the last lexeme. -/
def kindsFrom (l : Layout) (entered : Option Leading) : List Piece → List TokenKind
  | [] => (l.enter entered true).1.map Prod.fst ++ [.endOfFile]
  | .line blanks :: ps => kindsFrom l (some blanks) ps
  | .word kind :: ps =>
    (l.enter entered false).1.map Prod.fst ++
      kind :: kindsFrom ((l.enter entered false).2.after kind) none ps

theorem kinds_marksAt (p : Pos) (next : List Char) (marks : List (TokenKind × Layout)) :
    (marksAt p next marks).map (·.1.kind) = marks.map Prod.fst := by
  simp [marksAt]

theorem kinds_traceFrom (last : Trivia) (l : Layout) (p : Pos) (segments : List Segment) :
    (traceFrom last l p segments).map (·.1.kind) =
      kindsFrom l none (Segmentation.pieces ⟨segments, last⟩) := by
  induction segments generalizing l p with
  | nil =>
    rw [traceFrom, List.map_append, kinds_marksAt]
    cases h : last.entered <;> simp [Segmentation.pieces, kindsFrom, h, Token.mark]
  | cons s segments ih =>
    have hcons : Segmentation.pieces ⟨s :: segments, last⟩ =
        s.pieces ++ Segmentation.pieces ⟨segments, last⟩ := Segmentation.pieces_cons s ⟨segments, last⟩
    rw [traceFrom, List.map_append, kinds_marksAt, List.map_cons, ih, hcons]
    cases h : s.trivia.entered <;> simp [Segment.pieces, kindsFrom, h, Token.ofLexeme]

/-- The kinds of the tokens of a script depend on its outline alone. -/
theorem Source.kinds_tokens (s : Source) :
    s.tokens.map Token.kind = kindsFrom .start none (outline s.text.toList) := by
  rw [Source.tokens, List.map_map]
  exact kinds_traceFrom ..

/-! ## Texts that contribute pieces -/

/-- The text contributes the pieces `ps`, unless what follows goes on with its last lexeme. -/
def Spells (text : String) (ps : List Piece) : Prop :=
  ∀ rest, Breaks rest → outline (text.toList ++ rest) = ps ++ outline rest

/-- The text contributes the pieces `ps`, whatever follows. -/
def Stands (text : String) (ps : List Piece) : Prop :=
  ∀ rest, outline (text.toList ++ rest) = ps ++ outline rest

/-- The text ends the lexeme in front of it. -/
def Delimits (text : String) : Prop := text.toList.head?.any isBreak = true

instance (text : String) : Decidable (Delimits text) := inferInstanceAs (Decidable (_ = true))

variable {a b : String} {ps qs : List Piece}

theorem Delimits.breaks (h : Delimits a) (rest : List Char) : Breaks (a.toList ++ rest) := by
  unfold Delimits at h
  intro c hc
  cases ha : a.toList with
  | nil => simp [ha] at h
  | cons d ds =>
    obtain rfl : d = c := by simpa [ha] using hc
    simpa [ha] using h

theorem Delimits.append (h : Delimits a) (b : String) : Delimits (a ++ b) := by
  unfold Delimits at h ⊢
  rw [String.toList_append, List.head?_append]
  cases ha : a.toList.head? with
  | none => simp [ha] at h
  | some c => simpa [ha] using h

theorem Stands.spells (h : Stands a ps) : Spells a ps := fun rest _ => h rest

theorem Spells.nil : Spells "" [] := fun _ _ => rfl

theorem Spells.append (ha : Spells a ps) (hb : Spells b qs) (h : Delimits b) : Spells (a ++ b) (ps ++ qs) := by
  intro rest hr
  rw [String.toList_append, List.append_assoc, ha _ (h.breaks rest), hb rest hr, List.append_assoc]

theorem Spells.append_stands (ha : Spells a ps) (hb : Stands b qs) (h : Delimits b) :
    Stands (a ++ b) (ps ++ qs) := by
  intro rest
  rw [String.toList_append, List.append_assoc, ha _ (h.breaks rest), hb rest, List.append_assoc]

theorem Stands.append_spells (ha : Stands a ps) (hb : Spells b qs) : Spells (a ++ b) (ps ++ qs) := by
  intro rest hr
  rw [String.toList_append, List.append_assoc, ha, hb rest hr, List.append_assoc]

theorem Stands.append (ha : Stands a ps) (hb : Stands b qs) : Stands (a ++ b) (ps ++ qs) := by
  intro rest
  rw [String.toList_append, List.append_assoc, ha, hb rest, List.append_assoc]

end DocScript
