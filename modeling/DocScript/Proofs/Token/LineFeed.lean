import DocScript.Token.Segment

/-!
# Texts cut at a line feed

A blank ends every lexeme but a string, and so does the end of the text. So what is read off a text does not depend on
what stands behind a blank (`Lexeme.scan_apart`), and changes of a text at the ends of its lines change no lexeme
(`Lexeme.AtLineEnds.scan`).

A text in which no string is left open (`Unquoted`), a line feed and whatever follows are cut at their lexemes as if
each were read alone (`Segmentation.ofText_lineFeed`) : only the trivia on both sides of the line feed are joined.
-/

namespace DocScript

variable {b v : List Char}

/-! ## Lexemes in front of a blank -/

namespace Lexeme

/-- The text is empty or begins with a blank. -/
def Apart (r : List Char) : Prop := ∀ c ∈ r.head?, c ∈ [' ', '\t', '\r', '\n']

variable {r : List Char}

theorem apart_nil : Apart [] := by simp [Apart]

theorem apart_lineFeed (v : List Char) : Apart ('\n' :: v) := by simp [Apart]

theorem Apart.head? (hr : Apart r) {c : Char} (hc : c ∉ [' ', '\t', '\r', '\n']) : r.head? ≠ some c :=
  fun h => hc (hr c h)

/-- A blank that follows is no other character that could come first. -/
theorem Apart.head?_append (hr : Apart r) {c : Char} (hc : c ∉ [' ', '\t', '\r', '\n']) (b : List Char) :
    (b ++ r).head? = some c ↔ b.head? = some c := by
  cases b with
  | nil => simpa using hr.head? hc
  | cons d b => rfl

section Runs

variable {p : Char → Bool} (hp : [' ', '\t', '\r', '\n'].any p = false) (hr : Apart r)

include hp hr

theorem takeWhile_apart (b : List Char) : (b ++ r).takeWhile p = b.takeWhile p := by
  induction b with
  | nil =>
    cases r with
    | nil => rfl
    | cons c r => simp [List.any_eq_false.1 hp c (hr c rfl)]
  | cons c b ih => simp only [List.cons_append, List.takeWhile_cons, ih]

theorem dropWhile_apart (b : List Char) : (b ++ r).dropWhile p = b.dropWhile p ++ r := by
  induction b with
  | nil =>
    cases r with
    | nil => rfl
    | cons c r => simp [List.any_eq_false.1 hp c (hr c rfl)]
  | cons c b ih =>
    simp only [List.cons_append, List.dropWhile_cons, ih]
    split <;> rfl

end Runs

theorem decimalRun_apart (hr : Apart r) (point gap : Bool) (b : List Char) :
    decimalRun point gap (b ++ r) = ((decimalRun point gap b).1, (decimalRun point gap b).2 ++ r) := by
  induction b generalizing point gap with
  | nil =>
    cases r with
    | nil => rfl
    | cons c r =>
      have hc := hr c rfl
      simp only [List.mem_cons, List.not_mem_nil, or_false] at hc
      rcases hc with rfl | rfl | rfl | rfl <;> simp [decimalRun]
  | cons c b ih =>
    have hhead : (b ++ r).head?.any Char.isDigit = b.head?.any Char.isDigit := by
      cases b with
      | nil =>
        cases r with
        | nil => rfl
        | cons d r =>
          have hd := hr d rfl
          simp only [List.mem_cons, List.not_mem_nil, or_false] at hd
          rcases hd with rfl | rfl | rfl | rfl <;> rfl
      | cons d b => rfl
    simp only [List.cons_append, decimalRun, hhead, ih]
    split
    · rfl
    · split
      · rfl
      · split <;> rfl

theorem decimal_apart (hr : Apart r) (c : Char) (b : List Char) :
    decimal c (b ++ r) = ((decimal c b).1, (decimal c b).2 ++ r) := by
  simp only [decimal, decimalRun_apart hr]

theorem number_apart (hr : Apart r) (c : Char) (b : List Char) :
    number c (b ++ r) = ((number c b).1, (number c b).2 ++ r) := by
  have h := decimal_apart hr c b
  cases b with
  | nil =>
    cases r with
    | nil => exact h
    | cons d r =>
      have hradix : radix? d = none := by
        have hd := hr d rfl
        simp only [List.mem_cons, List.not_mem_nil, or_false] at hd
        rcases hd with rfl | rfl | rfl | rfl <;> rfl
      simpa [number, hradix] using h
  | cons d b =>
    simp only [List.cons_append] at h
    simp only [List.cons_append, number, h, takeWhile_apart (p := Char.isAlphanum) (by decide) hr,
      dropWhile_apart (p := Char.isAlphanum) (by decide) hr]
    split
    · split <;> rfl
    · rfl

theorem symbol_apart (hr : Apart r) (c : Char) (b : List Char) :
    symbol c (b ++ r) = ((symbol c b).1, (symbol c b).2 ++ r) := by
  cases b with
  | nil =>
    cases r with
    | nil => rfl
    | cons d r =>
      have hd := hr d rfl
      simp only [List.mem_cons, List.not_mem_nil, or_false] at hd
      rcases hd with rfl | rfl | rfl | rfl <;> simp [symbol, symbol2?]
  | cons d b =>
    simp only [List.cons_append, symbol]
    split <;> rfl

/-- A blank ends a lexeme that is no string. -/
theorem scan_apart {c : Char} (hc : c ≠ '"') (hr : Apart r) (b : List Char) :
    scan c (b ++ r) = ((scan c b).1, (scan c b).2 ++ r) := by
  unfold scan
  rw [if_neg hc, if_neg hc]
  split
  · exact number_apart hr c b
  split
  · simp only [word, takeWhile_apart (p := isNameChar) (by decide) hr,
      dropWhile_apart (p := isNameChar) (by decide) hr]
  · exact symbol_apart hr c b

/-- A closed string ends at its quote, whatever follows. -/
theorem stringBody_text {cs : List Char} (h : (stringBody cs).1.closed = true) (w : List Char) :
    stringBody ((stringBody cs).1.text ++ w) = ((stringBody cs).1, w) := by
  fun_induction stringBody cs with
  | case1 => contradiction
  | case2 cs =>
    rw [List.cons_append, stringBody.eq_def]
    simp
  | case3 => contradiction
  | case4 l cs b rest hs e he _ ih =>
    rw [hs] at ih
    rw [List.cons_append, List.cons_append, stringBody.eq_def]
    simp [ih h, he]
  | case5 l cs b rest hs he _ ih =>
    rw [hs] at ih
    rw [List.cons_append, List.cons_append, stringBody.eq_def]
    simp [ih h, he]
  | case6 c cs hq hb b rest hs ih =>
    rw [hs] at ih
    rw [List.cons_append, stringBody.eq_def]
    simp [ih h, hq, hb]

/-- An open string goes on to the end of the text. -/
theorem stringBody_open {cs : List Char} (h : (stringBody cs).1.closed = false) : (stringBody cs).2 = [] := by
  fun_induction stringBody cs with
  | case1 => rfl
  | case2 => contradiction
  | case3 => rfl
  | case4 l cs b rest hs e he _ ih =>
    rw [hs] at ih
    exact ih h
  | case5 l cs b rest hs he _ ih =>
    rw [hs] at ih
    exact ih h
  | case6 c cs hq hb b rest hs ih =>
    rw [hs] at ih
    exact ih h

theorem stringBody_append {b : List Char} (h : (stringBody b).1.closed = true) (v : List Char) :
    stringBody (b ++ v) = ((stringBody b).1, (stringBody b).2 ++ v) := by
  have hb : b ++ v = (stringBody b).1.text ++ ((stringBody b).2 ++ v) := by
    rw [← List.append_assoc, stringBody_split]
  rw [hb, stringBody_text h]

/-- A line feed ends a lexeme, unless it stands in a string. -/
theorem scan_lineFeed (c : Char) (b v : List Char) (h : (scan c b).1.kind ≠ .error .unterminatedString) :
    scan c (b ++ '\n' :: v) = ((scan c b).1, (scan c b).2 ++ '\n' :: v) := by
  by_cases hc : c = '"'
  · subst hc
    cases hclosed : (stringBody b).1.closed with
    | true => simp only [scan, if_pos, string, stringBody_append hclosed]
    | false => exact absurd (by simp [scan, string, StringBody.kind, hclosed]) h
  · exact scan_apart hc (apart_lineFeed v) b

/-! ## Changes at the ends of lines -/

/-- The first line of a text, and what follows it. -/
theorem exists_firstLine (cs : List Char) :
    ∃ line rest, cs = line ++ rest ∧ '\n' ∉ line ∧ (rest = [] ∨ ∃ v, rest = '\n' :: v) := by
  induction cs with
  | nil => exact ⟨[], [], rfl, List.not_mem_nil, .inl rfl⟩
  | cons c cs ih =>
    by_cases hc : c = '\n'
    · exact ⟨[], c :: cs, rfl, List.not_mem_nil, .inr ⟨cs, by rw [hc]⟩⟩
    · obtain ⟨line, rest, rfl, hline, hrest⟩ := ih
      exact ⟨c :: line, rest, rfl, List.not_mem_cons_of_ne_of_not_mem (Ne.symm hc) hline, hrest⟩

/-- What `f` changes in a text are only the ends of its lines. -/
structure AtLineEnds (f : List Char → List Char) : Prop where
  nil : f [] = []
  cons : ∀ {c : Char}, c ≠ '\n' → ∀ cs, f (c :: cs) = c :: f cs
  lineFeed : ∀ cs, Apart (f ('\n' :: cs))

namespace AtLineEnds

variable {f : List Char → List Char} (hf : AtLineEnds f)

include hf

theorem append {b : List Char} (hb : '\n' ∉ b) (cs : List Char) : f (b ++ cs) = b ++ f cs := by
  induction b with
  | nil => rfl
  | cons c b ih =>
    rw [List.mem_cons, not_or] at hb
    rw [List.cons_append, hf.cons (Ne.symm hb.1), ih hb.2]
    rfl

theorem eq_self {b : List Char} (hb : '\n' ∉ b) : f b = b := by
  have h := hf.append hb []
  rwa [List.append_nil, hf.nil, List.append_nil] at h

/-- A character other than a blank comes first in both texts or in none. -/
theorem head? {c : Char} (hc : c ∉ [' ', '\t', '\r', '\n']) (cs : List Char) :
    (f cs).head? = some c ↔ cs.head? = some c := by
  cases cs with
  | nil => rw [hf.nil]
  | cons d cs =>
    by_cases hd : d = '\n'
    · subst hd
      exact iff_of_false ((hf.lineFeed cs).head? hc) ((apart_lineFeed cs).head? hc)
    · rw [hf.cons hd]
      rfl

/-- A lexeme is not changed, unless it is a string that goes over a line end. -/
theorem scan (c : Char) (cs : List Char) (h : c = '"' → '\n' ∉ (scan c cs).1.text) :
    Lexeme.scan c (f cs) = ((Lexeme.scan c cs).1, f (Lexeme.scan c cs).2) := by
  by_cases hc : c = '"'
  · subst hc
    have hbody : '\n' ∉ (stringBody cs).1.text := fun hm => h rfl (by simp [Lexeme.scan, string, hm])
    have hsplit : f cs = (stringBody cs).1.text ++ f (stringBody cs).2 := by
      rw [← hf.append hbody, stringBody_split]
    have hstring : stringBody (f cs) = ((stringBody cs).1, f (stringBody cs).2) := by
      cases hclosed : (stringBody cs).1.closed with
      | true => rw [hsplit, stringBody_text hclosed]
      | false =>
        have hrest := stringBody_open hclosed
        have htext := stringBody_split cs
        rw [hrest, List.append_nil] at htext
        rw [hrest, hf.nil, hf.eq_self (htext ▸ hbody), ← hrest]
    simp only [Lexeme.scan, if_pos, string, hstring]
  · -- up to the first line feed nothing is changed, and there the lexeme ends
    obtain ⟨b, r, rfl, hb, hr⟩ := exists_firstLine cs
    have happart : Apart r ∧ Apart (f r) := by
      rcases hr with rfl | ⟨v, rfl⟩
      · exact ⟨apart_nil, hf.nil.symm ▸ apart_nil⟩
      · exact ⟨apart_lineFeed v, hf.lineFeed v⟩
    have hrest : '\n' ∉ (Lexeme.scan c b).2 := by
      obtain ⟨u, -, hu⟩ := scan_split c b
      exact fun hm => hb (hu ▸ List.mem_append_right u hm)
    rw [hf.append hb, scan_apart hc happart.2, scan_apart hc happart.1, hf.append hrest]

end AtLineEnds

end Lexeme

/-! ## Trivia around a line feed -/

namespace Trivia

/-- Trivia with others behind them that begin with a line break. -/
def followedBy (t u : Trivia) : Trivia := ⟨t.text ++ u.text, t.blanks, u.entered⟩

theorem skip_lineFeed (v : List Char) : skip ('\n' :: v) = ((skip v).1.lineBreak '\n', (skip v).2) := by
  rw [skip, skipFrom, if_pos rfl]
  rfl

/-- Line feeds are skipped. -/
theorem head?_skipFrom (comment : Bool) (cs : List Char) : (skipFrom comment cs).2.head? ≠ some '\n' := by
  fun_induction skipFrom comment cs <;> simp_all

/-- What is skipped, and what is left, if a line feed and `v` follow the text that gave `x` : trivia that ran up to
the end go on behind the line feed. -/
def resume (v : List Char) : Trivia × List Char → Trivia × List Char
  | (t, []) => (t.followedBy (skip ('\n' :: v)).1, (skip ('\n' :: v)).2)
  | (t, c :: r) => (t, c :: (r ++ '\n' :: v))

theorem skipFrom_lineFeed (comment : Bool) (b v : List Char) :
    skipFrom comment (b ++ '\n' :: v) = resume v (skipFrom comment b) := by
  fun_induction skipFrom comment b with
  | case1 comment =>
    rw [List.nil_append, skipFrom, if_pos rfl, resume, skip_lineFeed]
    rfl
  | case2 comment b t rest hs ih =>
    rw [List.cons_append, skipFrom, if_pos rfl, ih, hs]
    cases rest with
    | nil =>
      rw [resume, skip_lineFeed]
      rfl
    | cons c rest => rfl
  | case3 c b hc t rest hs ih =>
    rw [List.cons_append, skipFrom, if_neg hc, if_pos rfl, ih, hs]
    cases rest <;> rfl
  | case4 comment b hcomment t rest hs h₁ ih =>
    rw [List.cons_append, skipFrom, if_neg h₁, if_neg hcomment, if_pos rfl, ih, hs]
    cases rest <;> rfl
  | case5 comment b hcomment t rest hs h₁ h₂ ih =>
    rw [List.cons_append, skipFrom, if_neg h₁, if_neg hcomment, if_neg h₂, if_pos rfl, ih, hs]
    cases rest <;> rfl
  | case6 comment b hcomment t rest hs h₁ h₂ h₃ ih =>
    rw [List.cons_append, skipFrom, if_neg h₁, if_neg hcomment, if_neg h₂, if_neg h₃, if_pos rfl, ih, hs]
    cases rest <;> rfl
  | case7 comment c b h₁ hcomment h₂ h₃ h₄ hslash t rest hs ih =>
    have hhead := ((Lexeme.apart_lineFeed v).head?_append (c := '/') (by decide) b).2
    rw [List.cons_append, skipFrom, if_neg h₁, if_neg hcomment, if_neg h₂, if_neg h₃, if_neg h₄,
      if_pos (hslash.imp_right hhead), ih, hs]
    cases rest <;> rfl
  | case8 comment c b h₁ hcomment h₂ h₃ h₄ hslash =>
    -- a slash at the end of `b` begins no comment, since a line feed follows it
    have hhead := ((Lexeme.apart_lineFeed v).head?_append (c := '/') (by decide) b).1
    rw [List.cons_append, skipFrom, if_neg h₁, if_neg hcomment, if_neg h₂, if_neg h₃, if_neg h₄,
      if_neg fun h => hslash (h.imp_right hhead)]
    rfl

theorem skip_append_lineFeed {t : Trivia} {rest : List Char} (h : skip b = (t, rest)) (v : List Char) :
    skip (b ++ '\n' :: v) = resume v (t, rest) := by
  rw [skip] at h ⊢
  rw [skipFrom_lineFeed, h]

end Trivia

namespace Segmentation

/-- A text that was cut, with another one behind it that begins with a line break. -/
def followedBy (x y : Segmentation) : Segmentation :=
  match y.segments with
  | [] => ⟨x.segments, x.last.followedBy y.last⟩
  | s :: segments => ⟨x.segments ++ ⟨x.last.followedBy s.trivia, s.lexeme⟩ :: segments, y.last⟩

theorem cons_followedBy (s : Segment) (x y : Segmentation) : (x.cons s).followedBy y = (x.followedBy y).cons s := by
  unfold followedBy
  split <;> rfl

end Segmentation

/-- No string is left open. -/
def Unquoted (cs : List Char) : Prop :=
  ∀ s ∈ (Segmentation.ofText cs).segments, s.lexeme.kind ≠ .error .unterminatedString

instance (cs : List Char) : Decidable (Unquoted cs) :=
  inferInstanceAs (Decidable (∀ s ∈ (Segmentation.ofText cs).segments, s.lexeme.kind ≠ .error .unterminatedString))

/-- Where no string is open, a line feed divides a text. -/
theorem Segmentation.ofText_lineFeed (h : Unquoted b) (v : List Char) :
    ofText (b ++ '\n' :: v) = (ofText b).followedBy (ofText ('\n' :: v)) := by
  unfold Unquoted at h
  fun_induction ofText b with
  | case1 b t hs =>
    have hs' := Trivia.skip_append_lineFeed hs v
    rw [Trivia.resume] at hs'
    rcases hv : Trivia.skip ('\n' :: v) with ⟨u, _ | ⟨c, rest⟩⟩
    · rw [hv] at hs'
      rw [ofText_of_end hv, ofText_of_end hs']
      rfl
    · rw [hv] at hs'
      rw [ofText_of_lexeme hv, ofText_of_lexeme hs']
      rfl
  | case2 b t c rest hs ih =>
    obtain ⟨hc, hrest⟩ := List.forall_mem_cons.1 h
    rw [ofText_of_lexeme (Trivia.skip_append_lineFeed hs v), Lexeme.scan_lineFeed c rest v hc, ih hrest,
      cons_followedBy]

end DocScript
