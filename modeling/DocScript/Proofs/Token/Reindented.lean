import DocScript.Proofs.Text.Positions
import DocScript.Proofs.Token.BlankLines
import Mathlib.Data.List.Forall2
import Mathlib.Order.Monotone.Basic

/-!
# Indented by other widths

Of the widths by which lines are indented, only the order matters. If the leading spaces of each line, `n` of them, are
replaced by `φ n`, for a strictly increasing `φ` that leaves zero alone, then the tokens show the same as before
(`Source.contents_reindent`) : blocks are opened and closed in the same places, and the bad dedents are the same.

The line structure behind each lexeme is the one that it was, with `φ` applied to the widths of the open blocks, and so
are the marks (`Layout.enter_reindent`). The lexemes are the same (`Lexeme.AtLineEnds.scan`), except for strings that
go over a line end. Of these, the ones that cannot be read are quoted up to their first line end only, and they
are cut off at the same place (`Lexeme.stringBody_reindentBelow`).
-/

namespace DocScript

variable {φ : Nat → Nat}

/-- Lines that are indented stay so, and no others become it. -/
theorem width_pos_iff (hφ : StrictMono φ) (h₀ : φ 0 = 0) {n : Nat} : 0 < φ n ↔ 0 < n := by
  conv_lhs => rw [← h₀, hφ.lt_iff_lt]

/-! ## Texts -/

/-- The line with its leading spaces, `n` of them, replaced by `φ n`. -/
def reindentLine (φ : Nat → Nat) (line : List Char) : List Char :=
  .replicate (φ (line.takeWhile (· = ' ')).length) ' ' ++ line.dropWhile (· = ' ')

/-- The text with all lines reindented. -/
def reindent (φ : Nat → Nat) (cs : List Char) : List Char :=
  ['\n'].intercalate ((Source.splitLines cs).map (reindentLine φ))

/-- The text with all lines but the first reindented. -/
def reindentBelow (φ : Nat → Nat) (cs : List Char) : List Char :=
  ['\n'].intercalate ((Source.splitLines cs).take 1 ++ ((Source.splitLines cs).drop 1).map (reindentLine φ))

/-- The script with all lines reindented. -/
def Source.reindent (φ : Nat → Nat) (s : Source) : Source := ⟨s.name, .ofList (DocScript.reindent φ s.text.toList)⟩

/-- A text is indented by some spaces, and then goes on with something else. -/
theorem exists_indentation (cs : List Char) : ∃ n body, cs = List.replicate n ' ' ++ body ∧ body.head? ≠ some ' ' := by
  induction cs with
  | nil => exact ⟨0, [], rfl, by simp⟩
  | cons c cs ih =>
    by_cases hc : c = ' '
    · obtain ⟨n, body, rfl, hbody⟩ := ih
      exact ⟨n + 1, body, by rw [hc, List.replicate_succ]; rfl, hbody⟩
    · exact ⟨0, c :: cs, rfl, by simpa using hc⟩

theorem reindentLine_replicate (n : Nat) {body : List Char} (h : body.head? ≠ some ' ') :
    reindentLine φ (List.replicate n ' ' ++ body) = List.replicate (φ n) ' ' ++ body := by
  have hspaces : ∀ c ∈ List.replicate n ' ', decide (c = ' ') = true := by
    intro c hc
    rw [List.eq_of_mem_replicate hc]
    rfl
  have hbody : body.takeWhile (· = ' ') = [] ∧ body.dropWhile (· = ' ') = body := by
    cases body with
    | nil => exact ⟨rfl, rfl⟩
    | cons c body =>
      have hc : c ≠ ' ' := by simpa using h
      simp [hc]
  rw [reindentLine, List.takeWhile_append_of_pos hspaces, List.dropWhile_append_of_pos hspaces, hbody.1, hbody.2,
    List.append_nil, List.length_replicate]

theorem reindentBelow_cons {c : Char} (hc : c ≠ '\n') (cs : List Char) :
    reindentBelow φ (c :: cs) = c :: reindentBelow φ cs := by
  obtain ⟨ls, hls⟩ := Source.exists_splitLines cs
  rw [reindentBelow, reindentBelow, Source.splitLines_cons, if_neg hc, hls, Source.consLine]
  cases ls with
  | nil => simp
  | cons l ls => simp [List.intercalate_cons_cons]

theorem reindentBelow_lineFeed (cs : List Char) : reindentBelow φ ('\n' :: cs) = '\n' :: reindent φ cs := by
  obtain ⟨ls, hls⟩ := Source.exists_splitLines cs
  rw [reindentBelow, reindent, Source.splitLines_cons, if_pos rfl, hls]
  simp [List.intercalate_cons_cons]

theorem atLineEnds_reindentBelow (φ : Nat → Nat) : Lexeme.AtLineEnds (reindentBelow φ) where
  nil := rfl
  cons := reindentBelow_cons
  lineFeed cs := by
    rw [reindentBelow_lineFeed]
    exact Lexeme.apart_lineFeed _

theorem reindentBelow_replicate (n : Nat) (cs : List Char) :
    reindentBelow φ (List.replicate n ' ' ++ cs) = List.replicate n ' ' ++ reindentBelow φ cs :=
  (atLineEnds_reindentBelow φ).append (by simp [List.mem_replicate]) cs

theorem head?_reindentBelow (cs : List Char) : (reindentBelow φ cs).head? = cs.head? := by
  cases cs with
  | nil => rfl
  | cons c cs =>
    by_cases hc : c = '\n'
    · rw [hc, reindentBelow_lineFeed]
      rfl
    · rw [reindentBelow_cons hc]
      rfl

/-- The indentation of the first line is replaced, and so are those of the lines below it. -/
theorem reindent_replicate (n : Nat) {body : List Char} (h : body.head? ≠ some ' ') :
    reindent φ (List.replicate n ' ' ++ body) = List.replicate (φ n) ' ' ++ reindentBelow φ body := by
  obtain ⟨ls, hls⟩ := Source.exists_splitLines body
  have hfirst : (body.takeWhile (· ≠ '\n')).head? ≠ some ' ' := by
    cases body with
    | nil => simp
    | cons c body =>
      by_cases hc : c = '\n'
      · simp [hc]
      · simpa [hc] using h
  have hsplit : Source.splitLines (List.replicate n ' ' ++ body) =
      (List.replicate n ' ' ++ body.takeWhile (· ≠ '\n')) :: ls := by
    induction n with
    | zero => exact hls
    | succ n ih =>
      rw [List.replicate_succ, List.cons_append, Source.splitLines_cons, if_neg (by decide), ih]
      rfl
  rw [reindent, hsplit, List.map_cons, reindentLine_replicate n hfirst, reindentBelow, hls]
  cases ls with
  | nil => simp
  | cons l ls => simp [List.intercalate_cons_cons]

/-! ## Trivia -/

namespace Leading

/-- The blanks with their width changed. -/
def reindent (φ : Nat → Nat) (l : Leading) : Leading := { l with width := φ l.width }

/-- So many spaces. -/
def ofSpaces (n : Nat) : Leading := ⟨n, decide (0 < n), false⟩

theorem space_ofSpaces (n : Nat) : (ofSpaces n).space = ofSpaces (n + 1) := by
  simp [ofSpaces, space]

theorem reindent_ofSpaces (hφ : StrictMono φ) (h₀ : φ 0 = 0) (n : Nat) :
    (ofSpaces n).reindent φ = ofSpaces (φ n) := by
  simp [ofSpaces, reindent, width_pos_iff hφ h₀]

end Leading

namespace Trivia

/-- Spaces in front of a line that is not indented. -/
theorem skip_replicate (n : Nat) {body : List Char} (hb : (skip body).1.blanks = .empty) :
    (skip (List.replicate n ' ' ++ body)).1.blanks = .ofSpaces n ∧
      (skip (List.replicate n ' ' ++ body)).1.entered = (skip body).1.entered ∧
      (skip (List.replicate n ' ' ++ body)).2 = (skip body).2 := by
  induction n with
  | zero => exact ⟨hb, rfl, rfl⟩
  | succ n ih =>
    have hskip : skip (List.replicate (n + 1) ' ' ++ body) =
        ({ (skip (List.replicate n ' ' ++ body)).1.plain ' ' with
            blanks := (skip (List.replicate n ' ' ++ body)).1.blanks.space },
          (skip (List.replicate n ' ' ++ body)).2) := by
      rw [List.replicate_succ, List.cons_append, skip, skipFrom, if_neg (by decide), if_neg (by decide), if_pos rfl]
      rfl
    rw [hskip]
    refine ⟨?_, ih.2⟩
    rw [ih.1, Leading.space_ofSpaces]

/-- What is skipped in a text with its lower lines reindented. -/
structure Reindented (φ : Nat → Nat) (x y : Trivia × List Char) : Prop where
  blanks : y.1.blanks = x.1.blanks
  entered : y.1.entered = x.1.entered.map (Leading.reindent φ)
  rest : y.2 = reindentBelow φ x.2

/-- Behind a line feed the whole text is reindented. -/
theorem Reindented.lineFeed (hφ : StrictMono φ) (h₀ : φ 0 = 0) {cs : List Char} (ht : '\t' ∉ cs) (hr : '\r' ∉ cs)
    (h : Reindented φ (skip cs) (skip (reindentBelow φ cs))) :
    Reindented φ (skip ('\n' :: cs)) (skip ('\n' :: reindent φ cs)) := by
  obtain ⟨n, body, rfl, hbody⟩ := exists_indentation cs
  have hmem : ∀ c ∈ (reindentBelow φ body).head?, c ∈ List.replicate n ' ' ++ body := fun c hc =>
    List.mem_append_right _ (List.mem_of_head? (head?_reindentBelow body ▸ hc))
  have hflush : (skip (reindentBelow φ body)).1.blanks = .empty := by
    have hdrop : (reindentBelow φ body).dropWhile (· = '\r') = reindentBelow φ body := by
      cases hb : reindentBelow φ body with
      | nil => rfl
      | cons c cs =>
        have hc : c ≠ '\r' := fun hc => hr (by rw [← hc]; exact hmem c (by rw [hb]; rfl))
        exact List.dropWhile_cons_of_neg (by simpa using hc)
    refine blanks_skip fun c hc => ?_
    rw [hdrop] at hc
    refine ⟨fun hs => hbody ?_, fun hs => ht (hs ▸ hmem c hc)⟩
    rw [← head?_reindentBelow (φ := φ), ← hs]
    exact hc
  obtain ⟨hblanks, hentered, hrest⟩ := skip_replicate n hflush
  obtain ⟨hblanks', hentered', hrest'⟩ := skip_replicate (φ n) hflush
  rw [reindentBelow_replicate] at h
  have hwidth := h.blanks.symm.trans hblanks
  rw [skip_lineFeed, skip_lineFeed, reindent_replicate n hbody]
  refine ⟨rfl, ?_, hrest'.trans (hrest.symm.trans h.rest)⟩
  simp only [lineBreak, hblanks', hentered', ← hentered, h.entered, hwidth, ← Leading.reindent_ofSpaces hφ h₀]
  cases (skip (List.replicate n ' ' ++ body)).1.entered <;> rfl

theorem reindented_skipFrom (hφ : StrictMono φ) (h₀ : φ 0 = 0) (comment : Bool) {cs : List Char} (ht : '\t' ∉ cs)
    (hr : '\r' ∉ cs) : Reindented φ (skipFrom comment cs) (skipFrom comment (reindentBelow φ cs)) := by
  induction cs generalizing comment with
  | nil => exact ⟨rfl, rfl, rfl⟩
  | cons c cs ih =>
    rw [List.mem_cons, not_or] at ht hr
    by_cases hc : c = '\n'
    · subst hc
      have h := Reindented.lineFeed hφ h₀ ht.2 hr.2 (ih false ht.2 hr.2)
      rw [reindentBelow_lineFeed]
      cases comment <;> exact h
    · have hcomment := ih true ht.2 hr.2
      have hplain := ih false ht.2 hr.2
      simp only [reindentBelow_cons hc, skipFrom, if_neg hc, if_neg (Ne.symm ht.1), if_neg (Ne.symm hr.1),
        head?_reindentBelow]
      split
      · exact ⟨hcomment.blanks, hcomment.entered, hcomment.rest⟩
      split
      · exact ⟨congrArg Leading.space hplain.blanks, hplain.entered, hplain.rest⟩
      split
      · exact ⟨hcomment.blanks, hcomment.entered, hcomment.rest⟩
      · exact ⟨rfl, rfl, (reindentBelow_cons hc cs).symm⟩

end Trivia

/-! ## Lexemes -/

namespace Lexeme

/-- The lexemes give tokens that show the same, and begin with the same character. -/
structure Alike (x y : Lexeme) : Prop where
  content : (Token.ofLexeme .start y).content = (Token.ofLexeme .start x).content
  head? : y.text.head? = x.text.head?

theorem Alike.kind {x y : Lexeme} (h : x.Alike y) : y.kind = x.kind := congrArg Prod.fst h.content

theorem stringBody_plain {c : Char} (hq : c ≠ '"') (hb : c ≠ '\\') (cs : List Char) :
    stringBody (c :: cs) = ({ (stringBody cs).1 with
      value := c :: (stringBody cs).1.value, text := c :: (stringBody cs).1.text }, (stringBody cs).2) := by
  rw [stringBody.eq_def]
  simp only [if_neg hq, if_neg hb]

/-- A backslash and the character behind it. -/
theorem stringBody_escape (l : Char) (cs : List Char) : ∃ value, stringBody ('\\' :: l :: cs) =
    (⟨value, (if (Quoted.escaped? l).isSome then (stringBody cs).1.badEscape else some (leadByte l)),
      (stringBody cs).1.closed, '\\' :: l :: (stringBody cs).1.text⟩, (stringBody cs).2) := by
  rw [stringBody.eq_def]
  cases he : Quoted.escaped? l with
  | none => exact ⟨(stringBody cs).1.value, by simp [he]⟩
  | some e => exact ⟨e :: (stringBody cs).1.value, by simp [he]⟩

/-- Spaces in a string are plain characters. -/
theorem stringBody_replicate (n : Nat) (cs : List Char) :
    (stringBody (List.replicate n ' ' ++ cs)).1.closed = (stringBody cs).1.closed ∧
      (stringBody (List.replicate n ' ' ++ cs)).1.badEscape = (stringBody cs).1.badEscape ∧
      (stringBody (List.replicate n ' ' ++ cs)).2 = (stringBody cs).2 := by
  induction n with
  | zero => exact ⟨rfl, rfl, rfl⟩
  | succ n ih =>
    rw [List.replicate_succ, List.cons_append, stringBody_plain (by decide) (by decide)]
    exact ih

/-- How a string goes on in a text with its lower lines reindented : it ends at the same place, its first bad escape
and its first line are the same. -/
structure Continues (φ : Nat → Nat) (x y : StringBody × List Char) : Prop where
  closed : y.1.closed = x.1.closed
  badEscape : y.1.badEscape = x.1.badEscape
  rest : y.2 = reindentBelow φ x.2
  firstLine : y.1.text.takeWhile (· ≠ '\n') = x.1.text.takeWhile (· ≠ '\n')

/-- Behind a line feed all that matters is where the string ends and whether it has a bad escape. -/
theorem Continues.lineFeed {cs : List Char} (h : Continues φ (stringBody cs) (stringBody (reindentBelow φ cs))) :
    (stringBody (reindent φ cs)).1.closed = (stringBody cs).1.closed ∧
      (stringBody (reindent φ cs)).1.badEscape = (stringBody cs).1.badEscape ∧
      (stringBody (reindent φ cs)).2 = reindentBelow φ (stringBody cs).2 := by
  obtain ⟨n, body, rfl, hbody⟩ := exists_indentation cs
  rw [reindentBelow_replicate] at h
  obtain ⟨hclosed, hescape, hrest⟩ := stringBody_replicate n (reindentBelow φ body)
  obtain ⟨hclosed', hescape', hrest'⟩ := stringBody_replicate (φ n) (reindentBelow φ body)
  rw [reindent_replicate n hbody, hclosed', hescape', hrest', ← hclosed, ← hescape, ← hrest]
  exact ⟨h.closed, h.badEscape, h.rest⟩

theorem Continues.plain {c : Char} {cs : List Char} (hq : c ≠ '"') (hb : c ≠ '\\')
    (h : Continues φ (stringBody cs) (stringBody (reindentBelow φ cs))) :
    Continues φ (stringBody (c :: cs)) (stringBody (reindentBelow φ (c :: cs))) := by
  by_cases hc : c = '\n'
  · subst hc
    obtain ⟨hclosed, hescape, hrest⟩ := h.lineFeed
    rw [reindentBelow_lineFeed, stringBody_plain hq hb, stringBody_plain hq hb]
    exact ⟨hclosed, hescape, hrest, by simp⟩
  · rw [reindentBelow_cons hc, stringBody_plain hq hb, stringBody_plain hq hb]
    refine ⟨h.closed, h.badEscape, h.rest, ?_⟩
    simp only [List.takeWhile_cons, h.firstLine]

theorem Continues.escape {cs : List Char} (l : Char)
    (h : Continues φ (stringBody cs) (stringBody (reindentBelow φ cs))) :
    Continues φ (stringBody ('\\' :: l :: cs)) (stringBody (reindentBelow φ ('\\' :: l :: cs))) := by
  obtain ⟨value, hx⟩ := stringBody_escape l cs
  rw [reindentBelow_cons (by decide), hx]
  by_cases hl : l = '\n'
  · subst hl
    obtain ⟨hclosed, -, hrest⟩ := h.lineFeed
    obtain ⟨value', hy⟩ := stringBody_escape '\n' (reindent φ cs)
    rw [reindentBelow_lineFeed, hy]
    exact ⟨hclosed, rfl, hrest, by simp⟩
  · obtain ⟨value', hy⟩ := stringBody_escape l (reindentBelow φ cs)
    rw [reindentBelow_cons hl, hy]
    refine ⟨h.closed, ?_, h.rest, ?_⟩
    · simp only [h.badEscape]
    · simp only [List.takeWhile_cons, h.firstLine]

theorem stringBody_reindentBelow (φ : Nat → Nat) (cs : List Char) :
    Continues φ (stringBody cs) (stringBody (reindentBelow φ cs)) := by
  induction cs using stringBody.induct with
  | case1 => exact ⟨rfl, rfl, rfl, rfl⟩
  | case2 cs =>
    rw [reindentBelow_cons (by decide), stringBody.eq_def, stringBody.eq_def]
    exact ⟨rfl, rfl, rfl, rfl⟩
  | case3 =>
    rw [reindentBelow_cons (by decide), stringBody.eq_def, stringBody.eq_def]
    exact ⟨rfl, rfl, rfl, rfl⟩
  | case4 l cs b rest hs e he _ ih => exact .escape l ih
  | case5 l cs b rest hs he _ ih => exact .escape l ih
  | case6 c cs hq hb b rest hs ih => exact .plain hq hb ih

end Lexeme

/-- A first line without carriage returns is quoted as it is. -/
theorem Token.firstLine_eq {cs line : List Char} (hline : cs.takeWhile (· ≠ '\n') = line) (h : '\r' ∉ line) :
    firstLine cs = line := by
  subst hline
  exact if_neg fun hr => h (List.mem_of_getLast? hr.2)

namespace Lexeme

/-- A string that could not be read is quoted by its first line. -/
theorem Continues.alike {cs : List Char} (h : Continues φ (stringBody cs) (stringBody (reindentBelow φ cs)))
    (hr : '\r' ∉ cs) (hs : ∀ v, (stringBody cs).1.kind ≠ .string v) :
    (string cs).1.Alike (string (reindentBelow φ cs)).1 := by
  have hkind : (stringBody (reindentBelow φ cs)).1.kind = (stringBody cs).1.kind ∧
      (stringBody cs).1.kind.isError = true := by
    simp only [StringBody.kind, h.closed, h.badEscape] at hs ⊢
    cases hclosed : (stringBody cs).1.closed with
    | false => exact ⟨rfl, rfl⟩
    | true =>
      cases he : (stringBody cs).1.badEscape with
      | some e => exact ⟨rfl, rfl⟩
      | none => exact absurd (by rw [hclosed, he]; rfl) (hs _)
  have hquote : '\r' ∉ ('"' :: (stringBody cs).1.text).takeWhile (· ≠ '\n') := fun hm => by
    have htext := (List.takeWhile_sublist _).subset hm
    rw [List.mem_cons] at htext
    refine hr ?_
    rw [← stringBody_split cs]
    exact List.mem_append_left _ (htext.resolve_left (by decide))
  have hline : Token.firstLine ('"' :: (stringBody (reindentBelow φ cs)).1.text) =
      Token.firstLine ('"' :: (stringBody cs).1.text) := by
    rw [Token.firstLine_eq rfl hquote]
    refine Token.firstLine_eq ?_ hquote
    simp only [List.takeWhile_cons, h.firstLine]
  have hexcerpt : Token.excerpt ('"' :: (stringBody (reindentBelow φ cs)).1.text) =
      Token.excerpt ('"' :: (stringBody cs).1.text) := by
    rw [Token.excerpt, Token.excerpt, hline]
  refine ⟨?_, rfl⟩
  simp only [Token.content, Token.ofLexeme, string, hkind.1, hkind.2, if_pos, hexcerpt]

/-- Lexemes are the same in a text with its lower lines reindented, if no string that could be read goes over a line
end. -/
theorem scan_reindentBelow (φ : Nat → Nat) (c : Char) {cs : List Char} (hr : '\r' ∉ cs)
    (hs : ∀ v, (scan c cs).1.kind = .string v → '\n' ∉ (scan c cs).1.text) :
    (scan c cs).1.Alike (scan c (reindentBelow φ cs)).1 ∧
      (scan c (reindentBelow φ cs)).2 = reindentBelow φ (scan c cs).2 := by
  by_cases hline : c = '"' → '\n' ∉ (scan c cs).1.text
  · rw [(atLineEnds_reindentBelow φ).scan c cs hline]
    exact ⟨⟨rfl, rfl⟩, rfl⟩
  · rw [Classical.not_imp] at hline
    obtain ⟨rfl, hfeed⟩ := hline
    have h := stringBody_reindentBelow φ cs
    exact ⟨h.alike hr fun v hv => hfeed (hs v hv), h.rest⟩

end Lexeme

/-! ## Sketches -/

/-- What stands in the sketches of a text and of the text with its lower lines reindented. -/
structure Reindents (φ : Nat → Nat) (x y : Option Leading × Lexeme) : Prop where
  entered : y.1 = x.1.map (Leading.reindent φ)
  lexeme : x.2.Alike y.2

/-- No string that could be read goes over a line end. -/
def OnLines (xs : List (Option Leading × Lexeme)) : Prop :=
  ∀ x ∈ xs, ∀ v, x.2.kind = .string v → '\n' ∉ x.2.text

theorem sketch_reindentBelow (hφ : StrictMono φ) (h₀ : φ 0 = 0) {cs : List Char} (ht : '\t' ∉ cs) (hr : '\r' ∉ cs)
    (hs : OnLines (sketch cs).1) :
    List.Forall₂ (Reindents φ) (sketch cs).1 (sketch (reindentBelow φ cs)).1 ∧
      (sketch (reindentBelow φ cs)).2 = (sketch cs).2.map (Leading.reindent φ) := by
  induction cs using Segmentation.ofText.induct with
  | case1 cs t hskip =>
    obtain ⟨-, hentered, hrest⟩ := Trivia.reindented_skipFrom hφ h₀ false ht hr
    rw [← Trivia.skip, ← Trivia.skip, hskip] at hentered hrest
    rw [sketch_of_end hskip, sketch_of_end (Prod.ext rfl hrest)]
    exact ⟨.nil, hentered⟩
  | case2 cs t c rest hskip ih =>
    obtain ⟨-, hentered, hrest⟩ := Trivia.reindented_skipFrom hφ h₀ false ht hr
    rw [← Trivia.skip, ← Trivia.skip, hskip] at hentered hrest
    have hmem : ∀ d ∈ c :: rest, d ∈ cs := by
      have hsplit := Trivia.skip_split cs
      rw [hskip] at hsplit
      exact fun d hd => hsplit ▸ List.mem_append_right _ hd
    have hscanned : ∀ d ∈ (Lexeme.scan c rest).2, d ∈ cs := by
      obtain ⟨u, -, hu⟩ := Lexeme.scan_split c rest
      exact fun d hd => hmem d (List.mem_cons_of_mem _ (hu ▸ List.mem_append_right _ hd))
    have hc : c ≠ '\n' := fun hc => Trivia.head?_skipFrom false cs (by rw [← Trivia.skip, hskip, hc]; rfl)
    rw [reindentBelow_cons hc] at hrest
    rw [sketch_of_lexeme hskip] at hs
    obtain ⟨hlexeme, hbelow⟩ := List.forall_mem_cons.1 hs
    obtain ⟨halike, hbehind⟩ := Lexeme.scan_reindentBelow φ c
      (fun h => hr (hmem _ (List.mem_cons_of_mem _ h))) hlexeme
    obtain ⟨hxs, hlast⟩ := ih (fun h => ht (hscanned _ h)) (fun h => hr (hscanned _ h)) hbelow
    rw [sketch_of_lexeme hskip, sketch_of_lexeme (Prod.ext rfl hrest), hbehind]
    exact ⟨.cons ⟨hentered, halike⟩ hxs, hlast⟩

/-- The blanks of the first line do not count. -/
theorem sketch_replicate (n : Nat) (cs : List Char) : sketch (List.replicate n ' ' ++ cs) = sketch cs := by
  induction n with
  | zero => rfl
  | succ n ih =>
    obtain ⟨hrest, hentered⟩ := Trivia.skip_blank (c := ' ') (by simp) (List.replicate n ' ' ++ cs)
    rw [← ih]
    exact sketch_of_skip (Prod.ext rfl hrest) rfl hentered

/-! ## Line structure -/

namespace Layout

/-- The state with the widths of the open blocks changed. -/
def reindent (φ : Nat → Nat) (l : Layout) : Layout := { l with levels := l.levels.map φ }

theorem headD_map (h₀ : φ 0 = 0) (levels : List Nat) : (levels.map φ).headD 0 = φ (levels.headD 0) := by
  cases levels with
  | nil => exact h₀.symm
  | cons => rfl

/-- Widths are only compared. -/
theorem settle_map (hφ : StrictMono φ) (h₀ : φ 0 = 0) (width : Nat) (levels : List Nat) :
    settle (φ width) (levels.map φ) = (settle width levels).map fun m => (m.1, m.2.map φ) := by
  induction levels with
  | nil =>
    simp only [List.map_nil, settle, width_pos_iff hφ h₀]
    split <;> rfl
  | cons level outer ih =>
    simp only [List.map_cons, settle, headD_map h₀, hφ.lt_iff_lt, ih]
    repeat' split
    all_goals rfl

theorem adopt_reindent (hφ : StrictMono φ) (h₀ : φ 0 = 0) (style : Option IndentStyle) (leading : Leading) :
    adopt style (leading.reindent φ) = adopt style leading := by
  have hzero : (leading.reindent φ).width = 0 ↔ leading.width = 0 := by
    have hpos : 0 < (leading.reindent φ).width ↔ 0 < leading.width := width_pos_iff hφ h₀
    omega
  have hstyle : styleOf (leading.reindent φ) = styleOf leading := by
    by_cases h : leading.width = 0
    · rw [styleOf, styleOf, if_pos h, if_pos (hzero.2 h)]
    · rw [styleOf, styleOf, if_neg h, if_neg (mt hzero.1 h)]
      rfl
  simp only [adopt, hstyle]

theorem blocks_reindent (hφ : StrictMono φ) (h₀ : φ 0 = 0) (l : Layout) (width : Nat) :
    (l.reindent φ).blocks (φ width) = (l.blocks width).map fun m => (m.1, m.2.reindent φ) := by
  simp only [blocks, reindent, settle_map hφ h₀, List.map_map]
  rfl

theorem behind_reindent (l : Layout) (marks : List (TokenKind × Layout)) :
    (l.reindent φ).behind (marks.map fun m => (m.1, m.2.reindent φ)) = (l.behind marks).reindent φ := by
  rw [behind, behind, List.getLast?_map]
  cases marks.getLast? <;> rfl

theorem measured_reindent (l : Layout) (entered : Option Leading) :
    (l.reindent φ).measured (entered.map (Leading.reindent φ)) = (l.measured entered).map (Leading.reindent φ) := by
  rw [measured, measured, apply_ite (Option.map (Leading.reindent φ))]
  rfl

/-- The marks in front of a lexeme are the same, and the states behind them are reindented. -/
theorem enter_reindent (hφ : StrictMono φ) (h₀ : φ 0 = 0) (l : Layout) (entered : Option Leading) (atEnd : Bool) :
    (l.reindent φ).enter (entered.map (Leading.reindent φ)) atEnd =
      ((l.enter entered atEnd).1.map fun m => (m.1, m.2.reindent φ), (l.enter entered atEnd).2.reindent φ) := by
  have hends : (l.reindent φ).ends (entered.map (Leading.reindent φ)) atEnd = l.ends entered atEnd := by
    rw [ends, ends, Option.isSome_map]
    rfl
  have htop : (l.reindent φ).top = φ l.top := headD_map h₀ l.levels
  have hadopt (leading : Leading) : adopt (l.reindent φ).style (leading.reindent φ) = adopt l.style leading :=
    adopt_reindent hφ h₀ ..
  -- `front` are the line end and the complaint, and `l'` is the state in which blocks are opened and closed
  have hblocks (l' : Layout) (front : List (TokenKind × Layout)) (width : Nat) :
      (front.map (fun m => (m.1, m.2.reindent φ)) ++ (l'.reindent φ).blocks (if atEnd then 0 else φ width),
        (l'.reindent φ).behind ((l'.reindent φ).blocks (if atEnd then 0 else φ width))) =
      ((front ++ l'.blocks (if atEnd then 0 else width)).map fun m => (m.1, m.2.reindent φ),
        (l'.behind (l'.blocks (if atEnd then 0 else width))).reindent φ) := by
    have hwidth : (if atEnd then 0 else φ width) = φ (if atEnd then 0 else width) := by rw [apply_ite φ, h₀]
    rw [hwidth, blocks_reindent hφ h₀, behind_reindent, List.map_append]
  rw [enter, enter, hends, measured_reindent]
  cases l.measured entered with
  | none =>
    simp only [Option.map_none, htop]
    cases l.ends entered atEnd
    · exact hblocks l [] l.top
    · exact hblocks l.endLine [(.newline, l.endLine)] l.top
  | some leading =>
    simp only [Option.map_some, hadopt]
    cases adopt l.style leading with
    | ok style =>
      cases l.ends entered atEnd
      · exact hblocks { l with style } [] leading.width
      · exact hblocks { l.endLine with style } [(.newline, l.endLine)] leading.width
    | error e =>
      simp only [htop]
      cases l.ends entered atEnd
      · exact hblocks l [(.error e, l)] l.top
      · exact hblocks l.endLine [(.newline, l.endLine), (.error e, l.endLine)] l.top

theorem after_reindent (l : Layout) (kind : TokenKind) : (l.reindent φ).after kind = (l.after kind).reindent φ := by
  rw [after, after]
  split <;> rfl

theorem pass_reindent (hφ : StrictMono φ) (h₀ : φ 0 = 0) (l : Layout) {x y : Option Leading × Lexeme}
    (h : Reindents φ x y) : (l.reindent φ).pass y = (l.pass x).reindent φ := by
  rw [pass, pass, h.entered, enter_reindent hφ h₀, h.lexeme.kind, after_reindent]

end Layout

/-! ## Tokens -/

/-- Of the text behind them, marks show its first character only. -/
theorem markContents_reindent {next next' : List Char} (h : next'.head? = next.head?)
    (marks : List (TokenKind × Layout)) :
    markContents next' (marks.map fun m => (m.1, m.2.reindent φ)) = markContents next marks := by
  have hupcoming : Token.upcoming next' = Token.upcoming next := by
    cases next <;> cases next' <;> simp_all [Token.upcoming]
  simp only [markContents, List.map_map]
  refine List.map_congr_left fun m _ => ?_
  simp only [Function.comp_apply, Token.ofMark, hupcoming]

theorem contentsFrom_reindent (hφ : StrictMono φ) (h₀ : φ 0 = 0) {xs ys : List (Option Leading × Lexeme)}
    (h : List.Forall₂ (Reindents φ) xs ys) (l : Layout) (last : Option Leading) :
    contentsFrom (l.reindent φ) (last.map (Leading.reindent φ)) ys = contentsFrom l last xs := by
  induction h generalizing l with
  | nil =>
    simp only [contentsFrom, ending, Layout.enter_reindent hφ h₀]
    rw [markContents_reindent rfl]
  | cons hxy _ ih =>
    simp only [contentsFrom, Layout.pass_reindent hφ h₀ l hxy, ih, hxy.lexeme.content]
    rw [hxy.entered, Layout.enter_reindent hφ h₀, markContents_reindent hxy.lexeme.head?]

/-- Each lexeme shows in the tokens. -/
theorem content_mem_contentsFrom {xs : List (Option Leading × Lexeme)} {x : Option Leading × Lexeme} (hx : x ∈ xs)
    (l : Layout) (last : Option Leading) : (Token.ofLexeme .start x.2).content ∈ contentsFrom l last xs := by
  induction xs generalizing l with
  | nil => cases hx
  | cons y xs ih =>
    rw [contentsFrom]
    refine List.mem_append_right _ ?_
    rcases List.mem_cons.1 hx with rfl | hx
    · exact List.mem_cons_self
    · exact List.mem_cons_of_mem _ (ih hx _)

namespace Source

/-- No string literal goes over a line end. -/
def StringsOnLines (s : Source) : Prop :=
  ∀ t ∈ s.tokens, ∀ v, t.kind = .string v → '\n' ∉ t.literal.toList

theorem StringsOnLines.sketch {s : Source} (h : s.StringsOnLines) : OnLines (DocScript.sketch s.text.toList).1 := by
  intro x hx v hv
  have hmem : (Token.ofLexeme .start x.2).content ∈ s.contents := by
    rw [contents_eq]
    exact content_mem_contentsFrom hx _ _
  obtain ⟨t, ht, hcontent⟩ := List.mem_map.1 hmem
  have hkind : t.kind = x.2.kind := congrArg Prod.fst hcontent
  have hliteral : t.literal = String.ofList x.2.text := by
    refine (congrArg Prod.snd hcontent).trans (if_neg ?_)
    simp [hv, TokenKind.isError]
  have hline := h t ht v (hkind.trans hv)
  rwa [hliteral, String.toList_ofList] at hline

/-- If the indentation of each line is changed so that wider ones stay wider and lines that are not indented stay so,
the tokens show what they showed before : the same kinds, errors of the indentation among them, and the same texts. -/
theorem contents_reindent (s : Source) (hφ : StrictMono φ) (h₀ : φ 0 = 0) (ht : '\t' ∉ s.text.toList)
    (hr : '\r' ∉ s.text.toList) (hs : s.StringsOnLines) : (s.reindent φ).contents = s.contents := by
  have hlines := hs.sketch
  obtain ⟨n, body, hbody, hflush⟩ := exists_indentation s.text.toList
  rw [hbody, sketch_replicate] at hlines
  rw [hbody, List.mem_append, not_or] at ht hr
  obtain ⟨hxs, hlast⟩ := sketch_reindentBelow hφ h₀ ht.2 hr.2 hlines
  rw [reindent, contents_eq, String.toList_ofList, hbody, reindent_replicate n hflush, sketch_replicate, hlast,
    contents_eq, hbody, sketch_replicate]
  have hstart : Layout.start.reindent φ = .start := by simp [Layout.reindent, Layout.start, h₀]
  rw [← contentsFrom_reindent hφ h₀ hxs, hstart]

/-- A block of two lines, closed by a bad dedent, with each indentation doubled. -/
theorem contents_reindent_doubled :
    let s : Source := ⟨"main", "if a:\n    b\n  c = \"x\"\nd"⟩
    '\t' ∉ s.text.toList ∧ '\r' ∉ s.text.toList ∧ s.StringsOnLines ∧
      (s.reindent (2 * ·)).text = "if a:\n        b\n    c = \"x\"\nd" ∧
      (.error .badDedent, "") ∈ s.contents ∧ (s.reindent (2 * ·)).contents = s.contents := by
  intro s
  have hmono : StrictMono (2 * · : Nat → Nat) := fun a b hab => by dsimp only; omega
  have hstrings : s.StringsOnLines := by
    have hliterals : ∀ t ∈ s.tokens, '\n' ∉ t.literal.toList := by decide +kernel
    exact fun t ht _ _ => hliterals t ht
  exact ⟨by decide, by decide, hstrings, by decide +kernel, by decide +kernel,
    s.contents_reindent hmono rfl (by decide) (by decide) hstrings⟩

end Source

end DocScript
