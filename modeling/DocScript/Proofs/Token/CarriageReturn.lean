import DocScript.Proofs.Token.LineFeed
import DocScript.Token.Stream

/-!
# Carriage returns in front of line feeds

A carriage return is a blank that counts for nothing : it ends every lexeme but a string, as a line feed does, it does
not indent, and where a line feed follows, the columns that it shifts are forgotten. So putting one in front of each
line feed changes neither the lexemes of a text nor their places (`Segmentation.ofText_withReturns`), as long as no
string goes over a line end, and the lines that diagnostics quote are the same (`Source.line?_withReturns`).
-/

namespace DocScript

/-- The text with a carriage return put in front of each line feed. -/
def withReturns : List Char → List Char
  | [] => []
  | c :: cs => if c = '\n' then '\r' :: '\n' :: withReturns cs else c :: withReturns cs

theorem withReturns_lineFeed (cs : List Char) : withReturns ('\n' :: cs) = '\r' :: '\n' :: withReturns cs := by
  rw [withReturns, if_pos rfl]

theorem withReturns_cons {c : Char} (hc : c ≠ '\n') (cs : List Char) :
    withReturns (c :: cs) = c :: withReturns cs := by
  rw [withReturns, if_neg hc]

theorem atLineEnds_withReturns : Lexeme.AtLineEnds withReturns where
  nil := rfl
  cons := withReturns_cons
  lineFeed cs := by simp [Lexeme.Apart, withReturns_lineFeed]

/-! ## Trivia and segments -/

/-- Trivia with carriage returns put in. -/
def Trivia.withReturns (t : Trivia) : Trivia := { t with text := DocScript.withReturns t.text }

theorem Trivia.skipFrom_withReturns (comment : Bool) (cs : List Char) :
    skipFrom comment (DocScript.withReturns cs) =
      ((skipFrom comment cs).1.withReturns, DocScript.withReturns (skipFrom comment cs).2) := by
  induction cs generalizing comment with
  | nil => rfl
  | cons c cs ih =>
    by_cases hc : c = '\n'
    · subst hc
      rw [withReturns_lineFeed]
      cases comment <;> simp [skipFrom, ih, lineBreak, plain, Trivia.withReturns, withReturns_lineFeed]
    · have hhead := atLineEnds_withReturns.head? (c := '/') (by decide) cs
      simp only [withReturns_cons hc, skipFrom, if_neg hc, hhead, ih]
      -- no other character of trivia is changed, and none in front of a lexeme
      repeat' split
      all_goals simp [plain, empty, Trivia.withReturns, withReturns_cons hc]
      rfl

/-- No string goes over a line end, closed or not. -/
def Unbroken (cs : List Char) : Prop :=
  ∀ s ∈ (Segmentation.ofText cs).segments, s.lexeme.text.head? = some '"' → '\n' ∉ s.lexeme.text

instance (cs : List Char) : Decidable (Unbroken cs) :=
  inferInstanceAs (Decidable (∀ s ∈ (Segmentation.ofText cs).segments,
    s.lexeme.text.head? = some '"' → '\n' ∉ s.lexeme.text))

/-- The segment with carriage returns put into its trivia. -/
def Segment.withReturns (s : Segment) : Segment := { s with trivia := s.trivia.withReturns }

namespace Segmentation

/-- The cut with carriage returns put into the trivia. -/
def withReturns (x : Segmentation) : Segmentation := ⟨x.segments.map Segment.withReturns, x.last.withReturns⟩

theorem ofText_withReturns {cs : List Char} (h : Unbroken cs) :
    ofText (DocScript.withReturns cs) = (ofText cs).withReturns := by
  unfold Unbroken at h
  fun_induction ofText cs with
  | case1 cs t hs =>
    have hs' : Trivia.skip (DocScript.withReturns cs) = (t.withReturns, []) := by
      rw [Trivia.skip] at hs ⊢
      rw [Trivia.skipFrom_withReturns, hs]
      rfl
    rw [ofText_of_end hs']
    rfl
  | case2 cs t c rest hs ih =>
    obtain ⟨hlexeme, hrest⟩ := List.forall_mem_cons.1 h
    obtain ⟨u, hu, -⟩ := Lexeme.scan_split c rest
    have hs' : Trivia.skip (DocScript.withReturns cs) = (t.withReturns, c :: DocScript.withReturns rest) := by
      have hc := Trivia.head?_skipFrom false cs
      rw [Trivia.skip] at hs ⊢
      rw [hs] at hc
      rw [Trivia.skipFrom_withReturns, hs, withReturns_cons fun h => hc (by rw [h]; rfl)]
    have hscan := atLineEnds_withReturns.scan c rest fun hc => hlexeme (by rw [hu, hc]; rfl)
    rw [ofText_of_lexeme hs', hscan, ih hrest]
    rfl

end Segmentation

/-! ## Tokens -/

/-- The columns in front of a line feed are forgotten. -/
theorem Pos.advance_withReturns (p : Pos) (cs : List Char) : p.advance (withReturns cs) = p.advance cs := by
  induction cs generalizing p with
  | nil => rfl
  | cons c cs ih =>
    by_cases hc : c = '\n'
    · subst hc
      rw [withReturns_lineFeed, advance_cons, advance_cons, advance_cons, ih]
      rfl
    · rw [withReturns_cons hc, advance_cons, advance_cons, ih]

theorem traceFrom_withReturns (last : Trivia) (l : Layout) (p : Pos) (segments : List Segment) :
    traceFrom last.withReturns l p (segments.map Segment.withReturns) = traceFrom last l p segments := by
  induction segments generalizing l p with
  | nil => simp only [List.map_nil, traceFrom, Trivia.withReturns, Pos.advance_withReturns]
  | cons s segments ih =>
    simp only [List.map_cons, traceFrom, ih]
    simp only [Segment.withReturns, Trivia.withReturns, Pos.advance_withReturns]

namespace Source

/-- The source with a carriage return put in front of each line feed. -/
def withReturns (s : Source) : Source := ⟨s.name, String.ofList (DocScript.withReturns s.text.toList)⟩

theorem trace_withReturns (s : Source) (h : Unbroken s.text.toList) : s.withReturns.trace = s.trace := by
  simp only [trace, withReturns, String.toList_ofList, Segmentation.ofText_withReturns h]
  exact traceFrom_withReturns ..

/-! ## Lines -/

theorem trimReturns_cons (c : Char) (cs : List Char) :
    trimReturns (c :: cs) = if c = '\r' ∧ trimReturns cs = [] then [] else c :: trimReturns cs := by
  simp only [trimReturns, List.reverse_cons, List.dropWhile_append]
  by_cases hd : cs.reverse.dropWhile (· = '\r') = []
  · by_cases hc : c = '\r' <;> simp [hd, hc]
  · simp [hd]

theorem map_trimReturns_consLine (c : Char) {ls ls' : List (List Char)}
    (h : ls.map trimReturns = ls'.map trimReturns) :
    (consLine c ls).map trimReturns = (consLine c ls').map trimReturns := by
  cases ls with
  | nil =>
    cases ls' with
    | nil => rfl
    | cons l' ls' => cases h
  | cons l ls =>
    cases ls' with
    | nil => cases h
    | cons l' ls' =>
      obtain ⟨hl, hls⟩ := List.cons_eq_cons.1 h
      simp only [consLine, List.map_cons, trimReturns_cons, hl, hls]

theorem splitLines_withReturns (cs : List Char) :
    (splitLines (DocScript.withReturns cs)).map trimReturns = (splitLines cs).map trimReturns := by
  induction cs with
  | nil => rfl
  | cons c cs ih =>
    by_cases hc : c = '\n'
    · subst hc
      rw [withReturns_lineFeed]
      simpa [splitLines, consLine, trimReturns] using ih
    · rw [withReturns_cons hc]
      simpa [splitLines, hc] using map_trimReturns_consLine c ih

/-- The lines that diagnostics quote are the same. -/
theorem line?_withReturns (s : Source) (n : Nat) : s.withReturns.line? n = s.line? n := by
  cases n with
  | zero => rfl
  | succ n =>
    have h := congrArg (·[n]?) (splitLines_withReturns s.text.toList)
    simp only [List.getElem?_map] at h
    have hquote := congrArg (Option.map String.ofList) h
    simpa [line?, lines, withReturns, Function.comp_def] using hquote

end Source

end DocScript
