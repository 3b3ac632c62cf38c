import DocScript.Proofs.Token.Lines
import Mathlib.Data.List.Chain

/-!
# The tokens that could be read

Readers of programs never see an error token. What is left of a stream without its error tokens still has the
line structure of the script : in front of an indent there is no lexeme (`Source.adjacent_sound`), and what follows
any place of it closes all blocks that it opens (`Source.closes_sound`), because the stream closes all blocks in
the end and its beginning never closes more of them than it opened.
-/

namespace DocScript

open Layout

/-- The tokens that could be read. -/
def soundTokens (ts : List Token) : List Token := ts.filter fun t => !t.kind.isError

theorem soundTokens_cons (t : Token) (ts : List Token) :
    soundTokens (t :: ts) = if t.kind.isError then soundTokens ts else t :: soundTokens ts := by
  unfold soundTokens
  cases h : t.kind.isError <;> simp [h]

theorem isError_of_mem_soundTokens {t : Token} {ts : List Token} (h : t ∈ soundTokens ts) :
    t.kind.isError = false := by
  simpa using (List.mem_filter.1 h).2

theorem mem_of_mem_soundTokens {t : Token} {ts : List Token} (h : t ∈ soundTokens ts) : t ∈ ts :=
  (List.mem_filter.1 h).1

theorem indents_append (ts us : List Token) : indents (ts ++ us) = indents ts + indents us :=
  List.countP_append

theorem dedents_append (ts us : List Token) : dedents (ts ++ us) = dedents ts + dedents us :=
  List.countP_append

/-- Error tokens open no block. -/
theorem indents_soundTokens (ts : List Token) : indents (soundTokens ts) = indents ts := by
  rw [indents, soundTokens, List.countP_filter, indents]
  refine List.countP_congr fun t _ => ?_
  cases h : t.kind <;> simp [TokenKind.isError]

/-- Error tokens close no block. -/
theorem dedents_soundTokens (ts : List Token) : dedents (soundTokens ts) = dedents ts := by
  rw [dedents, soundTokens, List.countP_filter, dedents]
  refine List.countP_congr fun t _ => ?_
  cases h : t.kind <;> simp [TokenKind.isError]

/-! ## In front of an indent -/

/-- The last token that could be read ends a line or stands behind the last end of a line. -/
theorem lastSound?_recent {past : List Token} {u : Token} (h : lastSound? past = some u) :
    u.kind = .newline ∨ u ∈ sinceNewline past := by
  have hfind : past.reverse.find? (fun t => !t.kind.isError) = some u := by
    rw [← List.head?_filter, List.filter_reverse, List.head?_reverse]
    exact h
  unfold sinceNewline
  generalize past.reverse = recent at hfind
  induction recent with
  | nil => nomatch hfind
  | cons t recent ih =>
    cases he : t.kind.isError with
    | true =>
      have hn : t.kind ≠ .newline := by rintro hn; simp [hn, TokenKind.isError] at he
      rw [List.takeWhile_cons_of_pos (by simpa using hn)]
      simp only [List.find?_cons, he] at hfind
      exact (ih hfind).imp_right (List.mem_cons_of_mem t)
    | false =>
      obtain rfl : t = u := by simpa [List.find?_cons, he] using hfind
      by_cases hn : t.kind = .newline
      · exact .inl hn
      · rw [List.takeWhile_cons_of_pos (by simpa using hn)]
        exact .inr List.mem_cons_self

/-- No lexeme stands in front of an indent. -/
def Adjacent (t u : Token) : Prop := u.kind = .indent → t.kind.isLexeme = false

theorem Layout.Reflects.adjacent {ended : Prop} {l l' : Layout} {past : List Token} {t u : Token}
    (h : l.Reflects past) (hs : l.Step ended t.kind l') (hu : lastSound? past = some u) : Adjacent u t := by
  intro hk
  rw [hk] at hs
  cases hs with
  | lexeme style hm => nomatch hm
  | indent style hstart =>
    rcases lastSound?_recent hu with hn | hm
    · simp [hn, TokenKind.isLexeme]
    · exact h.lineStart hstart u hm

/-- The induction goes through the stream; `first` stands in front of it. -/
theorem Layout.Chain.adjacent {first : Token} (hfirst : first.kind.isLexeme = false) :
    ∀ {xs : List (Token × Layout)} {l : Layout} {past : List Token}, l.Chain xs → l.Reflects past →
      ((lastSound? past).getD first :: soundTokens (xs.map Prod.fst)).IsChain Adjacent
  | [], _, _, _, _ => .singleton _
  | (t, l') :: xs, l, past, hc, hr => by
    have ih := Chain.adjacent hfirst hc.2.2 (hr.step hc.1)
    rw [List.map_cons, soundTokens_cons]
    rw [lastSound?_concat] at ih
    cases he : t.kind.isError with
    | true => simpa [he] using ih
    | false =>
      simp only [he, Bool.false_eq_true, if_false, Option.getD_some] at ih ⊢
      refine .cons_cons ?_ ih
      cases hu : lastSound? past with
      | none => exact fun _ => hfirst
      | some u => exact hr.adjacent hc.1 hu

/-! ## Behind an indent -/

/-- In the end as many blocks were closed as were opened. -/
theorem Layout.Chain.balance : ∀ {xs : List (Token × Layout)} {l : Layout} {past : List Token}, l.Chain xs →
    l.Reflects past → xs ≠ [] → indents (past ++ xs.map Prod.fst) = dedents (past ++ xs.map Prod.fst)
  | [], _, _, _, _, hne => absurd rfl hne
  | (t, l') :: xs, l, past, hc, hr, _ => by
    have hstep := hr.step hc.1
    cases xs with
    | nil =>
      have hb := hstep.balance
      have hend : t.kind = .endOfFile := hc.2.1.2 rfl
      have hs := hc.1
      rw [hend] at hs
      rw [hs.at_end.1, List.length_singleton] at hb
      simpa using hb
    | cons x xs =>
      have ih := Chain.balance hc.2.2 hstep (by simp)
      rwa [List.append_assoc] at ih

/-- What follows a place in the stream closes all blocks that it opens. -/
theorem Layout.Chain.closes : ∀ {xs : List (Token × Layout)} {l : Layout} {past : List Token}, l.Chain xs →
    l.Reflects past → ∀ {v : List Token}, v <:+ soundTokens (xs.map Prod.fst) → indents v ≤ dedents v
  | [], _, _, _, _, v, hv => by
    obtain rfl := List.suffix_nil.1 hv
    exact Nat.le_refl _
  | (t, l') :: xs, l, past, hc, hr, v, hv => by
    have hall : indents (soundTokens (t :: xs.map Prod.fst)) ≤ dedents (soundTokens (t :: xs.map Prod.fst)) := by
      have hb := hr.balance
      have hpos := List.length_pos_iff.2 hr.nested.ne_nil
      have htotal := hc.balance hr (by simp)
      simp only [indents_append, dedents_append, List.map_cons] at htotal
      rw [indents_soundTokens, dedents_soundTokens]
      omega
    rw [List.map_cons, soundTokens_cons] at hv
    rw [soundTokens_cons] at hall
    cases he : t.kind.isError with
    | true =>
      simp only [he, if_true] at hv
      exact Chain.closes hc.2.2 (hr.step hc.1) hv
    | false =>
      simp only [he, Bool.false_eq_true, if_false] at hv hall
      rcases List.suffix_cons_iff.1 hv with rfl | hv
      · exact hall
      · exact Chain.closes hc.2.2 (hr.step hc.1) hv

/-! ## Scripts -/

/-- Marks have no text; only the complaint about mixed blanks quotes something. -/
theorem literal_traceFrom (last : Trivia) : ∀ {segments : List Segment} (l : Layout) (p : Pos),
    (∀ s ∈ segments, s.lexeme.kind.isMark = false) →
      ∀ x ∈ traceFrom last l p segments, x.1.kind = .indent → x.1.literal = "" := by
  have marks : ∀ (p : Pos) (next : List Char) (ms : List (TokenKind × Layout)),
      ∀ x ∈ marksAt p next ms, x.1.kind = .indent → x.1.literal = "" := by
    intro p next ms x hx hk
    obtain ⟨⟨k, l⟩, -, rfl⟩ := List.mem_map.1 hx
    rw [Token.kind_ofMark] at hk
    subst hk
    rfl
  intro segments
  induction segments with
  | nil =>
    intro l p _ x hx hk
    rw [traceFrom] at hx
    rcases List.mem_append.1 hx with hx | hx
    · exact marks _ _ _ x hx hk
    · obtain rfl := List.mem_singleton.1 hx
      contradiction
  | cons s segments ih =>
    intro l p hs x hx hk
    rw [traceFrom] at hx
    rcases List.mem_append.1 hx with hx | hx
    · exact marks _ _ _ x hx hk
    · rcases List.mem_cons.1 hx with rfl | hx
      · have hm := hs s List.mem_cons_self
        have hk' : s.lexeme.kind = .indent := hk
        simp [hk', TokenKind.isMark] at hm
      · exact ih _ _ (fun u hu => hs u (List.mem_cons_of_mem s hu)) x hx hk

namespace Source

/-- Messages quote an indent by the name of its kind. -/
theorem lexeme_of_indent {s : Source} {t : Token} (ht : t ∈ s.tokens) (hk : t.kind = .indent) :
    t.lexeme = TokenKind.indent.text := by
  obtain ⟨x, hx, rfl⟩ := List.mem_map.1 ht
  have hl := literal_traceFrom _ _ _ (Segmentation.isMark_ofText _) x hx hk
  simp [Token.lexeme, hl, hk]

theorem adjacent_sound (s : Source) {first : Token} (h : first.kind.isLexeme = false) :
    (first :: soundTokens s.tokens).IsChain Adjacent :=
  s.chain_trace.adjacent h reflects_start

theorem closes_sound (s : Source) {v : List Token} (hv : v <:+ soundTokens s.tokens) :
    indents v ≤ dedents v :=
  s.chain_trace.closes reflects_start hv

end Source

end DocScript
