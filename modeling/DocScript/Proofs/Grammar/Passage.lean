import DocScript.Proofs.Grammar.Progress
import DocScript.Proofs.Token.Sound

/-!
# Which tokens a parser passes

`Parser.Passes p w ds q` says that a parser came from `p` to `q` over the tokens `w` and recorded the diagnostics
`ds` on the way. What readers pass is `Folded` : it never closes a block that it did not open, and if no diagnostic
quotes an indent it closes all blocks that it opens.

Readers pass single tokens or blocks, and these are folded. So all depends on recovery, which skips tokens of
any kind, but stops in front of a dedent and behind the end of a line. An indent stands behind the end of a line, or
behind another mark where an error token is the only thing on a line. Hence recovery passes an indent only if it
starts in front of one, and then the complaint was about that indent (`Parser.Formed.passes_recover`).
-/

namespace DocScript

/-! ## Words of tokens -/

/-- The tokens never close a block that they did not open. -/
def Grounded (w : List Token) : Prop := ∀ v, v <+: w → dedents v ≤ indents v

/-- No diagnostic quotes an indent. -/
def Calm (ds : List Diagnostic) : Prop := ∀ d ∈ ds, d.lexeme ≠ TokenKind.indent.text

/-- Blocks are opened and closed in turn, and none is left open unless there was a complaint about an indent. -/
structure Folded (w : List Token) (ds : List Diagnostic) : Prop where
  grounded : Grounded w
  balanced : Calm ds → indents w = dedents w

theorem Grounded.append {w v : List Token} (hw : Grounded w) (hv : Grounded v) : Grounded (w ++ v) := by
  intro u hu
  rcases List.prefix_or_prefix_of_prefix hu (List.prefix_append w v) with h | ⟨u', rfl⟩
  · exact hw u h
  · have h' := hv u' ((List.prefix_append_right_inj w).1 hu)
    have hall := hw w (List.prefix_refl w)
    rw [indents_append, dedents_append]
    omega

theorem grounded_of_forall {w : List Token} (h : ∀ t ∈ w, t.kind ≠ .dedent) : Grounded w := by
  intro v hv
  have hzero : dedents v = 0 := List.countP_eq_zero.2 fun t ht => by simpa using h t (hv.subset ht)
  omega

theorem indents_eq_zero {w : List Token} (h : ∀ t ∈ w, t.kind ≠ .indent) : indents w = 0 :=
  List.countP_eq_zero.2 fun t ht => by simpa using h t ht

theorem dedents_eq_zero {w : List Token} (h : ∀ t ∈ w, t.kind ≠ .dedent) : dedents w = 0 :=
  List.countP_eq_zero.2 fun t ht => by simpa using h t ht

theorem Calm.of_append {ds es : List Diagnostic} (h : Calm (ds ++ es)) : Calm ds ∧ Calm es :=
  ⟨fun d hd => h d (List.mem_append_left es hd), fun d hd => h d (List.mem_append_right ds hd)⟩

namespace Folded

variable {w v : List Token} {ds es : List Diagnostic}

theorem append (hw : Folded w ds) (hv : Folded v es) : Folded (w ++ v) (ds ++ es) := by
  refine ⟨hw.grounded.append hv.grounded, fun hc => ?_⟩
  have h₁ := hw.balanced hc.of_append.1
  have h₂ := hv.balanced hc.of_append.2
  rw [indents_append, dedents_append]
  omega

/-- Tokens that are no marks of blocks. -/
theorem of_forall (hi : ∀ t ∈ w, t.kind ≠ .indent) (hd : ∀ t ∈ w, t.kind ≠ .dedent) : Folded w ds :=
  ⟨grounded_of_forall hd, fun _ => by rw [indents_eq_zero hi, dedents_eq_zero hd]⟩

theorem nil : Folded [] ds := of_forall (by simp) (by simp)

end Folded

/-- Lexemes and the end of a line : what readers pass outside of blocks. -/
def TokenKind.isInline (k : TokenKind) : Bool := k.isLexeme || k = .newline

theorem TokenKind.isInline_of_isLexeme {k : TokenKind} (h : k.isLexeme = true) : k.isInline = true := by
  simp [isInline, h]

theorem folded_singleton {t : Token} {ds : List Diagnostic} (h : t.kind.isInline = true) : Folded [t] ds := by
  refine .of_forall (fun u hu hk => ?_) fun u hu hk => ?_ <;>
    · obtain rfl := List.mem_singleton.1 hu
      simp [hk, TokenKind.isInline, TokenKind.isLexeme] at h

/-! ## Passing tokens -/

/-- The next token that could be read, and the diagnostics of the errors in front of it. -/
theorem exists_nextToken (source : Source) (last : Token) :
    ∀ (ts : List Token) (errors : Diagnostics), soundTokens ts ≠ [] →
      ∃ t rest, ∃ ds : List Diagnostic, nextToken source last ts errors = (t, rest, ds.foldl .push errors) ∧
        soundTokens ts = t :: soundTokens rest ∧ rest <:+ ts
  | [], _, h => absurd rfl h
  | t :: ts, errors, h => by
    rw [soundTokens_cons] at h
    rw [nextToken, soundTokens_cons]
    cases hk : t.kind with
    | error e =>
      have he : t.kind.isError = true := by rw [hk]; rfl
      have hs : source.scanError? t = some (t.complain source e.code e.message) := by
        simp [Source.scanError?, hk]
      rw [he, if_pos rfl] at h
      obtain ⟨u, rest, ds, hn, hsound, hsuffix⟩ := exists_nextToken source last ts
        (errors.push (t.complain source e.code e.message)) h
      rw [hs]
      exact ⟨u, rest, _ :: ds, hn, hsound, hsuffix.trans (List.suffix_cons t ts)⟩
    | _ =>
      have hs : source.scanError? t = none := by simp [Source.scanError?, hk]
      rw [hs]
      exact ⟨t, ts, [], rfl, rfl, List.suffix_cons t ts⟩

namespace Parser

/-- The tokens in front of a parser, the current one first. -/
def ahead (p : Parser) : List Token := p.current :: soundTokens p.upcoming

/-- From `p` to `q` the tokens `w` were passed and the diagnostics `ds` were recorded. -/
structure Passes (p : Parser) (w : List Token) (ds : List Diagnostic) (q : Parser) : Prop where
  ahead : p.ahead = w ++ q.ahead
  upcoming : q.upcoming <:+ p.upcoming
  consumed : q.consumed = p.consumed + w.length
  previous : q.previous = w.getLastD p.previous
  errors : q.errors = ds.foldl .push p.errors

namespace Passes

variable {p q r : Parser} {w v : List Token} {ds es : List Diagnostic}

theorem refl (p : Parser) : p.Passes [] [] p :=
  ⟨rfl, List.suffix_refl _, rfl, rfl, rfl⟩

theorem trans (h : p.Passes w ds q) (h' : q.Passes v es r) : p.Passes (w ++ v) (ds ++ es) r where
  ahead := by rw [h.ahead, h'.ahead, List.append_assoc]
  upcoming := h'.upcoming.trans h.upcoming
  consumed := by rw [h'.consumed, h.consumed, List.length_append, Nat.add_assoc]
  previous := by
    rw [h'.previous, h.previous]
    cases hl : v.getLast? <;> simp [List.getLastD_eq_getLast?, List.getLast?_append, hl]
  errors := by rw [h'.errors, h.errors, List.foldl_append]

/-- Where no token was passed a parser stands at the same token. -/
theorem current (h : p.Passes [] ds q) : q.current = p.current :=
  (List.cons_eq_cons.1 h.ahead).1.symm

/-- Where a token was passed there are fewer in front. -/
theorem left_lt (h : p.Passes w ds q) (hl : 1 ≤ w.length) : p.consumed < q.consumed ∧ q.left < p.left := by
  refine ⟨by rw [h.consumed]; omega, Nat.lt_of_le_of_ne h.upcoming.length_le fun heq => ?_⟩
  have hsame : q.upcoming = p.upcoming := h.upcoming.eq_of_length heq
  have ha := congrArg List.length h.ahead
  simp only [Parser.ahead, hsame, List.length_append, List.length_cons] at ha
  omega

theorem complain (p : Parser) (t : Token) (problem : Problem) :
    p.Passes [] [t.complain p.source problem.code problem.message] (p.complain t problem) :=
  ⟨rfl, List.suffix_refl _, rfl, rfl, rfl⟩

theorem leaveFunction (h : p.Passes w ds q) : p.Passes w ds q.leaveFunction := by
  unfold Parser.leaveFunction
  split
  · exact ⟨h.ahead, h.upcoming, h.consumed, h.previous, h.errors⟩
  · exact h

end Passes

/-- The tokens in front of a parser are such as follow a place in a script : they stop at the end of the text, no
lexeme stands in front of an indent, and they close the blocks that they open. -/
structure Formed (p : Parser) : Prop where
  stops : ∃ t, p.ahead.getLast? = some t ∧ t.kind = .endOfFile
  ended : p.ahead.Pairwise fun t _ => t.kind ≠ .endOfFile
  sound : ∀ t ∈ p.ahead, t.kind.isError = false
  adjacent : (p.previous :: p.ahead).IsChain Adjacent
  closes : ∀ v, v <:+ p.ahead → indents v ≤ dedents v
  quoted : ∀ t ∈ p.ahead, t.kind = .indent → t.lexeme = TokenKind.indent.text

variable {p q r : Parser} {w v : List Token} {ds es : List Diagnostic}

theorem ahead_ne_nil (p : Parser) : p.ahead ≠ [] := List.cons_ne_nil _ _

theorem current_mem_ahead (p : Parser) : p.current ∈ p.ahead := List.mem_cons_self

theorem Formed.of_passes (h : p.Formed) (hw : p.Passes w ds q) : q.Formed := by
  have hs : q.ahead <:+ p.ahead := hw.ahead ▸ List.suffix_append w q.ahead
  obtain ⟨t, ht, hk⟩ := h.stops
  refine ⟨⟨t, ?_, hk⟩, h.ended.sublist hs.sublist, fun u hu => h.sound u (hs.subset hu), ?_,
    fun v hv => h.closes v (hv.trans hs), fun u hu => h.quoted u (hs.subset hu)⟩
  · rwa [hw.ahead, List.getLast?_append_of_ne_nil _ q.ahead_ne_nil] at ht
  · rw [hw.previous]
    have hc := h.adjacent
    rw [hw.ahead] at hc
    rcases List.eq_nil_or_concat w with rfl | ⟨v, t, rfl⟩
    · exact hc
    · rw [List.concat_eq_append] at hc ⊢
      simp only [List.getLastD_eq_getLast?, List.getLast?_concat, Option.getD_some]
      refine hc.suffix ⟨p.previous :: v, ?_⟩
      simp

/-- The end of the text is the last token. -/
theorem Formed.atEnd_iff (h : p.Formed) : p.atEnd = true ↔ soundTokens p.upcoming = [] := by
  obtain ⟨t, ht, hk⟩ := h.stops
  rw [ahead] at ht
  constructor
  · intro he
    have hc : p.current.kind = .endOfFile := by simpa [atEnd] using he
    refine List.eq_nil_iff_forall_not_mem.2 fun u hu => ?_
    exact (List.pairwise_cons.1 h.ended).1 u hu hc
  · intro hn
    rw [hn] at ht
    obtain rfl : p.current = t := by simpa using ht
    simp [atEnd, hk]

theorem Formed.passes_advance (h : p.Formed) (he : p.atEnd = false) :
    ∃ ds, p.Passes [p.current] ds p.advance := by
  have hs : soundTokens p.upcoming ≠ [] := fun hn => by
    rw [h.atEnd_iff.2 hn] at he
    nomatch he
  obtain ⟨t, rest, ds, hn, hsound, hsuffix⟩ := exists_nextToken p.source p.current p.upcoming p.errors hs
  refine ⟨ds, ?_, ?_, rfl, rfl, ?_⟩
  · simp [Parser.ahead, advance, hn, hsound]
  · simpa [advance, hn] using hsuffix
  · simp [advance, hn]

theorem Formed.not_isLexeme (h : p.Formed) (hk : p.current.kind = .indent) :
    p.previous.kind.isLexeme = false :=
  (List.isChain_cons_cons.1 h.adjacent).1 hk

/-- Behind a lexeme there is no indent, and behind the end of a line recovery stops. -/
theorem Formed.newline_or_ne_indent (h : p.Formed) (hp : p.previous.kind.isInline = true) :
    p.previous.kind = .newline ∨ p.current.kind ≠ .indent := by
  simp only [TokenKind.isInline, Bool.or_eq_true, decide_eq_true_eq] at hp
  rcases hp with hl | hn
  · refine .inr fun hk => ?_
    rw [h.not_isLexeme hk] at hl
    contradiction
  · exact .inl hn

theorem isInline_of_formed (h : p.Formed) (he : p.atEnd = false) (hi : p.current.kind ≠ .indent)
    (hd : p.current.kind ≠ .dedent) : p.current.kind.isInline = true := by
  have hs := h.sound _ p.current_mem_ahead
  cases hk : p.current.kind <;>
    simp_all [TokenKind.isInline, TokenKind.isLexeme, TokenKind.isError, atEnd]

/-! ## Recovery -/

/-- The complaint with which a statement was rejected was about the current token, or the token before it was a
lexeme. -/
def Blamed (q : Parser) (ds : List Diagnostic) : Prop :=
  q.previous.kind.isLexeme = true ∨ ∃ d ∈ ds, d.lexeme = q.current.lexeme

theorem Blamed.append (hb : q.Blamed es) (ds : List Diagnostic) : q.Blamed (ds ++ es) := by
  refine hb.imp_right ?_
  rintro ⟨d, hd, hl⟩
  exact ⟨d, List.mem_append_right ds hd, hl⟩

/-- If there was no complaint about an indent, recovery does not start in front of one. -/
theorem Blamed.current_ne_indent (hb : q.Blamed ds) (h : q.Formed) (hc : Calm ds) :
    q.current.kind ≠ .indent := by
  intro hk
  rcases hb with hp | ⟨d, hd, hl⟩
  · rw [h.not_isLexeme hk] at hp
    contradiction
  · exact hc d hd (hl.trans (h.quoted _ q.current_mem_ahead hk))

/-- Synchronization passes no dedent, and no indent unless it starts in front of one. The induction goes from one
token to the next; behind a lexeme there is no indent, and behind the end of a line it stops. -/
theorem Formed.passes_synchronizeWithin : ∀ (n : Nat) {p : Parser}, p.Formed →
    ∃ v es, p.Passes v es (synchronizeWithin n p) ∧ (∀ t ∈ v, t.kind ≠ .dedent) ∧
      (p.previous.kind = .newline ∨ p.current.kind ≠ .indent → ∀ t ∈ v, t.kind ≠ .indent)
  | 0, p, _ => ⟨[], [], .refl p, by simp, by simp⟩
  | n + 1, p, h => by
    rw [synchronizeWithin]
    split
    · exact ⟨[], [], .refl p, by simp, by simp⟩
    · next hstop =>
      simp only [Bool.or_eq_true, decide_eq_true_eq, not_or, Bool.not_eq_true] at hstop
      obtain ⟨⟨he, hn⟩, hb⟩ := hstop
      have hd : p.current.kind ≠ .dedent := fun hk => by simp [hk, isBoundary] at hb
      obtain ⟨ds, hstep⟩ := h.passes_advance he
      obtain ⟨v, es, hv, hdv, hiv⟩ := passes_synchronizeWithin n (h.of_passes hstep)
      refine ⟨p.current :: v, ds ++ es, hstep.trans hv, ?_, fun hi => ?_⟩
      · exact List.forall_mem_cons.2 ⟨hd, hdv⟩
      · have hi := hi.resolve_left hn
        have hinline : p.advance.previous.kind.isInline = true := isInline_of_formed h he hi hd
        exact List.forall_mem_cons.2 ⟨hi, hiv ((h.of_passes hstep).newline_or_ne_indent hinline)⟩

/-- Recovery passes a token, and keeps what was passed folded if the statement did not start in front of a
dedent. -/
theorem Formed.passes_recover (h : p.Formed) (he : p.atEnd = false) (hq : p.Passes w ds q) :
    ∃ v es, p.Passes v es (p.recover q) ∧ 1 ≤ v.length ∧
      (p.current.kind ≠ .dedent → Folded w ds → q.Blamed ds → Folded v es) := by
  have hq' : p.Passes w ds { q with rejected := q.rejected + 1 } :=
    ⟨hq.ahead, hq.upcoming, hq.consumed, hq.previous, hq.errors⟩
  have hf := h.of_passes hq'
  simp only [recover]
  split
  · next hc =>
    -- nothing was passed, and the token that the statement starts with is passed first
    obtain rfl : w = [] := by
      have := hq.consumed
      exact List.length_eq_zero_iff.1 (by omega)
    have hcur : q.current = p.current := hq.current
    obtain ⟨es, hstep⟩ := hf.passes_advance (by simpa using hc.2)
    have hf' := hf.of_passes hstep
    obtain ⟨v, fs, hv, hdv, hiv⟩ := hf'.passes_synchronizeWithin
      ((advance { q with rejected := q.rejected + 1 }).upcoming.length + 1)
    refine ⟨_, _, (hq'.trans hstep).trans hv, by simp, fun hd hw hb => ?_⟩
    refine ⟨?_, fun hcalm => ?_⟩
    · refine (hw.grounded.append (grounded_of_forall fun t ht => ?_)).append (grounded_of_forall hdv)
      obtain rfl := List.mem_singleton.1 ht
      exact hcur ▸ hd
    · have hcur' : q.current.kind ≠ .indent :=
        Blamed.current_ne_indent hb (h.of_passes hq) hcalm.of_append.1.of_append.1
      have hinline := isInline_of_formed hf (by simpa using hc.2) hcur' (hcur ▸ hd)
      have hfold : Folded [q.current] es := folded_singleton hinline
      have hfold' : Folded v fs := .of_forall (hiv (hf'.newline_or_ne_indent hinline)) hdv
      exact ((hw.append hfold).append hfold').balanced hcalm
  · next hc =>
    obtain ⟨v, fs, hv, hdv, hiv⟩ := hf.passes_synchronizeWithin (q.upcoming.length + 1)
    refine ⟨_, _, hq'.trans hv, ?_, fun hd hw hb => ?_⟩
    · have hne : w ≠ [] := by
        rintro rfl
        refine hc ⟨hq.consumed, ?_⟩
        simpa [atEnd, hq.current] using he
      have := List.length_pos_iff.2 hne
      rw [List.length_append]
      omega
    · refine ⟨hw.grounded.append (grounded_of_forall hdv), fun hcalm => ?_⟩
      have hcur := Blamed.current_ne_indent hb (h.of_passes hq) hcalm.of_append.1
      exact (hw.append (.of_forall (hiv (.inr hcur)) hdv : Folded v fs)).balanced hcalm

end Parser

end DocScript
