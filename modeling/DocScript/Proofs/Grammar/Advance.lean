import DocScript.Proofs.Grammar.Takes

/-!
# Parsers advance

A block passes what it opens and closes (`Parse.Enclosed`), and so the statements with blocks take folded tokens
as all others do. Every statement takes a token, also if it is rejected (`Parse.item_folds`), so a script
is read to its end (`Source.parse_advances`).
-/

namespace DocScript

namespace Parse

open DocScript.Parser

/-! ## Blocks -/

/-- A colon, the end of the line, and a block with all that stands in it. Unless there was a complaint about an
indent, the block ends with the dedent that closes it. -/
def Enclosed (w : List Token) (ds : List Diagnostic) : Prop :=
  ∃ colon line indent v tail, w = colon :: line :: indent :: (v ++ tail) ∧
    (colon.kind = .symbol .colon ∧ line.kind = .newline ∧ indent.kind = .indent) ∧ Grounded v ∧
    (tail = [] ∨ ∃ t, tail = [t] ∧ t.kind = .dedent) ∧ (Calm ds → indents v = dedents v ∧ tail ≠ [])

theorem grounded_enclose {indent : Token} {v tail : List Token} (hi : indent.kind = .indent) (hv : Grounded v)
    (ht : tail = [] ∨ ∃ t, tail = [t] ∧ t.kind = .dedent) : Grounded (indent :: (v ++ tail)) := by
  have hone : ∀ u : List Token, indents (indent :: u) = indents u + 1 ∧ dedents (indent :: u) = dedents u := by
    intro u
    simp [indents, dedents, hi]
  have htail : ∀ u, u <+: tail → dedents u ≤ 1 := by
    intro u hu
    refine Nat.le_trans (List.countP_le_length) (Nat.le_trans hu.length_le ?_)
    rcases ht with rfl | ⟨t, rfl, -⟩ <;> simp
  intro u hu
  rcases List.prefix_cons_iff.1 hu with rfl | ⟨u, rfl, hu'⟩
  · exact Nat.le_refl _
  · rw [(hone u).1, (hone u).2]
    rcases List.prefix_or_prefix_of_prefix hu' (List.prefix_append v tail) with h | ⟨u', rfl⟩
    · exact Nat.le_trans (hv u h) (Nat.le_succ _)
    · have h₁ := htail u' ((List.prefix_append_right_inj v).1 hu')
      have h₂ := hv v (List.prefix_refl v)
      rw [indents_append, dedents_append]
      omega

theorem Enclosed.folded {w : List Token} {ds : List Diagnostic} (h : Enclosed w ds) : Folded w ds := by
  obtain ⟨colon, line, indent, v, tail, rfl, ⟨hc, hl, hi⟩, hv, ht, hcalm⟩ := h
  have hhead : Folded [colon, line] ds := by
    have h₁ : Folded [colon] ds := folded_singleton (by rw [hc]; rfl)
    have h₂ : Folded [line] [] := folded_singleton (by rw [hl]; rfl)
    simpa using h₁.append h₂
  refine ⟨hhead.grounded.append (grounded_enclose hi hv ht), fun hcd => ?_⟩
  obtain ⟨hb, hne⟩ := hcalm hcd
  obtain ⟨t, rfl, htk⟩ := ht.resolve_left hne
  have h₁ := hhead.balanced hcd
  have h₂ : indents (indent :: (v ++ [t])) = dedents (indent :: (v ++ [t])) := by
    simp only [indents, dedents, List.countP_cons, List.countP_append, List.countP_nil, hi, htk] at hb ⊢
    simp [hb]
  have hsplit : colon :: line :: indent :: (v ++ [t]) = [colon, line] ++ (indent :: (v ++ [t])) := rfl
  rw [hsplit, indents_append, dedents_append, h₁, h₂]

mutual

theorem statement_takes : ∀ (n : Nat) {p : Parser}, p.Formed → (statement n).Takes p 1
  | 0, _, _ => .outOfFuel
  | n + 1, p, hp => by
    rw [statement]
    refine .peekKind_bind ?_
    split
    · next hk => exact ifStmt_takes n hp (by rw [hk]; rfl)
    · next hk => exact whileStmt_takes n hp (by rw [hk]; rfl)
    · next hk => exact forStmt_takes n hp (by rw [hk]; rfl)
    · exact definition_takes n [] hp
    · exact decorated_takes n hp
    · next hk => exact tryStmt_takes n hp (by rw [hk]; rfl)
    · next hk => exact raiseStmt_takes n hp (by rw [hk]; rfl)
    · next hk => exact returnStmt_takes n hp (by rw [hk]; rfl)
    · next hk => exact loopControl_takes hp (by rw [hk]; rfl) _ _
    · next hk => exact loopControl_takes hp (by rw [hk]; rfl) _ _
    · next hk => exact declaration_takes n hp (by rw [hk]; rfl) _
    · next hk => exact declaration_takes n hp (by rw [hk]; rfl) _
    · next hk => exact declaration_takes n hp (by rw [hk]; rfl) _
    · exact .reject _
    · exact exprStmt_takes n hp

/-- A block opens with an indent and ends with the next dedent that none of its statements takes. -/
theorem block_encloses : ∀ (n : Nat) {p : Parser}, p.Formed →
    After (block n) p (fun _ q => ∃ w ds, p.Passes w ds q ∧ Enclosed w ds)
      (fun e q => e = .rejected → ∃ w ds, p.Passes w ds q ∧ Folded w ds ∧ q.Blamed ds)
  | 0, _, _ => fun he => nomatch he
  | n + 1, p, hp => by
    rw [block]
    refine (after_bind _ _).2 ((after_expect _).2 ⟨fun hc => ?_, fun _ _ => ?_⟩)
    case refine_2 => exact ⟨[], _, .complain p p.current _, .nil, Takes.blamed_complain p _⟩
    have hc' : p.current.kind.isInline = true := by rw [hc]; rfl
    obtain ⟨ds₁, h₁⟩ := hp.passes_advance (Takes.not_atEnd hc')
    have hp₁ := hp.of_passes h₁
    refine (after_bind _ _).2 ((after_expect _).2 ⟨fun hl => ?_, fun _ _ => ?_⟩)
    case refine_2 =>
      exact ⟨_, _, h₁.trans (.complain p.advance _ _), (folded_singleton hc').append .nil,
        (Takes.blamed_complain p.advance _).append ds₁⟩
    have hl' : p.advance.current.kind.isInline = true := by rw [hl]; rfl
    obtain ⟨ds₂, h₂⟩ := hp₁.passes_advance (Takes.not_atEnd hl')
    have hp₂ := hp₁.of_passes h₂
    refine (after_bind _ _).2 ((after_eat _).2 ⟨fun hi => ?_, fun _ _ => ?_⟩)
    case refine_2 =>
      exact ⟨_, _, (h₁.trans h₂).trans (.complain p.advance.advance _ _),
        ((folded_singleton hc').append (folded_singleton hl')).append .nil,
        (Takes.blamed_complain p.advance.advance _).append (ds₁ ++ ds₂)⟩
    obtain ⟨ds₃, h₃⟩ := hp₂.passes_advance (atEnd_eq_false hi nofun)
    have hp₃ := hp₂.of_passes h₃
    refine After.bind (After.mono (blockStmts_folds n hp₃) (fun _ _ => id) fun e q he => ?_) fun ss q hq => ?_
    · rintro rfl
      nomatch he
    obtain ⟨v, es, hv, hf, hend⟩ := hq
    have hpass := ((h₁.trans h₂).trans h₃).trans hv
    refine (after_bind _ _).2 ((after_peek).2 ((after_bind _ _).2 ((after_eat _).2 ⟨fun hd => ?_, fun hd => ?_⟩)))
    · obtain ⟨fs, h₅⟩ := (hp₃.of_passes hv).passes_advance (atEnd_eq_false hd nofun)
      refine ⟨_, _, hpass.trans h₅, _, _, _, v, [q.current], rfl, ⟨hc, hl, hi⟩, hf.grounded,
        .inr ⟨_, rfl, hd⟩, fun hcalm => ⟨hf.balanced hcalm.of_append.1.of_append.2, by simp⟩⟩
    · -- at the end of the text the tokens in front of the block have closed all that they open
      refine ⟨_, _, hpass, _, _, _, v, [], by simp, ⟨hc, hl, hi⟩, hf.grounded, .inl rfl, fun hcalm => ?_⟩
      have hb := hf.balanced hcalm.of_append.2
      have hcl := hp₂.closes _ (List.suffix_refl _)
      have hq : soundTokens q.upcoming = [] := (hp₃.of_passes hv).atEnd_iff.1 (hend.resolve_left hd)
      have hqk : q.current.kind = .endOfFile := by simpa [Parser.atEnd] using hend.resolve_left hd
      rw [h₃.ahead, hv.ahead, Parser.ahead, hq] at hcl
      simp only [indents, dedents, List.countP_append, List.countP_cons, List.countP_nil, hi, hqk] at hcl hb
      simp at hcl
      omega

theorem block_takes : ∀ (n : Nat) {p : Parser}, p.Formed → (block n).Takes p 1
  | n, p, hp => by
    refine After.mono (block_encloses n hp) (fun _ q hq => ?_) fun _ _ => id
    obtain ⟨w, ds, hw, he⟩ := hq
    refine ⟨w, ds, hw, ?_, he.folded⟩
    obtain ⟨_, _, _, _, _, rfl, -⟩ := he
    simp

/-- The statements of a block end in front of a dedent, or at the end of the text. -/
theorem blockStmts_folds : ∀ (n : Nat) {p : Parser}, p.Formed →
    After (blockStmts n) p
      (fun _ q => ∃ w ds, p.Passes w ds q ∧ Folded w ds ∧ (q.current.kind = .dedent ∨ q.atEnd = true))
      (fun e _ => e = .outOfFuel)
  | 0, _, _ => rfl
  | n + 1, p, hp => by
    rw [blockStmts]
    refine (after_bind _ _).2 ((after_at? _).2 ((after_bind _ _).2 (after_atEnd.2 ?_)))
    split
    · next h => exact ⟨[], [], .refl p, .nil, by simpa using h⟩
    · next h =>
      simp only [Bool.or_eq_true, decide_eq_true_eq, not_or, Bool.not_eq_true] at h
      obtain ⟨hd, he⟩ := h
      refine (after_bind _ _).2 ((after_eat _).2 ⟨fun hn => ?_, fun _ => ?_⟩)
      · have hk : p.current.kind.isInline = true := by rw [hn]; rfl
        obtain ⟨ds, hstep⟩ := hp.passes_advance he
        refine After.mono (blockStmts_folds n (hp.of_passes hstep)) (fun _ q hq => ?_) fun _ _ => id
        obtain ⟨v, es, hv, hf, hend⟩ := hq
        exact ⟨_, _, hstep.trans hv, (folded_singleton hk).append hf, hend⟩
      · refine After.bind (After.mono (item_folds n hp he) (fun _ _ => id) fun _ _ => id) fun s q hq => ?_
        obtain ⟨w, ds, hw, -, hf⟩ := hq
        refine After.bind (After.mono (blockStmts_folds n (hp.of_passes hw)) (fun _ _ => id) fun _ _ => id)
          fun ss r hr => ?_
        obtain ⟨v, es, hv, hfv, hend⟩ := hr
        exact ⟨_, _, hw.trans hv, (hf hd).append hfv, hend⟩

/-- A statement, read or rejected, passes at least one token. -/
theorem item_folds : ∀ (n : Nat) {p : Parser}, p.Formed → p.atEnd = false →
    After (item n) p
      (fun _ q => ∃ w ds, p.Passes w ds q ∧ 1 ≤ w.length ∧ (p.current.kind ≠ .dedent → Folded w ds))
      (fun e _ => e = .outOfFuel)
  | 0, _, _, _ => rfl
  | n + 1, p, hp, he => by
    rw [item]
    have h : (do
        if ← eat (.keyword .pass) then
          lineEnd
          return none
        else
          let s ← statement n
          return some s : Parse (Option (Stmt Span))).Takes p 1 := by
      refine .eat_bind hp rfl (fun q hq => ?_) ?_
      · exact .bind hq (.lineEnd hq) fun _ r hr => .pure none
      · exact .bind hp (statement_takes n hp) fun s r hr => .pure (some s)
    refine (after_recovering _).2 (After.mono h (fun _ q hq => ?_) fun e q hq => ?_)
    · obtain ⟨w, ds, hw, hl, hf⟩ := hq
      exact ⟨w, ds, hw, hl, fun _ => hf⟩
    · cases e with
      | outOfFuel => rfl
      | rejected =>
        obtain ⟨w, ds, hw, hf, hb⟩ := hq rfl
        obtain ⟨v, es, hv, hl, hfv⟩ := hp.passes_recover he hw
        exact ⟨v, es, hv, hl, fun hd => hfv hd hf hb⟩

theorem ifStmt_takes : ∀ (n : Nat) {p : Parser}, p.Formed → p.current.kind.isInline = true →
    (ifStmt n).Takes p 1
  | 0, _, _, _ => .outOfFuel
  | n + 1, p, hp, hk => by
    rw [ifStmt]
    refine .advance_bind hp hk fun q hq _ => .bind hq (expression_takes n hq) fun cond r hr => ?_
    refine .bind hr (block_takes n hr) fun yes s hs => ?_
    exact .bind hs (elsePart_takes n _ hs) fun no t ht => .pure _

theorem elsePart_takes : ∀ (n line : Nat) {p : Parser}, p.Formed → (elsePart n line).Takes p 0
  | 0, _, _, _ => .outOfFuel
  | n + 1, line, p, hp => by
    rw [elsePart]
    refine .at?_bind ?_
    split
    · next hk =>
      have hk' : p.current.kind = .keyword .elif := by simpa using hk
      exact .bind hp (ifStmt_takes n hp (by rw [hk']; rfl)) fun s q hq => .pure _
    · exact .eat_bind hp rfl (fun q hq => (block_takes n hq).weaken (Nat.zero_le 1)) (.pure _)

theorem whileStmt_takes : ∀ (n : Nat) {p : Parser}, p.Formed → p.current.kind.isInline = true →
    (whileStmt n).Takes p 1
  | 0, _, _, _ => .outOfFuel
  | n + 1, p, hp, hk => by
    rw [whileStmt]
    refine .advance_bind hp hk fun q hq _ => .bind hq (expression_takes n hq) fun cond r hr => ?_
    exact .bind hr (.inLoop hr fun s hs => block_takes n hs) fun b s hs => .pure _

theorem forStmt_takes : ∀ (n : Nat) {p : Parser}, p.Formed → p.current.kind.isInline = true →
    (forStmt n).Takes p 1
  | 0, _, _, _ => .outOfFuel
  | n + 1, p, hp, hk => by
    rw [forStmt]
    refine .advance_bind hp hk fun q hq _ => .bind hq (loopVariables_takes n hq) fun vars r hr => ?_
    refine .expect_bind hr rfl fun _ s hs _ => .bind hs (expression_takes n hs) fun iterable t ht => ?_
    exact .bind ht (.inLoop ht fun u hu => block_takes n hu) fun b u hu => .pure _

theorem definition_takes : ∀ (n : Nat) (ds : List (Expr Span)) {p : Parser}, p.Formed →
    (definition n ds).Takes p 1
  | 0, _, _, _ => .outOfFuel
  | n + 1, ds, p, hp => by
    rw [definition]
    refine .expect_bind hp rfl fun start q hq _ => .identifier_bind hq fun x r hr _ => ?_
    refine .resolve_bind hr fun target s hs _ => .expect_bind hs rfl fun _ t ht _ => ?_
    refine .bind ht (params_takes n ht) fun ps u hu => .expect_bind hu rfl fun _ v hv _ => ?_
    exact .bind hv (.inFunction hv ps fun q hq => block_takes n hq) fun b q hq => .pure _

theorem decorated_takes : ∀ (n : Nat) {p : Parser}, p.Formed → (decorated n).Takes p 1
  | 0, _, _ => .outOfFuel
  | n + 1, p, hp => by
    rw [decorated]
    refine .bind hp (decorators_takes n hp) fun ds q hq => .at?_bind ?_
    split
    · exact definition_takes n ds hq
    · exact .reject _

theorem tryStmt_takes : ∀ (n : Nat) {p : Parser}, p.Formed → p.current.kind.isInline = true →
    (tryStmt n).Takes p 1
  | 0, _, _, _ => .outOfFuel
  | n + 1, p, hp, hk => by
    rw [tryStmt]
    refine .advance_bind hp hk fun q hq _ => .bind hq (block_takes n hq) fun b r hr => ?_
    refine .bind hr (handler_takes n hr) fun h s hs => .bind hs (cleanup_takes n hs) fun c t ht => ?_
    dsimp only
    split
    · exact .reject_bind _
    · exact .pure _

theorem handler_takes : ∀ (n : Nat) {p : Parser}, p.Formed → (handler n).Takes p 0
  | 0, _, _ => .outOfFuel
  | n + 1, p, hp => by
    rw [handler]
    refine .eat_bind hp rfl (fun q hq => ?_) (.pure none)
    refine .bind hq (handlerBinding_takes hq) fun v r hr => ?_
    exact .bind hr (block_takes n hr) fun b s hs => .pure _

theorem cleanup_takes : ∀ (n : Nat) {p : Parser}, p.Formed → (cleanup n).Takes p 0
  | 0, _, _ => .outOfFuel
  | n + 1, p, hp => by
    rw [cleanup]
    refine .eat_bind hp rfl (fun q hq => ?_) (.pure none)
    exact .bind hq (block_takes n hq) fun b r hr => .pure (some b)

end

/-! ## Programs -/

/-- Reading a program passes all tokens in front of the end of the text. -/
theorem program_passes : ∀ (n : Nat) {p : Parser}, p.Formed →
    After (program n) p (fun _ q => q.atEnd = true ∧ ∃ w ds, p.Passes w ds q) (fun e _ => e = .outOfFuel)
  | 0, _, _ => rfl
  | n + 1, p, hp => by
    have step : p.atEnd = false →
        After (program n) p.advance (fun _ q => q.atEnd = true ∧ ∃ w ds, p.Passes w ds q)
          (fun e _ => e = .outOfFuel) := by
      intro he
      obtain ⟨ds, hstep⟩ := hp.passes_advance he
      refine After.mono (program_passes n (hp.of_passes hstep)) (fun _ q hq => ?_) fun _ _ => id
      obtain ⟨hend, v, es, hv⟩ := hq
      exact ⟨hend, _, _, hstep.trans hv⟩
    rw [program]
    refine (after_bind _ _).2 (after_atEnd.2 ?_)
    split
    · next he => exact ⟨he, [], [], .refl p⟩
    · next he =>
      have he : p.atEnd = false := by simpa using he
      refine (after_bind _ _).2 ((after_eat _).2 ⟨fun _ => step he, fun _ => ?_⟩)
      refine (after_bind _ _).2 ((after_eat _).2 ⟨fun _ => step he, fun _ => ?_⟩)
      refine After.bind (After.mono (item_folds n hp he) (fun _ _ => id) fun _ _ => id) fun s q hq => ?_
      obtain ⟨w, ds, hw, -⟩ := hq
      refine After.bind (After.mono (program_passes n (hp.of_passes hw)) (fun _ _ => id) fun _ _ => id)
        fun ss r hr => ?_
      obtain ⟨hend, v, es, hv⟩ := hr
      exact ⟨hend, _, _, hw.trans hv⟩

end Parse

/-! ## Scripts -/

theorem Parser.ahead_start (s : Source) : (Parser.start s s.tokens).ahead = soundTokens s.tokens := by
  obtain ⟨t, ht, hk⟩ := s.getLast?_tokens
  have hne : soundTokens s.tokens ≠ [] := List.ne_nil_of_mem
    (List.mem_filter.2 ⟨List.mem_of_getLast? ht, by simp [hk, TokenKind.isError]⟩)
  obtain ⟨u, rest, ds, hn, hs, -⟩ := exists_nextToken s (.mark .endOfFile .start) s.tokens .empty hne
  simp [Parser.ahead, Parser.start, hn, hs]

theorem Parser.formed_start (s : Source) : (Parser.start s s.tokens).Formed := by
  obtain ⟨t, ht, hk⟩ := s.getLast?_tokens
  have hp := Parser.ahead_start s
  refine ⟨⟨t, ?_, hk⟩, ?_, ?_, ?_, ?_, ?_⟩ <;> rw [hp]
  · rw [soundTokens, ← List.head?_reverse, ← List.filter_reverse, List.head?_filter]
    rw [← List.head?_reverse] at ht
    obtain ⟨rest, hr⟩ := List.head?_eq_some_iff.1 ht
    simp [hr, hk, TokenKind.isError]
  · exact s.pairwise_tokens.filter _
  · exact fun u hu => isError_of_mem_soundTokens hu
  · exact s.adjacent_sound rfl
  · exact fun v hv => s.closes_sound hv
  · exact fun u hu hi => Source.lexeme_of_indent (mem_of_mem_soundTokens hu) hi

/-- `p` stands in front of some token of the script `s`. -/
def Source.Reaches (s : Source) (p : Parser) : Prop := ∃ w ds, (Parser.start s s.tokens).Passes w ds p

namespace Source.Reaches

variable {s : Source} {p q : Parser}

theorem start (s : Source) : s.Reaches (.start s s.tokens) := ⟨[], [], .refl _⟩

theorem passes {w : List Token} {ds : List Diagnostic} (h : s.Reaches p) (hw : p.Passes w ds q) : s.Reaches q := by
  obtain ⟨v, es, hv⟩ := h
  exact ⟨_, _, hv.trans hw⟩

theorem formed (h : s.Reaches p) : p.Formed := by
  obtain ⟨w, ds, hw⟩ := h
  exact (Parser.formed_start s).of_passes hw

theorem closed (h : s.Reaches p) : p.Closed := by
  obtain ⟨t, ht, hk⟩ := Parser.closed_start s
  obtain ⟨u, hu, hku⟩ := h.formed.stops
  obtain ⟨w, ds, hw⟩ := h
  by_cases hn : p.upcoming = []
  · refine ⟨u, ?_, hku⟩
    simpa [Parser.ahead, hn, soundTokens] using hu
  · obtain ⟨vs, hvs⟩ := hw.upcoming
    have hne : (Parser.start s s.tokens).upcoming ≠ [] := by simp [← hvs, hn]
    refine ⟨t, ?_, hk⟩
    obtain ⟨a, as, ha⟩ := List.exists_cons_of_ne_nil hn
    obtain ⟨b, bs, hb⟩ := List.exists_cons_of_ne_nil hne
    rw [hb, List.getLast?_cons_cons, ← hb, ← hvs, List.getLast?_append_of_ne_nil _ hn] at ht
    rwa [ha, List.getLast?_cons_cons, ← ha]

/-- At the end of the text nothing is left. -/
theorem upcoming_of_atEnd (h : s.Reaches p) (he : p.atEnd = true) : p.upcoming = [] := by
  obtain ⟨t, ht, hk⟩ := h.closed
  have hs := h.formed.atEnd_iff.1 he
  by_contra hn
  obtain ⟨a, as, ha⟩ := List.exists_cons_of_ne_nil hn
  rw [ha, List.getLast?_cons_cons, ← ha] at ht
  have hm : t ∈ soundTokens p.upcoming :=
    List.mem_filter.2 ⟨List.mem_of_getLast? ht, by simp [hk, TokenKind.isError]⟩
  rw [hs] at hm
  exact List.not_mem_nil hm

end Source.Reaches

/-- A reader that moves on with enough fuel runs out of it only with less. -/
theorem Parse.fuel_lt_of_moves {β : Type} {x : Parse β} {p : Parser} {k m n : Nat} (h : m ≤ n → x.Moves p k) :
    After x p (fun _ _ => True) (fun e _ => e = .outOfFuel → n < m) := by
  by_cases hn : m ≤ n
  · refine After.mono (h hn) (fun _ _ _ => trivial) fun e q hq he => ?_
    rw [he] at hq
    nomatch hq.1
  · unfold After
    split
    · trivial
    · exact fun _ => Nat.lt_of_not_le hn

/-- Reading a script comes to its end. With eight units of fuel for each token it gives a program and stands at the
end of the text, and it has counted every token in front of the end that could be read. Wherever in a script a
statement is read, and not at its end, at least one token is taken, also if the statement is rejected; an
expression that is read has taken at least one. Neither runs out of fuel if it has eight units for each token
in front of it. -/
theorem Source.parse_advances (s : Source) :
    (∀ n, parseFuel s.tokens.length ≤ n → ∃ r q w t, Parse.program n (.start s s.tokens) = .ok r q ∧
      (n = parseFuel s.tokens.length → r = s.parse.program) ∧ soundTokens s.tokens = w ++ [t] ∧
      t.kind = .endOfFile ∧ q.current = t ∧ q.upcoming = [] ∧ q.consumed = w.length) ∧
    (∀ n p, s.Reaches p → p.atEnd = false →
      After (Parse.item n) p (fun _ q => s.Reaches q ∧ p.consumed < q.consumed ∧ q.left < p.left)
        (fun e _ => e = .outOfFuel ∧ n < parseFuel p.left)) ∧
    ∀ n p, s.Reaches p →
      After (Parse.expression n) p (fun _ q => s.Reaches q ∧ p.consumed < q.consumed ∧ q.left < p.left)
        (fun e _ => e = .outOfFuel → n < parseFuel p.left) := by
  refine ⟨fun n hn => ?_, fun n p hp he => ?_, fun n p hp => ?_⟩
  · have hl := Parser.left_start_lt s
    have hfuel : After (Parse.program n) (.start s s.tokens) (fun _ _ => True) _ :=
      Parse.fuel_lt_of_moves fun hm : parseFuel s.tokens.length ≤ n =>
        Parse.program_moves n (Parser.closed_start s) (by unfold parseFuel at hm; omega)
    have hpass := hfuel.and (Parse.program_passes n (Parser.formed_start s))
    cases h : Parse.program n (.start s s.tokens) with
    | error e q =>
      rw [after_of_error h] at hpass
      exact absurd (hpass.1 hpass.2) (Nat.not_lt.2 hn)
    | ok r q =>
      rw [after_of_ok h] at hpass
      obtain ⟨-, hend, w, ds, hw⟩ := hpass
      have hup := Source.Reaches.upcoming_of_atEnd ⟨w, ds, hw⟩ hend
      have hahead := hw.ahead
      rw [Parser.ahead_start, Parser.ahead, hup] at hahead
      refine ⟨r, q, w, q.current, rfl, fun hf => ?_, hahead, by simpa [Parser.atEnd] using hend, rfl, hup, ?_⟩
      · subst hf
        simp [Source.parse, h]
      · rw [hw.consumed]
        exact Nat.zero_add _
  · have hfuel : After (Parse.item n) p (fun _ _ => True) _ :=
      Parse.fuel_lt_of_moves fun hm : parseFuel p.left ≤ n =>
        Parse.item_moves n hp.closed he (by unfold parseFuel at hm; omega)
    refine (hfuel.and (Parse.item_folds n hp.formed he)).mono (fun _ q hq => ?_) fun e q hq => ⟨hq.2, hq.1 hq.2⟩
    obtain ⟨-, w, ds, hw, hl, -⟩ := hq
    exact ⟨hp.passes hw, hw.left_lt hl⟩
  · have hfuel : After (Parse.expression n) p (fun _ _ => True) _ :=
      Parse.fuel_lt_of_moves fun hm : parseFuel p.left ≤ n =>
        Parse.expression_moves n hp.closed (by unfold parseFuel at hm; omega)
    refine (hfuel.and (Parse.expression_takes n hp.formed)).mono (fun _ q hq => ?_) fun e q hq => hq.1
    obtain ⟨-, w, ds, hw, hl, -⟩ := hq
    exact ⟨hp.passes hw, hw.left_lt hl⟩

end DocScript
