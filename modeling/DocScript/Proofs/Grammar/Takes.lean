import DocScript.Proofs.Grammar.Passage

/-!
# What readers take

A reader that succeeds or is rejected has passed folded tokens, whatever its bound on the recursion is, and one that
succeeds has passed as many as its grammar asks for : this is `Parse.Takes`. It is shown here for the steps that
readers are made of, for expressions, and for the statements that have no block.
-/

namespace DocScript

/-! ## Basic readers -/

namespace Parse

open DocScript.Parser

variable {β γ : Type}

/-- `x`, run from `p`, passes folded tokens, at least `k` of them if it succeeds. If it is rejected, the complaint is
about the current token, or the token before is a lexeme. -/
def Takes (x : Parse β) (p : Parser) (k : Nat) : Prop :=
  After x p (fun _ q => ∃ w ds, p.Passes w ds q ∧ k ≤ w.length ∧ Folded w ds)
    (fun e q => e = .rejected → ∃ w ds, p.Passes w ds q ∧ Folded w ds ∧ q.Blamed ds)

namespace Takes

variable {x : Parse β} {f : β → Parse γ} {p : Parser} {j k : Nat}

/-- What was passed first, and then a reader that starts behind it. -/
theorem of_passes {q : Parser} {w : List Token} {ds : List Diagnostic} {x : Parse β} (hw : p.Passes w ds q)
    (hf : Folded w ds) (h : x.Takes q j) (hk : k ≤ w.length + j) :
    After x q (fun _ r => ∃ w ds, p.Passes w ds r ∧ k ≤ w.length ∧ Folded w ds)
      (fun e r => e = .rejected → ∃ w ds, p.Passes w ds r ∧ Folded w ds ∧ r.Blamed ds) := by
  refine After.mono h (fun _ r hr => ?_) fun e r hr he => ?_
  · obtain ⟨v, es, hv, hl, hfv⟩ := hr
    exact ⟨w ++ v, ds ++ es, hw.trans hv, by rw [List.length_append]; omega, hf.append hfv⟩
  · obtain ⟨v, es, hv, hfv, hb⟩ := hr he
    exact ⟨w ++ v, ds ++ es, hw.trans hv, hf.append hfv, hb.append ds⟩

theorem bind (hp : p.Formed) (h : x.Takes p k) (hf : ∀ b q, q.Formed → (f b).Takes q (j - k)) :
    (x >>= f).Takes p j := by
  refine After.bind (After.mono h (fun _ _ => id) fun e q hq he => hq he) fun b q hq => ?_
  obtain ⟨w, ds, hw, hl, hfold⟩ := hq
  exact of_passes hw hfold (hf b q (hp.of_passes hw)) (by omega)

theorem outOfFuel : (Parse.outOfFuel : Parse β).Takes p k :=
  fun he => nomatch he

theorem pure (b : β) : (Pure.pure b : Parse β).Takes p 0 :=
  ⟨[], [], .refl p, Nat.le_refl _, .nil⟩

theorem weaken (h : x.Takes p k) (hj : j ≤ k) : x.Takes p j := by
  refine After.mono h (fun _ q hq => ?_) fun _ _ => id
  obtain ⟨w, ds, hw, hl, hf⟩ := hq
  exact ⟨w, ds, hw, by omega, hf⟩

/-- A complaint about the current token. -/
theorem blamed_complain (p : Parser) (problem : Problem) :
    (p.complain p.current problem).Blamed [p.current.complain p.source problem.code problem.message] :=
  .inr ⟨_, List.mem_singleton_self _, rfl⟩

theorem reject_bind (problem : Problem) : (Parse.reject problem >>= f).Takes p k :=
  fun _ => ⟨[], _, .complain p p.current problem, .nil, blamed_complain p problem⟩

theorem reject (problem : Problem) : (Parse.reject problem : Parse β).Takes p k :=
  fun _ => ⟨[], _, .complain p p.current problem, .nil, blamed_complain p problem⟩

theorem rejectAt_bind (hp : p.previous.kind.isLexeme = true) (t : Token) (problem : Problem) :
    (Parse.rejectAt t problem >>= f).Takes p k :=
  fun _ => ⟨[], _, .complain p t problem, .nil, .inl hp⟩

theorem rejectPrevious_bind (hp : p.previous.kind.isLexeme = true) (problem : Problem) :
    (Parse.rejectPrevious problem >>= f).Takes p k :=
  fun _ => ⟨[], _, .complain p p.previous problem, .nil, .inl hp⟩

theorem not_atEnd (h : p.current.kind.isInline = true) : p.atEnd = false :=
  atEnd_eq_false rfl fun hk => by simp [hk, TokenKind.isInline, TokenKind.isLexeme] at h

/-- A token that is no mark of a block is taken, and is the one before the current token then. -/
theorem advance_bind (hp : p.Formed) {f : Token → Parse γ} (hk : p.current.kind.isInline = true)
    (hf : ∀ q, q.Formed → q.previous = p.current → (f p.current).Takes q (k - 1)) :
    (Parse.advance >>= f).Takes p k := by
  obtain ⟨ds, hstep⟩ := hp.passes_advance (not_atEnd hk)
  refine (after_bind _ _).2 (after_advance.2 ?_)
  exact of_passes hstep (folded_singleton hk) (hf p.advance (hp.of_passes hstep) rfl) (by simp; omega)

theorem eat_bind (hp : p.Formed) {kind : TokenKind} {f : Bool → Parse γ} (hk : kind.isInline = true)
    (ht : ∀ q, q.Formed → (f true).Takes q (k - 1)) (hf : (f false).Takes p k) :
    (eat kind >>= f).Takes p k := by
  refine (after_bind _ _).2 ((after_eat kind).2 ⟨fun hc => ?_, fun _ => hf⟩)
  have hk' : p.current.kind.isInline = true := hc ▸ hk
  obtain ⟨ds, hstep⟩ := hp.passes_advance (not_atEnd hk')
  exact of_passes hstep (folded_singleton hk') (ht p.advance (hp.of_passes hstep)) (by simp; omega)

theorem expect_bind (hp : p.Formed) {kind : TokenKind} {f : Token → Parse γ} (hk : kind.isInline = true)
    (hf : ∀ t q, q.Formed → q.previous.kind = kind → (f t).Takes q (k - 1)) :
    (Parse.expect kind >>= f).Takes p k := by
  refine (after_bind _ _).2 ((after_expect kind).2 ⟨fun hc => ?_, fun _ => ?_⟩)
  · have hk' : p.current.kind.isInline = true := hc ▸ hk
    obtain ⟨ds, hstep⟩ := hp.passes_advance (not_atEnd hk')
    exact of_passes hstep (folded_singleton hk') (hf _ p.advance (hp.of_passes hstep) hc) (by simp; omega)
  · exact fun _ => ⟨[], _, .complain p p.current _, .nil, blamed_complain p _⟩

theorem identifier_bind (hp : p.Formed) {f : String × Span → Parse γ}
    (hf : ∀ x q, q.Formed → q.previous.kind.isLexeme = true → (f x).Takes q (k - 1)) :
    (Parse.identifier >>= f).Takes p k := by
  refine (after_bind _ _).2 (after_identifier.2 ⟨fun name hc => ?_, fun _ => ?_⟩)
  · have hl : p.current.kind.isLexeme = true := by rw [hc]; rfl
    have hk' := TokenKind.isInline_of_isLexeme hl
    obtain ⟨ds, hstep⟩ := hp.passes_advance (not_atEnd hk')
    exact of_passes hstep (folded_singleton hk') (hf _ p.advance (hp.of_passes hstep) hl) (by simp; omega)
  · exact fun _ => ⟨[], _, .complain p p.current _, .nil, blamed_complain p _⟩

theorem lineEnd (hp : p.Formed) : Parse.lineEnd.Takes p 0 := by
  refine after_lineEnd.2 ⟨fun hc => ?_, fun _ _ => ⟨[], [], .refl p, Nat.le_refl _, .nil⟩, fun _ _ _ => ?_⟩
  · have hk : p.current.kind.isInline = true := by rw [hc]; rfl
    obtain ⟨ds, hstep⟩ := hp.passes_advance (not_atEnd hk)
    exact ⟨_, _, hstep, Nat.zero_le _, folded_singleton hk⟩
  · exact ⟨[], _, .complain p p.current _, .nil, blamed_complain p _⟩

theorem peek_bind {f : Token → Parse γ} (h : (f p.current).Takes p k) : (peek >>= f).Takes p k :=
  h

theorem peekKind_bind {f : TokenKind → Parse γ} (h : (f p.current.kind).Takes p k) :
    (peekKind >>= f).Takes p k :=
  h

theorem previous_bind {f : Token → Parse γ} (h : (f p.previous).Takes p k) : (previous >>= f).Takes p k :=
  h

theorem body_bind {f : Body → Parse γ} (h : (f p.body).Takes p k) : (body >>= f).Takes p k :=
  h

theorem at?_bind {kind : TokenKind} {f : Bool → Parse γ} (h : (f (p.current.kind = kind)).Takes p k) :
    (at? kind >>= f).Takes p k :=
  h

theorem atEnd_bind {f : Bool → Parse γ} (h : (f p.atEnd).Takes p k) : (atEnd >>= f).Takes p k :=
  h

/-- Names are recorded in the body, and the parser stays where it is. -/
theorem resolve_bind (hp : p.Formed) {name : String} {f : Variable → Parse γ}
    (hf : ∀ v q, q.Formed → q.current = p.current → (f v).Takes q k) : (resolve name >>= f).Takes p k := by
  have hstep : p.Passes [] [] { p with body := p.body.refer name } :=
    ⟨rfl, List.suffix_refl _, rfl, rfl, rfl⟩
  refine (after_bind _ _).2 ((after_resolve name).2 ?_)
  exact of_passes hstep .nil (hf _ { p with body := p.body.refer name } (hp.of_passes hstep) rfl) (by simp)

theorem declare_bind (hp : p.Formed) (hl : p.previous.kind.isLexeme = true) {name : String} {scope : Scope}
    {t : Token} {f : Unit → Parse γ} (hf : ∀ q, q.Formed → (f ()).Takes q k) :
    (declare name scope t >>= f).Takes p k := by
  refine (after_bind _ _).2 ((after_declare name scope t).2 ⟨fun _ => ?_, fun problem _ _ => ?_⟩)
  · have hstep : p.Passes [] [] { p with body := p.body.declare name scope } :=
      ⟨rfl, List.suffix_refl _, rfl, rfl, rfl⟩
    exact of_passes hstep .nil (hf _ (hp.of_passes hstep)) (by simp)
  · exact ⟨[], _, .complain p t problem, .nil, .inl hl⟩

theorem inFunction (hp : p.Formed) (params : List String) (h : ∀ q, q.Formed → x.Takes q k) :
    (Parse.inFunction params x).Takes p k := by
  have hstep : p.Passes [] [] (p.enterFunction params) := ⟨rfl, List.suffix_refl _, rfl, rfl, rfl⟩
  have hx := of_passes hstep .nil (h _ (hp.of_passes hstep)) (k := k) (by simp)
  refine (after_inFunction params x).2 (After.mono hx (fun _ q hq => ?_) fun e q hq he => ?_)
  · obtain ⟨w, ds, hw, hl, hf⟩ := hq
    exact ⟨w, ds, hw.leaveFunction, hl, hf⟩
  · obtain ⟨w, ds, hw, hf, hb⟩ := hq he
    refine ⟨w, ds, hw.leaveFunction, hf, ?_⟩
    unfold Parser.leaveFunction
    split <;> exact hb

theorem inLoop (hp : p.Formed) (h : ∀ q, q.Formed → x.Takes q k) : (Parse.inLoop x).Takes p k := by
  have hstep : p.Passes [] [] p.enterLoop := ⟨rfl, List.suffix_refl _, rfl, rfl, rfl⟩
  have hx := of_passes hstep .nil (h _ (hp.of_passes hstep)) (k := k) (by simp)
  refine (after_inLoop x).2 (After.mono hx (fun _ q hq => ?_) fun e q hq he => ?_)
  · obtain ⟨w, ds, hw, hl, hf⟩ := hq
    exact ⟨w, ds, ⟨hw.ahead, hw.upcoming, hw.consumed, hw.previous, hw.errors⟩, hl, hf⟩
  · obtain ⟨w, ds, hw, hf, hb⟩ := hq he
    exact ⟨w, ds, ⟨hw.ahead, hw.upcoming, hw.consumed, hw.previous, hw.errors⟩, hf, hb⟩

end Takes

/-! ## Expressions -/

theorem params_takes {close : TokenKind} :
    ∀ (n : Nat) {p : Parser}, p.Formed → (params close n).Takes p 0
  | 0, _, _ => .outOfFuel
  | n + 1, p, hp => by
    rw [params]
    refine .at?_bind ?_
    split
    · exact .pure []
    · refine .identifier_bind hp fun x q hq _ => ?_
      refine .eat_bind hq rfl (fun r hr => ?_) (.pure [x.1])
      exact .bind hr (params_takes n hr) fun ps s _ => .pure (x.1 :: ps)

theorem nameKey_takes {p : Parser} (hp : p.Formed) : nameKey.Takes p 1 :=
  .identifier_bind hp fun _ _ _ _ => .pure _

theorem isInline_of_binary {k : TokenKind} {op : BinaryOp} (h : BinaryOp.ofToken? k = some op) :
    k.isInline = true := by
  cases k <;> simp_all [BinaryOp.ofToken?, TokenKind.isInline, TokenKind.isLexeme]

theorem isInline_of_unary {k : TokenKind} {op : UnaryOp} (h : UnaryOp.ofToken? k = some op) :
    k.isInline = true := by
  cases k <;> simp_all [UnaryOp.ofToken?, TokenKind.isInline, TokenKind.isLexeme]

mutual

theorem expression_takes : ∀ (n : Nat) {p : Parser}, p.Formed → (expression n).Takes p 1
  | 0, _, _ => .outOfFuel
  | n + 1, _, hp => operation_takes n 0 hp

theorem operation_takes : ∀ (n min : Nat) {p : Parser}, p.Formed → (operation n min).Takes p 1
  | 0, _, _, _ => .outOfFuel
  | n + 1, min, p, hp => by
    rw [operation]
    exact .bind hp (unary_takes n hp) fun left q hq => operators_takes n min left hq

theorem operators_takes : ∀ (n min : Nat) (left : Expr Span) {p : Parser}, p.Formed →
    (operators n min left).Takes p 0
  | 0, _, _, _, _ => .outOfFuel
  | n + 1, min, left, p, hp => by
    rw [operators]
    refine .peekKind_bind ?_
    split
    · exact .pure left
    · next op hop =>
      split
      · exact .pure left
      · refine .advance_bind hp (isInline_of_binary hop) fun q hq _ => ?_
        refine .bind hq (operation_takes n _ hq) fun right r hr => ?_
        exact operators_takes n min _ hr

theorem unary_takes : ∀ (n : Nat) {p : Parser}, p.Formed → (unary n).Takes p 1
  | 0, _, _ => .outOfFuel
  | n + 1, p, hp => by
    rw [unary]
    refine .peek_bind ?_
    split
    · next op hop =>
      refine .advance_bind hp (isInline_of_unary hop) fun q hq _ => ?_
      exact .bind hq (unary_takes n hq) fun e r hr => .pure _
    · split
      · next hk => exact lambda_takes n hp (by rw [hk]; rfl)
      · exact .bind hp (primary_takes n hp) fun e q hq => postfixes_takes n e hq

theorem lambda_takes : ∀ (n : Nat) {p : Parser}, p.Formed → p.current.kind.isInline = true →
    (lambda n).Takes p 1
  | 0, _, _, _ => .outOfFuel
  | n + 1, p, hp, hk => by
    rw [lambda]
    refine .advance_bind hp hk fun q hq _ => ?_
    refine .bind hq (params_takes n hq) fun ps r hr => .expect_bind hr rfl fun _ s hs _ => ?_
    refine .bind hs (.inFunction hs ps fun t ht => expression_takes n ht) ?_
    exact fun e t ht => .pure _

theorem postfixes_takes : ∀ (n : Nat) (e : Expr Span) {p : Parser}, p.Formed → (postfixes n e).Takes p 0
  | 0, _, _, _ => .outOfFuel
  | n + 1, e, p, hp => by
    rw [postfixes]
    refine .peekKind_bind ?_
    split
    · next hk =>
      refine .advance_bind hp (by rw [hk]; rfl) fun q hq _ => ?_
      refine .bind hq (commaList_takes n hq) fun args r hr => ?_
      exact .expect_bind hr rfl fun close s hs _ => postfixes_takes n _ hs
    · next hk =>
      refine .advance_bind hp (by rw [hk]; rfl) fun q hq _ => ?_
      refine .bind hq (expression_takes n hq) fun key r hr => ?_
      exact .expect_bind hr rfl fun close s hs _ => postfixes_takes n _ hs
    · next hk =>
      refine .advance_bind hp (by rw [hk]; rfl) fun q hq _ => ?_
      exact .bind hq (nameKey_takes hq) fun key r hr => postfixes_takes n _ hr
    · next hk =>
      refine .advance_bind hp (by rw [hk]; rfl) fun q hq _ => ?_
      refine .bind hq (arrowKey_takes n hq) fun key r hr => ?_
      exact .previous_bind (postfixes_takes n _ hr)
    · refine .bind hp (dictBody_takes n hp) fun es q hq => ?_
      exact postfixes_takes n _ hq
    · exact .pure e

theorem arrowKey_takes : ∀ (n : Nat) {p : Parser}, p.Formed → (arrowKey n).Takes p 1
  | 0, _, _ => .outOfFuel
  | n + 1, p, hp => by
    rw [arrowKey]
    refine .eat_bind hp rfl (fun q hq => ?_) (nameKey_takes hp)
    refine .bind hq (expression_takes n hq) fun key r hr => ?_
    exact .expect_bind hr rfl fun _ s hs _ => .pure key

theorem primary_takes : ∀ (n : Nat) {p : Parser}, p.Formed → (primary n).Takes p 1
  | 0, _, _ => .outOfFuel
  | n + 1, p, hp => by
    rw [primary]
    refine .peek_bind ?_
    split
    · next hk => exact .advance_bind hp (by rw [hk]; rfl) fun q hq _ => .pure _
    · next hk => exact .advance_bind hp (by rw [hk]; rfl) fun q hq _ => .pure _
    · next hk => exact .advance_bind hp (by rw [hk]; rfl) fun q hq _ => .pure _
    · next hk => exact .advance_bind hp (by rw [hk]; rfl) fun q hq _ => .pure _
    · next hk => exact .advance_bind hp (by rw [hk]; rfl) fun q hq _ => .pure _
    · next name hk =>
      refine .resolve_bind hp fun v q hq hc => ?_
      exact .advance_bind hq (by rw [hc, hk]; rfl) fun r hr _ => .pure _
    · next hk =>
      refine .advance_bind hp (by rw [hk]; rfl) fun q hq _ => ?_
      refine .bind hq (expression_takes n hq) fun e r hr => ?_
      exact .expect_bind hr rfl fun close s hs _ => .pure _
    · next hk =>
      refine .advance_bind hp (by rw [hk]; rfl) fun q hq _ => ?_
      refine .bind hq (commaList_takes n hq) fun items r hr => ?_
      exact .expect_bind hr rfl fun close s hs _ => .pure _
    · exact .bind hp (dictBody_takes n hp) fun es q hq => .pure _
    · exact .reject _

theorem commaList_takes {close : TokenKind} : ∀ (n : Nat) {p : Parser}, p.Formed → (commaList close n).Takes p 0
  | 0, _, _ => .outOfFuel
  | n + 1, p, hp => by
    rw [commaList]
    refine .at?_bind ?_
    split
    · exact .pure []
    · refine .bind hp (expression_takes n hp) fun e q hq => ?_
      refine .eat_bind hq rfl (fun r hr => ?_) (.pure [e])
      exact .bind hr (commaList_takes n hr) fun es s hs => .pure (e :: es)

theorem dictBody_takes : ∀ (n : Nat) {p : Parser}, p.Formed → (dictBody n).Takes p 1
  | 0, _, _ => .outOfFuel
  | n + 1, p, hp => by
    rw [dictBody]
    refine .expect_bind hp rfl fun _ q hq _ => .bind hq (dictEntries_takes n hq) fun entries r hr => ?_
    exact .expect_bind hr rfl fun close s hs _ => .pure _

theorem dictEntries_takes : ∀ (n : Nat) {p : Parser}, p.Formed → (dictEntries n).Takes p 0
  | 0, _, _ => .outOfFuel
  | n + 1, p, hp => by
    rw [dictEntries]
    refine .at?_bind ?_
    split
    · exact .pure []
    · refine .bind hp (dictKey_takes n hp) fun key q hq => ?_
      refine .expect_bind hq rfl fun _ r hr _ => ?_
      refine .bind hr (expression_takes n hr) fun value s hs => ?_
      refine .eat_bind hs rfl (fun t ht => ?_) (.pure _)
      exact .bind ht (dictEntries_takes n ht) fun es u hu => .pure _

theorem dictKey_takes : ∀ (n : Nat) {p : Parser}, p.Formed → (dictKey n).Takes p 1
  | 0, _, _ => .outOfFuel
  | n + 1, p, hp => by
    rw [dictKey]
    refine .peek_bind ?_
    split
    · next name hk =>
      refine .advance_bind hp (by rw [hk]; rfl) fun q hq _ => .at?_bind ?_
      split
      · exact .pure _
      · refine .resolve_bind hq fun v r hr _ => ?_
        exact .bind hr (postfixes_takes n _ hr) fun e s hs => operators_takes n 0 e hs
    · exact expression_takes n hp

end

theorem expressions_takes : ∀ (n : Nat) {p : Parser}, p.Formed → (expressions n).Takes p 1
  | 0, _, _ => .outOfFuel
  | n + 1, p, hp => by
    rw [expressions]
    refine .bind hp (expression_takes n hp) fun e q hq => ?_
    refine .eat_bind hq rfl (fun r hr => ?_) (.pure [e])
    exact .bind hr (expressions_takes n hr) fun es s hs => .pure (e :: es)

/-! ## Simple statements -/

theorem loopVariables_takes : ∀ (n : Nat) {p : Parser}, p.Formed → (loopVariables n).Takes p 1
  | 0, _, _ => .outOfFuel
  | n + 1, p, hp => by
    rw [loopVariables]
    refine .identifier_bind hp fun x q hq _ => .resolve_bind hq fun v r hr _ => ?_
    refine .eat_bind hr rfl (fun s hs => ?_) (.pure [v])
    exact .bind hs (loopVariables_takes n hs) fun vs t ht => .pure (v :: vs)

theorem declaredNames_takes (scope : Scope) :
    ∀ (n : Nat) {p : Parser}, p.Formed → (declaredNames scope n).Takes p 1
  | 0, _, _ => .outOfFuel
  | n + 1, p, hp => by
    rw [declaredNames]
    refine .peek_bind (.identifier_bind hp fun x q hq hl => .declare_bind hq hl fun r hr => ?_)
    refine .eat_bind hr rfl (fun s hs => ?_) (.pure _)
    exact .bind hs (declaredNames_takes scope n hs) fun ns t ht => .pure _

theorem decorators_takes : ∀ (n : Nat) {p : Parser}, p.Formed → (decorators n).Takes p 0
  | 0, _, _ => .outOfFuel
  | n + 1, p, hp => by
    rw [decorators]
    refine .eat_bind hp rfl (fun q hq => ?_) (.pure [])
    refine .bind hq (expression_takes n hq) fun d r hr => .expect_bind hr rfl fun _ s hs _ => ?_
    exact .bind hs (decorators_takes n hs) fun ds t ht => .pure (d :: ds)

theorem handlerBinding_takes {p : Parser} (hp : p.Formed) : handlerBinding.Takes p 0 := by
  rw [handlerBinding]
  refine .eat_bind hp rfl (fun q hq => ?_) (.pure none)
  exact .identifier_bind hq fun x r hr _ => .resolve_bind hr fun v s hs _ => .pure (some v)

section

variable (n : Nat) {p : Parser} (hp : p.Formed) (hk : p.current.kind.isLexeme = true)
include hp

theorem assignment_takes (first : Expr Span) : (assignment n first).Takes p 0 := by
  have rest : ∀ (more : List (Expr Span)) (q : Parser), q.Formed →
      (do
        let eq ← expect (.symbol .eq)
        if (first :: more).any (!·.isTarget) then rejectAt eq .invalidTarget
        let values ← expressions n
        lineEnd
        return .assign (spanOver eq.span (values ++ (first :: more))) (first :: more) values :
          Parse (Stmt Span)).Takes q 0 := by
    intro more q hq
    refine .expect_bind hq rfl fun eq r hr hl => ?_
    dsimp only
    split
    · exact .rejectAt_bind (by rw [hl]; rfl) eq _
    · refine .bind hr (expressions_takes n hr) fun es s hs => ?_
      exact .bind hs (.lineEnd hs) fun _ t ht => .pure _
  refine .eat_bind hp rfl (fun q hq => ?_) (rest [] p hp)
  exact .bind hq (expressions_takes n hq) fun more r hr => rest more r hr

theorem exprStmt_takes : (exprStmt n).Takes p 1 := by
  refine .bind hp (expression_takes n hp) fun e q hq => .at?_bind (.at?_bind ?_)
  split
  · exact assignment_takes n hq e
  · exact .bind hq (.lineEnd hq) fun _ r hr => .pure _

include hk

theorem raiseStmt_takes : (raiseStmt n).Takes p 1 := by
  refine .advance_bind hp (TokenKind.isInline_of_isLexeme hk) fun q hq _ => ?_
  refine .bind hq (expression_takes n hq) fun e r hr => ?_
  exact .bind hr (.lineEnd hr) fun _ s hs => .pure _

theorem returnStmt_takes : (returnStmt n).Takes p 1 := by
  refine .advance_bind hp (TokenKind.isInline_of_isLexeme hk) fun q hq hl => .body_bind ?_
  split
  · exact .rejectPrevious_bind (hl ▸ hk) _
  · refine .at?_bind (.atEnd_bind ?_)
    split
    · exact .bind hq (.pure []) fun es r hr => .bind hr (.lineEnd hr) fun _ s hs => .pure _
    · refine .bind hq (expressions_takes n hq) fun es r hr => ?_
      exact .bind hr (.lineEnd hr) fun _ s hs => .pure _

omit n in
theorem loopControl_takes (k : Keyword) (stmt : Span → Stmt Span) : (loopControl k stmt).Takes p 1 := by
  refine .advance_bind hp (TokenKind.isInline_of_isLexeme hk) fun q hq hl => .body_bind ?_
  split
  · exact .rejectPrevious_bind (hl ▸ hk) _
  · exact .bind hq (.lineEnd hq) fun _ r hr => .pure _

theorem declaration_takes (scope : Scope) : (declaration scope n).Takes p 1 := by
  refine .advance_bind hp (TokenKind.isInline_of_isLexeme hk) fun q hq hl => .body_bind ?_
  split
  · exact .rejectPrevious_bind (hl ▸ hk) _
  · refine .bind hq (declaredNames_takes scope n hq) fun ns r hr => ?_
    exact .bind hr (.lineEnd hr) fun _ s hs => .pure _

end

end Parse

end DocScript
