import DocScript.Proofs.Grammar.Cursor

/-!
# Progress of readers

A reader that goes round comes back to itself with fewer tokens in front of it, and fewer than eight
readers call each other without taking a token. So eight units of fuel for each token are enough
(`Parse.program_moves`), and reading a script always gives a program (`Source.exists_program`).
-/

namespace DocScript

namespace Parse

open DocScript.Parser

/-! ## Expressions -/

theorem params_moves (close : TokenKind) :
    ∀ (n : Nat) {p : Parser}, p.Closed → 8 * p.left + 1 ≤ n → (params close n).Moves p 0
  | 0, _, _, hn => by omega
  | n + 1, p, hp, hn => by
    rw [params]
    refine .at?_bind ?_
    split
    · exact .pure hp []
    · refine (Moves.identifier hp).bind fun ⟨name, _⟩ q hq hl => ?_
      refine .eat_bind hq (by simp) (fun r hr hlr => ?_) (.pure hq [name])
      exact (params_moves close n hr (by omega)).bind fun ps s hs _ => .pure hs (name :: ps)

theorem nameKey_moves {p : Parser} (hp : p.Closed) : nameKey.Moves p 1 :=
  (Moves.identifier hp).bind fun ⟨_, _⟩ _ hq _ => .pure hq _

mutual

theorem expression_moves :
    ∀ (n : Nat) {p : Parser}, p.Closed → 8 * p.left + 5 ≤ n → (expression n).Moves p 1
  | 0, _, _, hn => by omega
  | n + 1, _, hp, hn => operation_moves n 0 hp (by omega)

theorem operation_moves :
    ∀ (n min : Nat) {p : Parser}, p.Closed → 8 * p.left + 4 ≤ n → (operation n min).Moves p 1
  | 0, _, _, _, hn => by omega
  | n + 1, min, p, hp, hn => by
    rw [operation]
    refine (unary_moves n hp (by omega)).bind fun left q hq hl => ?_
    exact operators_moves n min left hq (by omega)

theorem operators_moves :
    ∀ (n min : Nat) (left : Expr Span) {p : Parser}, p.Closed → 8 * p.left + 1 ≤ n →
      (operators n min left).Moves p 0
  | 0, _, _, _, _, hn => by omega
  | n + 1, min, left, p, hp, hn => by
    rw [operators]
    refine .peekKind_bind ?_
    split
    · exact .pure hp left
    · next op hop =>
      have he : p.atEnd = false := atEnd_eq_false rfl fun h => by simp [h, BinaryOp.ofToken?] at hop
      split
      · exact .pure hp left
      · refine (Moves.advance hp he).bind fun _ q hq hl => ?_
        refine (operation_moves n _ hq (by omega)).bind fun right r hr hlr => ?_
        exact operators_moves n min _ hr (by omega)

theorem unary_moves :
    ∀ (n : Nat) {p : Parser}, p.Closed → 8 * p.left + 3 ≤ n → (unary n).Moves p 1
  | 0, _, _, hn => by omega
  | n + 1, p, hp, hn => by
    rw [unary]
    refine .peek_bind ?_
    split
    · next op hop =>
      have he : p.atEnd = false := atEnd_eq_false rfl fun h => by simp [h, UnaryOp.ofToken?] at hop
      refine (Moves.advance hp he).bind fun _ q hq hl => ?_
      exact (unary_moves n hq (by omega)).bind fun e r hr _ => (Moves.pure hr _)
    · split
      · next hk => exact lambda_moves n hp (atEnd_eq_false hk nofun) (by omega)
      · refine (primary_moves n hp (by omega)).bind fun e q hq hl => ?_
        exact postfixes_moves n e hq (by omega)

theorem lambda_moves :
    ∀ (n : Nat) {p : Parser}, p.Closed → p.atEnd = false → 8 * p.left + 1 ≤ n → (lambda n).Moves p 1
  | 0, _, _, _, hn => by omega
  | n + 1, p, hp, he, hn => by
    rw [lambda]
    refine (Moves.advance hp he).bind fun start q hq hl => ?_
    refine (params_moves _ n hq (by omega)).bind fun ps r hr hlr => ?_
    refine (Moves.expect hr (by simp)).bind fun _ s hs hls => ?_
    have hb := Moves.inFunction ps (expression_moves n (p := s.enterFunction ps) hs (by
      change 8 * s.left + 5 ≤ n
      omega))
    exact hb.bind fun e t ht _ => .pure ht _

theorem postfixes_moves :
    ∀ (n : Nat) (e : Expr Span) {p : Parser}, p.Closed → 8 * p.left + 2 ≤ n →
      (postfixes n e).Moves p 0
  | 0, _, _, _, hn => by omega
  | n + 1, e, p, hp, hn => by
    rw [postfixes]
    refine .peekKind_bind ?_
    split
    · next hk =>
      refine (Moves.advance hp (atEnd_eq_false hk nofun)).bind fun _ q hq hl => ?_
      refine (commaList_moves _ n hq (by omega)).bind fun args r hr hlr => ?_
      refine (Moves.expect hr (by simp)).bind fun close s hs hls => ?_
      exact postfixes_moves n _ hs (by omega)
    · next hk =>
      refine (Moves.advance hp (atEnd_eq_false hk nofun)).bind fun _ q hq hl => ?_
      refine (expression_moves n hq (by omega)).bind fun key r hr hlr => ?_
      refine (Moves.expect hr (by simp)).bind fun close s hs hls => ?_
      exact postfixes_moves n _ hs (by omega)
    · next hk =>
      refine (Moves.advance hp (atEnd_eq_false hk nofun)).bind fun _ q hq hl => ?_
      refine (nameKey_moves hq).bind fun key r hr hlr => ?_
      exact postfixes_moves n _ hr (by omega)
    · next hk =>
      refine (Moves.advance hp (atEnd_eq_false hk nofun)).bind fun _ q hq hl => ?_
      refine (arrowKey_moves n hq (by omega)).bind fun key r hr hlr => ?_
      exact .previous_bind (postfixes_moves n _ hr (by omega))
    · refine (dictBody_moves n hp (by omega)).bind fun ⟨entries, close⟩ q hq hl => ?_
      exact postfixes_moves n _ hq (by omega)
    · exact .pure hp e

theorem arrowKey_moves :
    ∀ (n : Nat) {p : Parser}, p.Closed → 8 * p.left + 1 ≤ n → (arrowKey n).Moves p 1
  | 0, _, _, hn => by omega
  | n + 1, p, hp, hn => by
    rw [arrowKey]
    refine .eat_bind hp (by simp) (fun q hq hl => ?_) (nameKey_moves hp)
    refine (expression_moves n hq (by omega)).bind fun key r hr hlr => ?_
    exact (Moves.expect hr (by simp)).bind fun _ s hs _ => .pure hs key

theorem primary_moves :
    ∀ (n : Nat) {p : Parser}, p.Closed → 8 * p.left + 2 ≤ n → (primary n).Moves p 1
  | 0, _, _, hn => by omega
  | n + 1, p, hp, hn => by
    rw [primary]
    refine .peek_bind ?_
    split
    · next hk =>
      exact (Moves.advance hp (atEnd_eq_false hk nofun)).bind fun _ q hq _ => .pure hq _
    · next hk =>
      exact (Moves.advance hp (atEnd_eq_false hk nofun)).bind fun _ q hq _ => .pure hq _
    · next hk =>
      exact (Moves.advance hp (atEnd_eq_false hk nofun)).bind fun _ q hq _ => .pure hq _
    · next hk =>
      exact (Moves.advance hp (atEnd_eq_false hk nofun)).bind fun _ q hq _ => .pure hq _
    · next hk =>
      exact (Moves.advance hp (atEnd_eq_false hk nofun)).bind fun _ q hq _ => .pure hq _
    · next name hk =>
      refine .resolve_bind hp fun v q hq hl hc => ?_
      have he : q.atEnd = false := by simp [Parser.atEnd, hc, hk]
      exact (Moves.advance hq he).bind fun _ r hr _ => .pure hr _
    · next hk =>
      refine (Moves.advance hp (atEnd_eq_false hk nofun)).bind fun _ q hq hl => ?_
      refine (expression_moves n hq (by omega)).bind fun e r hr hlr => ?_
      exact ((Moves.expect hr (by simp)).bind fun close s hs _ => .pure hs _)
    · next hk =>
      refine (Moves.advance hp (atEnd_eq_false hk nofun)).bind fun _ q hq hl => ?_
      refine (commaList_moves _ n hq (by omega)).bind fun items r hr hlr => ?_
      exact (Moves.expect hr (by simp)).bind fun close s hs _ => .pure hs _
    · exact (dictBody_moves n hp (by omega)).bind fun ⟨entries, close⟩ q hq _ => .pure hq _
    · exact .reject hp _

theorem commaList_moves (close : TokenKind) :
    ∀ (n : Nat) {p : Parser}, p.Closed → 8 * p.left + 6 ≤ n → (commaList close n).Moves p 0
  | 0, _, _, hn => by omega
  | n + 1, p, hp, hn => by
    rw [commaList]
    refine .at?_bind ?_
    split
    · exact .pure hp []
    · refine (expression_moves n hp (by omega)).bind fun e q hq hl => ?_
      refine .eat_bind hq (by simp) (fun r hr hlr => ?_) (.pure hq [e])
      exact (commaList_moves close n hr (by omega)).bind fun es s hs _ => .pure hs (e :: es)

theorem dictBody_moves :
    ∀ (n : Nat) {p : Parser}, p.Closed → 8 * p.left + 1 ≤ n → (dictBody n).Moves p 1
  | 0, _, _, hn => by omega
  | n + 1, p, hp, hn => by
    rw [dictBody]
    refine (Moves.expect hp (by simp)).bind fun _ q hq hl => ?_
    refine (dictEntries_moves n hq (by omega)).bind fun entries r hr hlr => ?_
    exact ((Moves.expect hr (by simp)).bind fun close s hs _ => .pure hs _)

theorem dictEntries_moves :
    ∀ (n : Nat) {p : Parser}, p.Closed → 8 * p.left + 7 ≤ n → (dictEntries n).Moves p 0
  | 0, _, _, hn => by omega
  | n + 1, p, hp, hn => by
    rw [dictEntries]
    refine .at?_bind ?_
    split
    · exact .pure hp []
    · refine (dictKey_moves n hp (by omega)).bind fun key q hq hl => ?_
      refine (Moves.expect hq (by simp)).bind fun _ r hr hlr => ?_
      refine (expression_moves n hr (by omega)).bind fun value s hs hls => ?_
      refine .eat_bind hs (by simp) (fun t ht hlt => ?_) (.pure hs _)
      exact (dictEntries_moves n ht (by omega)).bind fun es u hu _ => .pure hu _

theorem dictKey_moves :
    ∀ (n : Nat) {p : Parser}, p.Closed → 8 * p.left + 6 ≤ n → (dictKey n).Moves p 1
  | 0, _, _, hn => by omega
  | n + 1, p, hp, hn => by
    rw [dictKey]
    refine .peek_bind ?_
    split
    · next name hk =>
      refine (Moves.advance hp (atEnd_eq_false hk nofun)).bind fun _ q hq hl => ?_
      refine .at?_bind ?_
      split
      · exact .pure hq _
      · refine .resolve_bind hq fun v r hr hlr _ => ?_
        refine (postfixes_moves n _ hr (by omega)).bind fun e s hs hls => ?_
        exact operators_moves n 0 e hs (by omega)
    · exact expression_moves n hp (by omega)

end

theorem expressions_moves :
    ∀ (n : Nat) {p : Parser}, p.Closed → 8 * p.left + 6 ≤ n → (expressions n).Moves p 1
  | 0, _, _, hn => by omega
  | n + 1, p, hp, hn => by
    rw [expressions]
    refine (expression_moves n hp (by omega)).bind fun e q hq hl => ?_
    refine .eat_bind hq (by simp) (fun r hr hlr => ?_) (.pure hq [e])
    exact (expressions_moves n hr (by omega)).bind fun es s hs _ => Moves.pure hs (e :: es)

/-! ## Statements -/

theorem loopVariables_moves :
    ∀ (n : Nat) {p : Parser}, p.Closed → 8 * p.left + 1 ≤ n → (loopVariables n).Moves p 1
  | 0, _, _, hn => by omega
  | n + 1, p, hp, hn => by
    rw [loopVariables]
    refine (Moves.identifier hp).bind fun ⟨name, _⟩ q hq hl => ?_
    refine .resolve_bind hq fun v r hr hlr _ => ?_
    refine .eat_bind hr (by simp) (fun s hs hls => ?_) (.pure hr [v])
    exact (loopVariables_moves n hs (by omega)).bind fun vs t ht _ => Moves.pure ht (v :: vs)

theorem declaredNames_moves (scope : Scope) :
    ∀ (n : Nat) {p : Parser}, p.Closed → 8 * p.left + 1 ≤ n → (declaredNames scope n).Moves p 1
  | 0, _, _, hn => by omega
  | n + 1, p, hp, hn => by
    rw [declaredNames]
    refine .peek_bind ?_
    refine (Moves.identifier hp).bind fun ⟨name, span⟩ q hq hl => ?_
    refine (Moves.declare hq name scope _).bind fun _ r hr hlr => ?_
    refine .eat_bind hr (by simp) (fun s hs hls => ?_) (.pure hr _)
    exact (declaredNames_moves scope n hs (by omega)).bind fun ns t ht _ => Moves.pure ht _

theorem decorators_moves :
    ∀ (n : Nat) {p : Parser}, p.Closed → 8 * p.left + 1 ≤ n → (decorators n).Moves p 0
  | 0, _, _, hn => by omega
  | n + 1, p, hp, hn => by
    rw [decorators]
    refine .eat_bind hp (by simp) (fun q hq hl => ?_) (.pure hp [])
    refine (expression_moves n hq (by omega)).bind fun d r hr hlr => ?_
    refine (Moves.expect hr (by simp)).bind fun _ s hs hls => ?_
    exact (decorators_moves n hs (by omega)).bind fun ds t ht _ => .pure ht (d :: ds)

theorem handlerBinding_moves {p : Parser} (hp : p.Closed) : handlerBinding.Moves p 0 := by
  rw [handlerBinding]
  refine .eat_bind hp (by simp) (fun q hq hl => ?_) (.pure hp none)
  refine (Moves.identifier hq).bind fun ⟨name, _⟩ r hr hlr => ?_
  exact .resolve_bind hr fun v s hs _ _ => .pure hs (some v)

section

variable {n : Nat} {p : Parser} (hp : p.Closed) (he : p.atEnd = false)
include hp he

theorem raiseStmt_moves (hn : 8 * p.left + 1 ≤ n) : (raiseStmt n).Moves p 1 := by
  refine (Moves.advance hp he).bind fun start q hq hl => ?_
  refine (expression_moves n hq (by omega)).bind fun e r hr hlr => ?_
  exact (Moves.lineEnd hr).bind fun _ s hs _ => .pure hs _

theorem returnStmt_moves (hn : 8 * p.left + 1 ≤ n) : (returnStmt n).Moves p 1 := by
  refine (Moves.advance hp he).bind fun start q hq hl => ?_
  refine .body_bind ?_
  split
  · exact .rejectPrevious_bind hq _
  · refine .at?_bind (.atEnd_bind ?_)
    split
    · exact (Moves.lineEnd hq).bind fun _ r hr _ => .pure hr _
    · refine (expressions_moves n hq (by omega)).bind fun es r hr hlr => ?_
      exact (Moves.lineEnd hr).bind fun _ s hs _ => .pure hs _

theorem loopControl_moves (k : Keyword) (stmt : Span → Stmt Span) :
    (loopControl k stmt).Moves p 1 := by
  refine (Moves.advance hp he).bind fun t q hq hl => ?_
  refine .body_bind ?_
  split
  · exact .rejectPrevious_bind hq _
  · exact (Moves.lineEnd hq).bind fun _ r hr _ => .pure hr _

theorem declaration_moves (scope : Scope) (hn : 8 * p.left + 1 ≤ n) :
    (declaration scope n).Moves p 1 := by
  refine (Moves.advance hp he).bind fun start q hq hl => ?_
  refine .body_bind ?_
  split
  · exact .rejectPrevious_bind hq _
  · refine (declaredNames_moves scope n hq (by omega)).bind fun ns r hr hlr => ?_
    exact (Moves.lineEnd hr).bind fun _ s hs _ => .pure hs _

omit he

theorem assignment_moves (first : Expr Span) (hn : 8 * p.left + 6 ≤ n) :
    (assignment n first).Moves p 0 := by
  have rest : ∀ (more : List (Expr Span)) (q : Parser), q.Closed → q.left ≤ p.left →
      (do
        let eq ← expect (.symbol .eq)
        if (first :: more).any (!·.isTarget) then rejectAt eq .invalidTarget
        let values ← expressions n
        lineEnd
        return .assign (spanOver eq.span (values ++ (first :: more))) (first :: more) values :
          Parse (Stmt Span)).Moves q 0 := by
    intro more q hq hl
    refine (Moves.expect hq (by simp)).bind fun eq r hr hlr => ?_
    dsimp only
    split
    · exact .rejectAt_bind hr eq _
    · refine (expressions_moves n hr (by omega)).bind fun es s hs hls => ?_
      exact (Moves.lineEnd hs).bind fun _ t ht _ => .pure ht _
  refine .eat_bind hp (by simp) (fun q hq hl => ?_) (rest [] p hp (Nat.le_refl _))
  refine (expressions_moves n hq (by omega)).bind fun more r hr hlr => ?_
  exact rest more r hr (by omega)

theorem exprStmt_moves (hn : 8 * p.left + 5 ≤ n) : (exprStmt n).Moves p 1 := by
  refine (expression_moves n hp hn).bind fun e q hq hl => ?_
  refine .at?_bind (.at?_bind ?_)
  split
  · exact assignment_moves hq e (by omega)
  · exact (Moves.lineEnd hq).bind fun _ r hr _ => .pure hr _

end

mutual

theorem statement_moves :
    ∀ (n : Nat) {p : Parser}, p.Closed → 8 * p.left + 6 ≤ n → (statement n).Moves p 1
  | 0, _, _, hn => by omega
  | n + 1, p, hp, hn => by
    rw [statement]
    refine .peekKind_bind ?_
    split
    · next hk => exact ifStmt_moves n hp (atEnd_eq_false hk nofun) (by omega)
    · next hk => exact whileStmt_moves n hp (atEnd_eq_false hk nofun) (by omega)
    · next hk => exact forStmt_moves n hp (atEnd_eq_false hk nofun) (by omega)
    · exact definition_moves n [] hp (by omega)
    · exact decorated_moves n hp (by omega)
    · next hk => exact tryStmt_moves n hp (atEnd_eq_false hk nofun) (by omega)
    · next hk => exact raiseStmt_moves hp (atEnd_eq_false hk nofun) (by omega)
    · next hk => exact returnStmt_moves hp (atEnd_eq_false hk nofun) (by omega)
    · next hk => exact loopControl_moves hp (atEnd_eq_false hk nofun) _ _
    · next hk => exact loopControl_moves hp (atEnd_eq_false hk nofun) _ _
    · next hk => exact declaration_moves hp (atEnd_eq_false hk nofun) _ (by omega)
    · next hk => exact declaration_moves hp (atEnd_eq_false hk nofun) _ (by omega)
    · next hk => exact declaration_moves hp (atEnd_eq_false hk nofun) _ (by omega)
    · exact .reject hp _
    · exact exprStmt_moves hp (by omega)

theorem block_moves :
    ∀ (n : Nat) {p : Parser}, p.Closed → 8 * p.left + 1 ≤ n → (block n).Moves p 1
  | 0, _, _, hn => by omega
  | n + 1, p, hp, hn => by
    rw [block]
    refine (Moves.expect hp (by simp)).bind fun colon q hq hl => ?_
    refine (Moves.expect hq (by simp)).bind fun _ r hr hlr => ?_
    refine .eat_bind hr (by simp) (fun s hs hls => ?_) (.reject_bind hr _)
    refine (blockStmts_moves n hs (by omega)).bind fun stmts t ht _ => ?_
    exact .peek_bind (.eat_bind ht (by simp) (fun u hu _ => .pure hu _) (.pure ht _))

theorem blockStmts_moves :
    ∀ (n : Nat) {p : Parser}, p.Closed → 8 * p.left + 8 ≤ n → (blockStmts n).Moves p 0
  | 0, _, _, hn => by omega
  | n + 1, p, hp, hn => by
    rw [blockStmts]
    refine .at?_bind (.atEnd_bind ?_)
    split
    · exact .pure hp []
    · next h =>
      have he : p.atEnd = false := by simp at h; exact h.2
      refine .eat_bind hp (by simp) (fun q hq hl => blockStmts_moves n hq (by omega)) ?_
      refine (item_moves n hp he (by omega)).bind fun s q hq hl => ?_
      exact (blockStmts_moves n hq (by omega)).bind fun ss r hr _ => .pure hr _

theorem item_moves :
    ∀ (n : Nat) {p : Parser}, p.Closed → p.atEnd = false → 8 * p.left + 7 ≤ n → (item n).Moves p 1
  | 0, _, _, _, hn => by omega
  | n + 1, p, hp, he, hn => by
    rw [item]
    have h : (do
        if ← eat (.keyword .pass) then
          lineEnd
          return none
        else
          let s ← statement n
          return some s : Parse (Option (Stmt Span))).Moves p 1 := by
      refine .eat_bind hp (by simp) (fun q hq hl => ?_) ?_
      · exact (Moves.lineEnd hq).bind fun _ r hr _ => .pure hr none
      · exact (statement_moves n hp (by omega)).bind fun s r hr _ => .pure hr (some s)
    refine (after_recovering _).2 (After.mono h (fun _ _ => id) fun e q hq => ?_)
    obtain ⟨rfl, hl⟩ := hq
    exact leads_recover hl he

theorem ifStmt_moves :
    ∀ (n : Nat) {p : Parser}, p.Closed → p.atEnd = false → 8 * p.left + 1 ≤ n → (ifStmt n).Moves p 1
  | 0, _, _, _, hn => by omega
  | n + 1, p, hp, he, hn => by
    rw [ifStmt]
    refine (Moves.advance hp he).bind fun start q hq hl => ?_
    refine (expression_moves n hq (by omega)).bind fun cond r hr hlr => ?_
    refine (block_moves n hr (by omega)).bind fun yes s hs hls => ?_
    exact (elsePart_moves n _ hs (by omega)).bind fun no t ht _ => .pure ht _

theorem elsePart_moves :
    ∀ (n line : Nat) {p : Parser}, p.Closed → 8 * p.left + 2 ≤ n → (elsePart n line).Moves p 0
  | 0, _, _, _, hn => by omega
  | n + 1, line, p, hp, hn => by
    rw [elsePart]
    refine .at?_bind ?_
    split
    · next hk =>
      have he : p.atEnd = false := atEnd_eq_false (by simpa using hk) (by simp)
      exact (ifStmt_moves n hp he (by omega)).bind fun s q hq _ => .pure hq _
    · refine .eat_bind hp (by simp) (fun q hq hl => ?_) (.pure hp _)
      exact (block_moves n hq (by omega)).weaken (Nat.zero_le _)

theorem whileStmt_moves :
    ∀ (n : Nat) {p : Parser}, p.Closed → p.atEnd = false → 8 * p.left + 1 ≤ n →
      (whileStmt n).Moves p 1
  | 0, _, _, _, hn => by omega
  | n + 1, p, hp, he, hn => by
    rw [whileStmt]
    refine (Moves.advance hp he).bind fun start q hq hl => ?_
    refine (expression_moves n hq (by omega)).bind fun cond r hr hlr => ?_
    have hb := Moves.inLoop (p := r) (block_moves n hr (by
      change 8 * r.left + 1 ≤ n
      omega))
    exact hb.bind fun b s hs _ => .pure hs _

theorem forStmt_moves :
    ∀ (n : Nat) {p : Parser}, p.Closed → p.atEnd = false → 8 * p.left + 1 ≤ n →
      (forStmt n).Moves p 1
  | 0, _, _, _, hn => by omega
  | n + 1, p, hp, he, hn => by
    rw [forStmt]
    refine (Moves.advance hp he).bind fun start q hq hl => ?_
    refine (loopVariables_moves n hq (by omega)).bind fun vars r hr hlr => ?_
    refine (Moves.expect hr (by simp)).bind fun _ s hs hls => ?_
    refine (expression_moves n hs (by omega)).bind fun iterable t ht hlt => ?_
    have hb := Moves.inLoop (p := t) (block_moves n ht (by
      change 8 * t.left + 1 ≤ n
      omega))
    exact hb.bind fun b u hu _ => .pure hu _

theorem definition_moves :
    ∀ (n : Nat) (ds : List (Expr Span)) {p : Parser}, p.Closed → 8 * p.left + 1 ≤ n →
      (definition n ds).Moves p 1
  | 0, _, _, _, hn => by omega
  | n + 1, ds, p, hp, hn => by
    rw [definition]
    refine (Moves.expect hp (by simp)).bind fun start q hq hl => ?_
    refine (Moves.identifier hq).bind fun ⟨name, _⟩ r hr hlr => ?_
    refine .resolve_bind hr fun target s hs hls _ => ?_
    refine (Moves.expect hs (by simp)).bind fun _ t ht hlt => ?_
    refine (params_moves _ n ht (by omega)).bind fun ps u hu hlu => ?_
    refine (Moves.expect hu (by simp)).bind fun _ v hv hlv => ?_
    have hb := Moves.inFunction ps (block_moves n (p := v.enterFunction ps) hv (by
      change 8 * v.left + 1 ≤ n
      omega))
    exact hb.bind fun b w hw _ => .pure hw _

theorem decorated_moves :
    ∀ (n : Nat) {p : Parser}, p.Closed → 8 * p.left + 2 ≤ n → (decorated n).Moves p 1
  | 0, _, _, hn => by omega
  | n + 1, p, hp, hn => by
    rw [decorated]
    refine (decorators_moves n hp (by omega)).bind fun ds q hq hl => ?_
    refine .at?_bind ?_
    split
    · exact definition_moves n ds hq (by omega)
    · exact .reject hq _

theorem tryStmt_moves :
    ∀ (n : Nat) {p : Parser}, p.Closed → p.atEnd = false → 8 * p.left + 1 ≤ n →
      (tryStmt n).Moves p 1
  | 0, _, _, _, hn => by omega
  | n + 1, p, hp, he, hn => by
    rw [tryStmt]
    refine (Moves.advance hp he).bind fun start q hq hl => ?_
    refine (block_moves n hq (by omega)).bind fun b r hr hlr => ?_
    refine (handler_moves n hr (by omega)).bind fun h s hs hls => ?_
    refine (cleanup_moves n hs (by omega)).bind fun c t ht hlt => ?_
    dsimp only
    split
    · exact .reject_bind ht _
    · exact .pure ht _

theorem handler_moves :
    ∀ (n : Nat) {p : Parser}, p.Closed → 8 * p.left + 1 ≤ n → (handler n).Moves p 0
  | 0, _, _, hn => by omega
  | n + 1, p, hp, hn => by
    rw [handler]
    refine .eat_bind hp (by simp) (fun q hq hl => ?_) (.pure hp none)
    refine (handlerBinding_moves hq).bind fun v r hr hlr => ?_
    exact (block_moves n hr (by omega)).bind fun b s hs _ => .pure hs _

theorem cleanup_moves :
    ∀ (n : Nat) {p : Parser}, p.Closed → 8 * p.left + 1 ≤ n → (cleanup n).Moves p 0
  | 0, _, _, hn => by omega
  | n + 1, p, hp, hn => by
    rw [cleanup]
    refine .eat_bind hp (by simp) (fun q hq hl => ?_) (.pure hp none)
    exact (block_moves n hq (by omega)).bind fun b r hr _ => .pure hr (some b)

end

/-! ## Programs -/

theorem program_moves :
    ∀ (n : Nat) {p : Parser}, p.Closed → 8 * p.left + 8 ≤ n → (program n).Moves p 0
  | 0, _, _, hn => by omega
  | n + 1, p, hp, hn => by
    rw [program]
    refine .atEnd_bind ?_
    split
    · exact .pure hp []
    · next he =>
      refine .eat_bind hp (by simp) (fun q hq hl => program_moves n hq (by omega)) ?_
      refine .eat_bind hp (by simp) (fun q hq hl => program_moves n hq (by omega)) ?_
      refine (item_moves n hp (by simpa using he) (by omega)).bind fun s q hq hl => ?_
      exact (program_moves n hq (by omega)).bind fun ss r hr _ => .pure hr _

/-- A rejected statement does not reject what it stands in. -/
theorem item_not_rejected (n : Nat) (p : Parser) :
    After (item n) p (fun _ _ => True) (fun e _ => e = .outOfFuel) := by
  cases n with
  | zero => exact rfl
  | succ n =>
    rw [item, after_recovering]
    unfold After
    split
    · trivial
    · next e q h => cases e <;> trivial

theorem program_not_rejected :
    ∀ (n : Nat) (p : Parser), After (program n) p (fun _ _ => True) (fun e _ => e = .outOfFuel)
  | 0, _ => rfl
  | n + 1, p => by
    rw [program, after_bind, after_atEnd]
    split
    · trivial
    · rw [after_bind, after_eat]
      refine ⟨fun _ => program_not_rejected n _, fun _ => ?_⟩
      simp only [Bool.false_eq_true, if_false]
      rw [after_bind, after_eat]
      refine ⟨fun _ => program_not_rejected n _, fun _ => ?_⟩
      simp only [Bool.false_eq_true, if_false]
      refine (item_not_rejected n p).bind fun s q _ => ?_
      exact (program_not_rejected n q).bind fun ss r _ => trivial

end Parse

theorem getLast?_traceFrom (last : Trivia) :
    ∀ (l : Layout) (p : Pos) (segments : List Segment),
      ∃ t l', (traceFrom last l p segments).getLast? = some (t, l') ∧ t.kind = .endOfFile
  | l, p, [] => ⟨_, _, List.getLast?_concat .., rfl⟩
  | l, p, s :: segments => by
    obtain ⟨t, l', h, hk⟩ := getLast?_traceFrom last
      ((l.enter s.trivia.entered false).2.after s.lexeme.kind)
      ((p.advance s.trivia.text).advance s.lexeme.text) segments
    refine ⟨t, l', ?_, hk⟩
    rw [traceFrom]
    simp [List.getLast?_append, List.getLast?_cons, h]

/-- A stream of tokens ends with the end of the text. -/
theorem Source.getLast?_tokens (s : Source) :
    ∃ t, s.tokens.getLast? = some t ∧ t.kind = .endOfFile := by
  obtain ⟨t, l, h, hk⟩ := getLast?_traceFrom (Segmentation.ofText s.text.toList).last .start .start
    (Segmentation.ofText s.text.toList).segments
  refine ⟨t, ?_, hk⟩
  simp [tokens, trace, h]

theorem Parser.closed_start (s : Source) : (Parser.start s s.tokens).Closed := by
  obtain ⟨t, h, hk⟩ := s.getLast?_tokens
  exact ⟨t, getLast?_nextToken s (.mark .endOfFile .start) hk s.tokens .empty h, hk⟩

theorem Parser.left_start_lt (s : Source) : (Parser.start s s.tokens).left < s.tokens.length := by
  obtain ⟨t, h, -⟩ := s.getLast?_tokens
  exact length_nextToken_lt _ _ (fun hn => by simp [hn] at h) _

/-- Reading a script comes to its end : the grammar gives a program, and never runs out of fuel. -/
theorem Source.exists_program (s : Source) :
    ∃ q, Parse.program (parseFuel s.tokens.length) (.start s s.tokens) = .ok s.parse.program q := by
  have hl := Parser.left_start_lt s
  have hm := Parse.program_moves (parseFuel s.tokens.length) (Parser.closed_start s)
    (by unfold parseFuel; omega)
  have hr := Parse.program_not_rejected (parseFuel s.tokens.length) (.start s s.tokens)
  unfold Source.parse
  cases h : Parse.program (parseFuel s.tokens.length) (.start s s.tokens) with
  | ok p q => exact ⟨q, by simp [h]⟩
  | error e q =>
    rw [after_of_error h] at hr
    have he : e = .rejected := ((after_of_error h).1 hm).1
    exact absurd (hr.symm.trans he) (by simp)

end DocScript
