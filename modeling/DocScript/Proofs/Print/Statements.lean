import DocScript.Grammar.Stmt
import DocScript.Proofs.Print.Expressions
import DocScript.Proofs.Print.Lines

/-!
# Statements are read back from their tokens

Each statement is read up to the end of its last line or block. What follows must not go on with it : behind a
`try` that has no cleanup, for one, no `finally` may stand. `endsStmt` says so of the next token; it holds of
every token that a statement or the end of a block begins with.
-/

namespace DocScript

open Parse

variable {α : Type}

/-! ## Legible statements -/

namespace Body

/-- Where the statements of the body stand. -/
def place (b : Body) : Place := ⟨b.isFunction, decide (0 < b.loopDepth)⟩

/-- One loop deeper. -/
def deeper (b : Body) : Body := { b with loopDepth := b.loopDepth + 1 }

variable {b b' : Body} {ms : List (Mention α)}

theorem follow?_frame (h : b.follow? ms = some b') :
    b'.isFunction = b.isFunction ∧ b'.loopDepth = b.loopDepth := by
  induction ms generalizing b with
  | nil =>
    obtain rfl := Option.some.inj h
    exact ⟨rfl, rfl⟩
  | cons m ms ih =>
    cases m with
    | occurrence v =>
      rw [follow?] at h
      split at h
      · exact ih (b := b.refer v.name) h
      · contradiction
    | declaration x s =>
      rw [follow?] at h
      split at h
      · exact ih (b := b.declare x s) h
      · contradiction
    | function f => exact ih h

theorem place_follow? (h : b.follow? ms = some b') : b'.place = b.place := by
  obtain ⟨hf, hd⟩ := follow?_frame h
  rw [place, place, hf, hd]

theorem follow?_deeper (h : b.follow? ms = some b') : b.deeper.follow? ms = some b'.deeper := by
  rw [deeper, follow?_loopDepth, h, deeper, (follow?_frame h).2]
  rfl

theorem place_deeper (b : Body) : b.deeper.place = b.place.loop := by
  simp [deeper, place, Place.loop]

end Body

def Stmt.Legible (s : Stmt α) (b b' : Body) : Prop :=
  DocScript.Legible (s.passes .lexical) (s.passes .clear) (s.Placed b.place) s.mentions b b'

def StmtsLegible (ss : List (Stmt α)) (b b' : Body) : Prop :=
  Legible (stmtsPass .lexical ss) (stmtsPass .clear ss) (StmtsPlaced b.place ss) (mentionsOfStmts ss) b b'

def Block.Legible (x : Block α) (b b' : Body) : Prop :=
  DocScript.Legible (x.passes .lexical) (x.passes .clear) (x.Placed b.place) x.mentions b b'

/-- The block of a loop is legible one loop deeper. -/
theorem Block.Legible.deeper {x : Block α} {b b' : Body}
    (h : DocScript.Legible (x.passes .lexical) (x.passes .clear) (x.Placed b.place.loop) x.mentions b b') :
    x.Legible b.deeper b'.deeper :=
  ⟨h.lexical, h.clear, b.place_deeper ▸ h.placed, Body.follow?_deeper h.follows, h.stamped⟩

/-! ## Where statements begin and end -/

/-- A statement can begin with the token. -/
def startsStmt : TokenKind → Bool
  | .keyword k =>
    k ∈ [.none, .true, .false, .lambda, .not, .if_, .while_, .for_, .def_, .try_, .raise, .return_, .break_,
      .continue_, .local_, .nonlocal, .global_]
  | .symbol .at_ => true
  | k => startsExpr k

/-- The token does not go on with the statement in front of it. -/
def endsStmt (k : TokenKind) : Bool := k != .keyword .except && k != .keyword .finally_

theorem startsStmt_of_startsExpr {k : TokenKind} (h : startsExpr k = true) : startsStmt k = true := by
  unfold startsStmt
  split
  · simp only [startsExpr, decide_eq_true_eq] at h
    simp only [List.mem_cons, decide_eq_true_eq] at h ⊢
    tauto
  · rfl
  · exact h

theorem startsStmt_ne {k : TokenKind} (h : startsStmt k = true) :
    endsStmt k = true ∧ k ≠ .dedent ∧ k ≠ .endOfFile ∧ k ≠ .newline ∧ k ≠ .keyword .pass := by
  refine ⟨?_, ?_, ?_, ?_, ?_⟩
  · rw [endsStmt, Bool.and_eq_true, bne_iff_ne, bne_iff_ne]
    constructor <;> rintro rfl <;> exact absurd h (by decide)
  all_goals
    rintro rfl
    exact absurd h (by decide)

theorem exists_kinds_decorators (ds : List (Expr α)) (K : List TokenKind) :
    ∃ k ks, kindsOfDecorators ds ++ .keyword .def_ :: K = k :: ks ∧ startsStmt k = true := by
  cases ds with
  | nil => exact ⟨_, _, rfl, rfl⟩
  | cons d ds => exact ⟨_, _, rfl, rfl⟩

theorem Stmt.exists_kinds_eq : ∀ {s : Stmt α} {b b' : Body}, s.Legible b b' →
    ∃ k ks, s.kinds = k :: ks ∧ startsStmt k = true
  | .expr _ e, _, _, _ => by
    obtain ⟨k, ks, h, hk⟩ := e.exists_kinds_eq
    exact ⟨k, _, by rw [Stmt.kinds, h, List.cons_append], startsStmt_of_startsExpr hk⟩
  | .assign _ ts vs, _, _, hl => by
    obtain ⟨t, ts, rfl⟩ := List.exists_cons_of_ne_nil hl.placed.1.1
    obtain ⟨k, ks, h, hk⟩ := exists_commaKinds_eq t ts
    exact ⟨k, _, by rw [Stmt.kinds, h, List.cons_append], startsStmt_of_startsExpr hk⟩
  | .define _ ds v ⟨_, _, _⟩, _, _, _ => exists_kinds_decorators ds _
  | .ifElse .., _, _, _ => ⟨_, _, rfl, rfl⟩
  | .whileLoop .., _, _, _ => ⟨_, _, rfl, rfl⟩
  | .forLoop .., _, _, _ => ⟨_, _, rfl, rfl⟩
  | .attempt .., _, _, _ => ⟨_, _, rfl, rfl⟩
  | .raise .., _, _, _ => ⟨_, _, rfl, rfl⟩
  | .ret .., _, _, _ => ⟨_, _, rfl, rfl⟩
  | .break_ .., _, _, _ => ⟨_, _, rfl, rfl⟩
  | .continue_ .., _, _, _ => ⟨_, _, rfl, rfl⟩
  | .declare _ s _, _, _, hl => by
    refine ⟨_, _, rfl, ?_⟩
    cases s with
    | dynamic => exact absurd rfl hl.placed.2.1
    | local_ | nonlocal | global_ => rfl
  | .bad .., _, _, hl => absurd hl.lexical (by simp [Check.lexical])

/-! ## Lists -/

variable {b b' : Body} {k : TokenKind} {K : List TokenKind}

theorem expressions_gets (hk : endsExpr k = true) (hc : k ≠ .symbol .comma) :
    ∀ (n : Nat) {es : List (Expr α)} {b : Body}, es ≠ [] → ExprsLegible es b b' →
      (expressions n).Gets (commaKinds (kindsOfExprs es) ++ k :: K) (k :: K) b b' (eraseExprs · = eraseExprs es)
  | 0, _, _, _, _ => .outOfFuel
  | _ + 1, [], _, hne, _ => absurd rfl hne
  | n + 1, [e], b, _, hl => by
    obtain ⟨b₁, h₁, h₂⟩ := hl.split
    obtain rfl := h₂.eq_of_nil
    rw [expressions]
    refine (e.readBack.whole h₁ n hk).bind fun x hx => (Gets.eat_other hc).bind ?_
    rintro _ rfl
    exact .pure (congrArg (fun y => [y]) hx)
  | n + 1, e :: e' :: es, b, _, hl => by
    obtain ⟨b₁, h₁, h₂⟩ := hl.split
    rw [expressions, kindsOfExprs, kindsOfExprs, commaKinds, List.append_assoc, List.cons_append]
    refine (e.readBack.whole h₁ n rfl).bind fun x hx => ?_
    refine (Gets.eat (by simp)).bind ?_
    rintro _ rfl
    refine (expressions_gets hk hc n (List.cons_ne_nil e' es) h₂).bind fun xs hxs => ?_
    exact .pure (congrArg₂ List.cons hx hxs)

theorem loopVariables_gets (hk : k ≠ .symbol .comma) : ∀ (n : Nat) {vs : List Variable} {b : Body}, vs ≠ [] →
    b.follow? (vs.map .occurrence : List (Mention α)) = some b' →
    (loopVariables n).Gets (commaKinds (nameKinds (vs.map Variable.name)) ++ k :: K) (k :: K) b b' (· = vs)
  | 0, _, _, _, _ => .outOfFuel
  | _ + 1, [], _, hne, _ => absurd rfl hne
  | n + 1, [v], b, _, hf => by
    obtain ⟨hs, rfl⟩ := Body.follow?_occurrence hf
    rw [loopVariables]
    refine (Gets.identifier (by simp)).bind ?_
    rintro ⟨_, _⟩ rfl
    refine (Gets.resolve v.name).bind ?_
    rintro _ rfl
    refine (Gets.eat_other hk).bind ?_
    rintro _ rfl
    exact .pure (by rw [hs])
  | n + 1, v :: v' :: vs, b, _, hf => by
    rw [List.map_cons, ← List.singleton_append, Body.follow?_append, Option.bind_eq_some_iff] at hf
    obtain ⟨b₁, hf₁, hf₂⟩ := hf
    obtain ⟨hs, rfl⟩ := Body.follow?_occurrence hf₁
    rw [loopVariables]
    refine (Gets.identifier (by simp)).bind ?_
    rintro ⟨_, _⟩ rfl
    refine (Gets.resolve v.name).bind ?_
    rintro _ rfl
    refine (Gets.eat (by simp)).bind ?_
    rintro _ rfl
    refine (loopVariables_gets hk n (List.cons_ne_nil v' vs) hf₂).bind ?_
    rintro _ rfl
    exact .pure (by rw [hs])

theorem Body.follow?_declaration {x : String} {s : Scope} {ms : List (Mention α)}
    (h : b.follow? (.declaration x s :: ms) = some b') :
    b.objection? x s = none ∧ (b.declare x s).follow? ms = some b' := by
  rw [follow?] at h
  split at h
  · next ho => exact ⟨ho, h⟩
  · contradiction

theorem declaredNames_gets (hk : k ≠ .symbol .comma) (s : Scope) : ∀ (n : Nat) {ns : List String} {b : Body},
    ns ≠ [] → b.follow? (ns.map (.declaration · s) : List (Mention α)) = some b' →
    (declaredNames s n).Gets (commaKinds (nameKinds ns) ++ k :: K) (k :: K) b b' (·.map Prod.fst = ns)
  | 0, _, _, _, _ => .outOfFuel
  | _ + 1, [], _, hne, _ => absurd rfl hne
  | n + 1, [x], b, _, hf => by
    obtain ⟨ho, hb⟩ := Body.follow?_declaration hf
    obtain rfl := Option.some.inj hb
    rw [declaredNames]
    refine Gets.peek.bind fun t _ => (Gets.identifier (by simp)).bind ?_
    rintro ⟨_, _⟩ rfl
    refine (Gets.declare ho t).bind fun _ _ => (Gets.eat_other hk).bind ?_
    rintro _ rfl
    exact .pure rfl
  | n + 1, x :: y :: ns, b, _, hf => by
    obtain ⟨ho, hf⟩ := Body.follow?_declaration hf
    rw [declaredNames]
    refine Gets.peek.bind fun t _ => (Gets.identifier (by simp)).bind ?_
    rintro ⟨_, _⟩ rfl
    refine (Gets.declare ho t).bind fun _ _ => (Gets.eat (by simp)).bind ?_
    rintro _ rfl
    refine (declaredNames_gets hk s n (List.cons_ne_nil y ns) hf).bind fun xs hxs => ?_
    exact .pure (congrArg (List.cons _) hxs)

theorem decorators_gets : ∀ (n : Nat) {ds : List (Expr α)} {b : Body}, ExprsLegible ds b b' →
    (decorators n).Gets (kindsOfDecorators ds ++ .keyword .def_ :: K) (.keyword .def_ :: K) b b'
      (eraseExprs · = eraseExprs ds)
  | 0, _, _, _ => .outOfFuel
  | n + 1, [], b, hl => by
    rw [decorators, hl.eq_of_nil]
    refine (Gets.eat_other (by simp)).bind ?_
    rintro _ rfl
    exact .pure rfl
  | n + 1, d :: ds, b, hl => by
    obtain ⟨b₁, h₁, h₂⟩ := hl.split
    rw [decorators, kindsOfDecorators, List.cons_append, List.append_assoc, List.cons_append]
    refine (Gets.eat (by simp)).bind ?_
    rintro _ rfl
    refine (d.readBack.whole h₁ n rfl).bind fun x hx => (Gets.expect (by simp)).bind fun _ _ => ?_
    exact (decorators_gets n h₂).bind fun xs hxs => .pure (congrArg₂ List.cons hx hxs)

/-! ## What it means to read a statement back -/

/-- The statement is read back from its tokens. -/
def Stmt.ReadBack (s : Stmt α) : Prop :=
  ∀ {b b'}, s.Legible b b' → ∀ n {k K}, endsStmt k = true →
    (statement n).Gets (s.kinds ++ k :: K) (k :: K) b b' (·.erase = s.erase)

/-- The block is read back from its tokens. -/
def Block.ReadBack (x : Block α) : Prop :=
  ∀ {b b'}, x.Legible b b' → ∀ n {k K},
    (block n).Gets (x.kinds ++ k :: K) (k :: K) b b' (·.erase = x.erase)

/-! ## Simple statements -/

theorem Expr.isTarget_of_erase_eq {x : Expr Span} {e : Expr α} (h : x.erase = e.erase) :
    x.isTarget = e.isTarget := by
  have herase : ∀ {β : Type} (y : Expr β), y.erase.isTarget = y.isTarget := by
    intro β y
    cases y <;> rfl
  rw [← herase x, h, herase]

theorem all_isTarget_of_erase_eq {xs : List (Expr Span)} {es : List (Expr α)} (h : eraseExprs xs = eraseExprs es)
    (ht : ∀ e ∈ es, e.isTarget = true) : xs.any (!·.isTarget) = false := by
  induction xs generalizing es with
  | nil => rfl
  | cons x xs ih =>
    cases es with
    | nil => nomatch h
    | cons e es =>
      obtain ⟨he, hes⟩ := List.cons.inj h
      rw [List.any_cons, ih hes fun e' h' => ht e' (by simp [h']), Expr.isTarget_of_erase_eq he, ht e (by simp)]
      rfl

/-- A statement that begins like an expression is an expression or an assignment. -/
theorem statement_gets_expr {ks : List TokenKind} {Q : Stmt Span → Prop} (hk : startsExpr k = true)
    (h : ∀ n, (exprStmt n).Gets (k :: ks) K b b' Q) (n : Nat) : (statement n).Gets (k :: ks) K b b' Q := by
  cases n with
  | zero => exact .outOfFuel
  | succ n =>
    rw [statement]
    refine Gets.peekKind.bind ?_
    rintro _ rfl
    split <;> first
      | exact absurd hk (by decide)
      | exact h n

theorem readBack_expr (a : α) (e : Expr α) : (Stmt.expr a e).ReadBack := by
  intro b b' hl n k K _
  have hl : e.Legible b b' := hl
  obtain ⟨k₀, ks, hks, hk₀⟩ := e.exists_kinds_eq
  have h : ∀ n, (exprStmt n).Gets (e.kinds ++ .newline :: k :: K) (k :: K) b b'
      (·.erase = (Stmt.expr a e).erase) := by
    intro n
    refine (e.readBack.whole hl n rfl).bind fun x hx => ?_
    refine (Gets.at? _).bind ?_
    rintro _ rfl
    refine (Gets.at? _).bind ?_
    rintro _ rfl
    refine (Gets.lineEnd (by simp)).bind fun _ _ => .pure ?_
    rw [Stmt.erase, Stmt.erase, hx]
  rw [Stmt.kinds, List.append_assoc, List.singleton_append, hks, List.cons_append]
  rw [hks, List.cons_append] at h
  exact statement_gets_expr hk₀ h n

/-- An assignment whose first target was read. -/
theorem assignment_gets {ts vs : List (Expr α)} {x : Expr Span} {t : Expr α} {b₁ : Body} (a : α)
    (hx : x.erase = t.erase) (ht : ∀ e ∈ t :: ts, e.isTarget = true) (hts : ExprsLegible ts b b₁)
    (hne : vs ≠ []) (hvs : ExprsLegible vs b₁ b') (n : Nat) :
    (assignment n x).Gets
      ((match ts with | [] => [] | _ => .symbol .comma :: commaKinds (kindsOfExprs ts)) ++
        .symbol .eq :: (commaKinds (kindsOfExprs vs) ++ .newline :: k :: K)) (k :: K) b b'
      (·.erase = (Stmt.assign a (t :: ts) vs).erase) := by
  have rest : ∀ more : List (Expr Span), eraseExprs more = eraseExprs ts →
      (do
        let eq ← expect (.symbol .eq)
        if (x :: more).any (!·.isTarget) then rejectAt eq .invalidTarget
        let values ← expressions n
        lineEnd
        return .assign (spanOver eq.span (values ++ (x :: more))) (x :: more) values :
          Parse (Stmt Span)).Gets (.symbol .eq :: (commaKinds (kindsOfExprs vs) ++ .newline :: k :: K)) (k :: K) b₁ b'
        (·.erase = (Stmt.assign a (t :: ts) vs).erase) := by
    intro more hmore
    have herase : eraseExprs (x :: more) = eraseExprs (t :: ts) := congrArg₂ List.cons hx hmore
    have hall : (x :: more).any (!·.isTarget) = false := all_isTarget_of_erase_eq herase ht
    refine (Gets.expect (by simp)).bind fun eq _ => ?_
    rw [hall]
    refine (expressions_gets rfl (by simp) n hne hvs).bind fun xs hxs => ?_
    refine (Gets.lineEnd (by simp)).bind fun _ _ => .pure ?_
    simp only [Stmt.erase, eraseExprs, hx, hmore, hxs]
  cases ts with
  | nil =>
    obtain rfl := hts.eq_of_nil
    refine (Gets.eat_other (by simp)).bind ?_
    rintro _ rfl
    exact rest [] rfl
  | cons t' ts =>
    refine (Gets.eat (by simp)).bind ?_
    rintro _ rfl
    exact (expressions_gets rfl (by simp) n (List.cons_ne_nil t' ts) hts).bind fun more hmore => rest more hmore

theorem readBack_assign (a : α) (ts vs : List (Expr α)) : (Stmt.assign a ts vs).ReadBack := by
  intro b b' hl n k K _
  obtain ⟨⟨hne, ht, hpt⟩, hnv, hpv⟩ := hl.placed
  have hl : Legible (exprsPass .lexical ts && exprsPass .lexical vs) (exprsPass .clear ts && exprsPass .clear vs)
      (ExprsPlaced ts ∧ ExprsPlaced vs) (mentionsOfExprs ts ++ mentionsOfExprs vs) b b' :=
    ⟨hl.lexical, hl.clear, ⟨hpt, hpv⟩, hl.follows, hl.stamped⟩
  obtain ⟨b₁, hts, hvs⟩ := hl.split
  obtain ⟨t, ts, rfl⟩ := List.exists_cons_of_ne_nil hne
  obtain ⟨b₂, ht₁, hts⟩ := hts.split
  obtain ⟨k₀, ks, hks, hk₀⟩ := exists_commaKinds_eq t ts
  have h : ∀ n, (exprStmt n).Gets
      (commaKinds (kindsOfExprs (t :: ts)) ++ .symbol .eq :: (commaKinds (kindsOfExprs vs) ++ .newline :: k :: K))
      (k :: K) b b' (·.erase = (Stmt.assign a (t :: ts) vs).erase) := by
    intro n
    have hmore := fun (x : Expr Span) (hx : x.erase = t.erase) =>
      assignment_gets (k := k) (K := K) a hx ht hts hnv hvs n
    cases ts with
    | nil =>
      refine (t.readBack.whole ht₁ n rfl).bind fun x hx => ?_
      refine (Gets.at? _).bind ?_
      rintro _ rfl
      refine (Gets.at? _).bind ?_
      rintro _ rfl
      exact hmore x hx
    | cons t' ts =>
      rw [kindsOfExprs, kindsOfExprs, commaKinds, List.append_assoc, List.cons_append]
      refine (t.readBack.whole ht₁ n rfl).bind fun x hx => ?_
      refine (Gets.at? _).bind ?_
      rintro _ rfl
      refine (Gets.at? _).bind ?_
      rintro _ rfl
      exact hmore x hx
  rw [Stmt.kinds, List.append_assoc, List.cons_append, List.append_assoc, List.singleton_append, hks,
    List.cons_append]
  rw [hks, List.cons_append] at h
  exact statement_gets_expr hk₀ h n

theorem readBack_raise (a : α) (e : Expr α) : (Stmt.raise a e).ReadBack := by
  intro b b' hl n k K _
  have hl : e.Legible b b' := hl
  cases n with
  | zero => exact .outOfFuel
  | succ n =>
    rw [statement, Stmt.kinds, List.cons_append, List.append_assoc, List.singleton_append]
    refine Gets.peekKind.bind ?_
    rintro _ rfl
    refine (Gets.advance (by simp)).bind fun _ _ => (e.readBack.whole hl n rfl).bind fun x hx => ?_
    refine (Gets.lineEnd (by simp)).bind fun _ _ => .pure ?_
    rw [Stmt.erase, Stmt.erase, hx]

theorem readBack_ret (a : α) (vs : List (Expr α)) : (Stmt.ret a vs).ReadBack := by
  intro b b' hl n k K _
  obtain ⟨hfun, hp⟩ := hl.placed
  have hl : ExprsLegible vs b b' := ⟨hl.lexical, hl.clear, hp, hl.follows, hl.stamped⟩
  cases n with
  | zero => exact .outOfFuel
  | succ n =>
    rw [statement, Stmt.kinds, List.cons_append, List.append_assoc, List.singleton_append]
    refine Gets.peekKind.bind ?_
    rintro _ rfl
    refine (Gets.advance (by simp)).bind fun _ _ => Gets.body.bind ?_
    rintro _ rfl
    rw [if_neg (by simpa [Body.place] using hfun)]
    cases vs with
    | nil =>
      obtain rfl := hl.eq_of_nil
      refine (Gets.at? _).bind ?_
      rintro _ rfl
      refine Gets.atEnd.bind ?_
      rintro _ rfl
      refine Gets.bind (.pure rfl) ?_
      rintro _ rfl
      exact (Gets.lineEnd (by simp)).bind fun _ _ => .pure rfl
    | cons v vs =>
      obtain ⟨k₀, ks, hks, hk₀⟩ := exists_commaKinds_eq v vs
      have hv := fun n => expressions_gets (k := .newline) (K := k :: K) rfl (by simp) n (List.cons_ne_nil v vs) hl
      rw [hks, List.cons_append] at hv ⊢
      obtain ⟨-, -, hend, hline, -⟩ := startsStmt_ne (startsStmt_of_startsExpr hk₀)
      refine (Gets.at? _).bind ?_
      rintro _ rfl
      refine Gets.atEnd.bind ?_
      rintro _ rfl
      simp only [hend, hline, decide_false, Bool.or_self, Bool.false_eq_true, if_false]
      refine (hv n).bind fun xs hxs => (Gets.lineEnd (by simp)).bind fun _ _ => .pure ?_
      rw [Stmt.erase, Stmt.erase, hxs]

theorem loopControl_gets (w : Keyword) (stmt : Span → Stmt Span) {s : Stmt Unit} (hs : ∀ a, (stmt a).erase = s)
    (hp : b.place.inLoop = true) :
    (loopControl w stmt).Gets (.keyword w :: .newline :: k :: K) (k :: K) b b (·.erase = s) := by
  have hdepth : ¬ b.loopDepth = 0 := Nat.pos_iff_ne_zero.1 (by simpa [Body.place] using hp)
  refine (Gets.advance (by simp)).bind fun _ _ => Gets.body.bind ?_
  rintro _ rfl
  rw [if_neg hdepth]
  exact (Gets.lineEnd (by simp)).bind fun _ _ => .pure (hs _)

theorem readBack_break (a : α) : (Stmt.break_ a).ReadBack := by
  intro b b' hl n k K _
  obtain rfl := hl.eq_of_nil
  cases n with
  | zero => exact .outOfFuel
  | succ n =>
    rw [statement]
    refine Gets.peekKind.bind ?_
    rintro _ rfl
    exact loopControl_gets .break_ Stmt.break_ (fun _ => rfl) hl.placed

theorem readBack_continue (a : α) : (Stmt.continue_ a).ReadBack := by
  intro b b' hl n k K _
  obtain rfl := hl.eq_of_nil
  cases n with
  | zero => exact .outOfFuel
  | succ n =>
    rw [statement]
    refine Gets.peekKind.bind ?_
    rintro _ rfl
    exact loopControl_gets .continue_ Stmt.continue_ (fun _ => rfl) hl.placed

theorem declaration_gets (a : α) {s : Scope} {ns : List String} (hl : (Stmt.declare a s ns).Legible b b') (n : Nat) :
    (declaration s n).Gets (s.kind :: (commaKinds (nameKinds ns) ++ .newline :: k :: K)) (k :: K) b b'
      (·.erase = (Stmt.declare a s ns).erase) := by
  obtain ⟨hfun, -, hne⟩ := hl.placed
  refine (Gets.advance (by simp)).bind fun _ _ => Gets.body.bind ?_
  rintro _ rfl
  rw [if_neg (by simpa [Body.place] using hfun)]
  refine (declaredNames_gets (by simp) s n hne hl.follows).bind fun xs hxs => ?_
  refine (Gets.lineEnd (by simp)).bind fun _ _ => .pure ?_
  rw [Stmt.erase, Stmt.erase, hxs]

theorem readBack_declare (a : α) (s : Scope) (ns : List String) : (Stmt.declare a s ns).ReadBack := by
  intro b b' hl n k K _
  cases n with
  | zero => exact .outOfFuel
  | succ n =>
    have h := declaration_gets (k := k) (K := K) a hl n
    rw [statement, Stmt.kinds, List.cons_append, List.append_assoc, List.singleton_append]
    refine Gets.peekKind.bind ?_
    rintro _ rfl
    cases s with
    | dynamic => exact absurd rfl hl.placed.2.1
    | local_ | nonlocal | global_ => exact h

/-! ## Blocks -/

theorem blockStmts_stop (n : Nat) : (blockStmts n).Gets (.dedent :: K) (.dedent :: K) b b (· = []) := by
  cases n with
  | zero => exact .outOfFuel
  | succ n =>
    rw [blockStmts]
    refine (Gets.at? _).bind ?_
    rintro _ rfl
    refine Gets.atEnd.bind ?_
    rintro _ rfl
    exact .pure rfl

/-- `pass` leaves no node. -/
theorem item_pass (hK : K ≠ []) (n : Nat) : (item n).Gets (.keyword .pass :: .newline :: K) K b b (· = none) := by
  cases n with
  | zero => exact .outOfFuel
  | succ n =>
    rw [item]
    refine .recovering ((Gets.eat (by simp)).bind ?_)
    rintro _ rfl
    exact (Gets.lineEnd hK).bind fun _ _ => .pure rfl

theorem Stmt.ReadBack.item_gets {s : Stmt α} (h : s.ReadBack) (hl : s.Legible b b') (hk : endsStmt k = true) (n : Nat) :
    (item n).Gets (s.kinds ++ k :: K) (k :: K) b b' (∃ x, · = some x ∧ x.erase = s.erase) := by
  cases n with
  | zero => exact .outOfFuel
  | succ n =>
    obtain ⟨k₀, ks, hks, hk₀⟩ := s.exists_kinds_eq hl
    have hs := h hl n (K := K) hk
    rw [hks, List.cons_append] at hs ⊢
    rw [item]
    refine .recovering ((Gets.eat_other (startsStmt_ne hk₀).2.2.2.2).bind ?_)
    rintro _ rfl
    exact hs.bind fun x hx => .pure ⟨x, rfl, hx⟩

/-- The next token behind a statement of a list. -/
theorem exists_kinds_stmts {ss : List (Stmt α)} (hl : StmtsLegible ss b b') (hk : endsStmt k = true) (K : List TokenKind) :
    ∃ k' ks, kindsOfStmts ss ++ k :: K = k' :: ks ∧ endsStmt k' = true := by
  cases ss with
  | nil => exact ⟨k, K, rfl, hk⟩
  | cons s ss =>
    obtain ⟨b₁, hs, -⟩ := hl.split
    obtain ⟨k₀, ks, hks, hk₀⟩ := s.exists_kinds_eq hs
    exact ⟨k₀, _, by rw [kindsOfStmts, hks, List.cons_append, List.cons_append], (startsStmt_ne hk₀).1⟩

/-- The parts of a list of statements. -/
theorem StmtsLegible.cons {s : Stmt α} {ss : List (Stmt α)} (h : StmtsLegible (s :: ss) b b') :
    ∃ b₁, s.Legible b b₁ ∧ StmtsLegible ss b₁ b' := by
  obtain ⟨b₁, hs, hss⟩ := h.split
  refine ⟨b₁, hs, hss.lexical, hss.clear, ?_, hss.follows, hss.stamped⟩
  rw [Body.place_follow? hs.follows]
  exact hss.placed

/-- A statement of a block and those behind it. -/
theorem blockStmts_gets : ∀ (n : Nat) {ss : List (Stmt α)} {b : Body}, (∀ s ∈ ss, s.ReadBack) →
    StmtsLegible ss b b' →
    (blockStmts n).Gets (kindsOfStmts ss ++ .dedent :: K) (.dedent :: K) b b' (eraseStmts · = eraseStmts ss)
  | n, [], b, _, hl => by
    obtain rfl := hl.eq_of_nil
    exact (blockStmts_stop n).mono fun xs hxs => hxs ▸ rfl
  | 0, _ :: _, _, _, _ => .outOfFuel
  | n + 1, s :: ss, b, h, hl => by
    obtain ⟨hs, hss⟩ := List.forall_mem_cons.1 h
    obtain ⟨b₁, hl₁, hl₂⟩ := hl.cons
    obtain ⟨k₀, ks, hks, hk₀⟩ := s.exists_kinds_eq hl₁
    obtain ⟨k', ks', hks', hk'⟩ := exists_kinds_stmts (k := .dedent) hl₂ rfl K
    obtain ⟨-, hd, he, hn, -⟩ := startsStmt_ne hk₀
    have hitem := hs.item_gets hl₁ hk' n (K := ks')
    have hrest := blockStmts_gets n hss hl₂
    rw [← hks', hks, List.cons_append] at hitem
    rw [kindsOfStmts, List.append_assoc, hks, List.cons_append, blockStmts]
    refine (Gets.at? _).bind ?_
    rintro _ rfl
    refine Gets.atEnd.bind ?_
    rintro _ rfl
    simp only [hd, he, decide_false, Bool.or_self, Bool.false_eq_true, if_false]
    refine (Gets.eat_other hn).bind ?_
    rintro _ rfl
    refine hitem.bind ?_
    rintro _ ⟨x, rfl, hx⟩
    exact hrest.bind fun xs hxs => .pure (congrArg₂ List.cons hx hxs)

/-- The tokens of the lines of a block. -/
def bodyKinds (ss : List (Stmt α)) : List TokenKind :=
  if ss.isEmpty then [.keyword .pass, .newline] else kindsOfStmts ss

theorem Block.kinds_eq (x : Block α) :
    x.kinds = .symbol .colon :: .newline :: .indent :: (bodyKinds x.stmts ++ [.dedent]) := by
  obtain ⟨a, ss⟩ := x
  cases ss <;> rfl

theorem body_gets {ss : List (Stmt α)} (h : ∀ s ∈ ss, s.ReadBack) (hl : StmtsLegible ss b b') (n : Nat) :
    (blockStmts n).Gets (bodyKinds ss ++ .dedent :: K) (.dedent :: K) b b' (eraseStmts · = eraseStmts ss) := by
  cases ss with
  | nil =>
    obtain rfl := hl.eq_of_nil
    cases n with
    | zero => exact .outOfFuel
    | succ n =>
      rw [blockStmts]
      refine (Gets.at? _).bind ?_
      rintro _ rfl
      refine Gets.atEnd.bind ?_
      rintro _ rfl
      refine (Gets.eat_other (by simp)).bind ?_
      rintro _ rfl
      refine (item_pass (by simp) n).bind ?_
      rintro _ rfl
      refine (blockStmts_stop n).bind ?_
      rintro _ rfl
      exact .pure rfl
  | cons s ss => exact blockStmts_gets n h hl

theorem Block.readBack_of {x : Block α} (h : ∀ s ∈ x.stmts, s.ReadBack) : x.ReadBack := by
  intro b b' hl n k K
  obtain ⟨a, ss⟩ := x
  cases n with
  | zero => exact .outOfFuel
  | succ n =>
    rw [Block.kinds_eq, block]
    simp only [List.cons_append, List.append_assoc, List.nil_append]
    refine (Gets.expect (by simp)).bind fun colon _ => (Gets.expect (by simp)).bind fun _ _ => ?_
    refine (Gets.eat (by simp)).bind ?_
    rintro _ rfl
    refine (body_gets h hl n).bind fun xs hxs => Gets.peek.bind fun _ _ => ?_
    refine (Gets.eat (by simp)).bind fun _ _ => .pure ?_
    rw [Block.erase, Block.erase, hxs]

/-! ## Statements with blocks -/

/-- A block that stands behind other code of the same body. -/
theorem Block.Legible.of_place {x : Block α} {c : Place}
    (h : DocScript.Legible (x.passes .lexical) (x.passes .clear) (x.Placed c) x.mentions b b') (hc : b.place = c) :
    x.Legible b b' :=
  ⟨h.lexical, h.clear, hc ▸ h.placed, h.follows, h.stamped⟩

/-- The expression in front of a block. -/
theorem Block.head_gets (x : Block α) {e : Expr α} (he : e.Legible b b') (n : Nat) :
    (expression n).Gets (e.kinds ++ (x.kinds ++ K)) (x.kinds ++ K) b b' (·.erase = e.erase) := by
  rw [x.kinds_eq]
  exact e.readBack.whole he n rfl

theorem ifStmt_gets {e : Expr α} {y z : Block α} {b₁ b₂ : Body} (hy : y.ReadBack) (hz : z.ReadBack)
    (he : e.Legible b b₁) (hly : y.Legible b₁ b₂) (hlz : z.Legible b₂ b') (a : α) (n : Nat) :
    (ifStmt n).Gets (.keyword .if_ :: (e.kinds ++ (y.kinds ++ .keyword .else_ :: (z.kinds ++ k :: K)))) (k :: K) b b'
      (·.erase = (Stmt.ifElse a e y z).erase) := by
  have helse : ∀ n line, (elsePart n line).Gets (.keyword .else_ :: (z.kinds ++ k :: K)) (k :: K) b₂ b'
      (·.erase = z.erase) := by
    intro n line
    cases n with
    | zero => exact .outOfFuel
    | succ n =>
      rw [elsePart]
      refine (Gets.at? _).bind ?_
      rintro _ rfl
      refine (Gets.eat (by simp)).bind ?_
      rintro _ rfl
      exact hz hlz n
  cases n with
  | zero => exact .outOfFuel
  | succ n =>
    rw [ifStmt]
    refine (Gets.advance (by simp)).bind fun _ _ => (y.head_gets he n).bind fun x hx => ?_
    refine (hy hly n).bind fun x₁ hx₁ => (helse n _).bind fun x₂ hx₂ => .pure ?_
    rw [Stmt.erase, Stmt.erase, hx, hx₁, hx₂]

theorem readBack_ifElse (a : α) (e : Expr α) {y z : Block α} (hy : y.ReadBack) (hz : z.ReadBack) :
    (Stmt.ifElse a e y z).ReadBack := by
  intro b b' hl n k K _
  obtain ⟨b₁, he, hl⟩ := Legible.split (P := e.Placed) hl
  obtain ⟨b₂, hly, hlz⟩ := hl.split
  have h₁ := Body.place_follow? he.follows
  have h₂ := (Body.place_follow? hly.follows).trans h₁
  cases n with
  | zero => exact .outOfFuel
  | succ n =>
    rw [statement, Stmt.kinds, List.cons_append, List.append_assoc, List.append_assoc, List.cons_append]
    refine Gets.peekKind.bind ?_
    rintro _ rfl
    exact ifStmt_gets hy hz he (.of_place hly h₁) (.of_place hlz h₂) a n

theorem whileStmt_gets {e : Expr α} {x : Block α} {b₁ : Body} (h : x.ReadBack) (he : e.Legible b b₁)
    (hx : x.Legible b₁.deeper b'.deeper) (a : α) (n : Nat) :
    (whileStmt n).Gets (.keyword .while_ :: (e.kinds ++ (x.kinds ++ k :: K))) (k :: K) b b'
      (·.erase = (Stmt.whileLoop a e x).erase) := by
  cases n with
  | zero => exact .outOfFuel
  | succ n =>
    rw [whileStmt]
    refine (Gets.advance (by simp)).bind fun _ _ => (x.head_gets he n).bind fun y hy => ?_
    refine (Gets.inLoop (h hx n)).bind fun z hz => .pure ?_
    rw [Stmt.erase, Stmt.erase, hy, hz]

theorem readBack_whileLoop (a : α) (e : Expr α) {x : Block α} (h : x.ReadBack) : (Stmt.whileLoop a e x).ReadBack := by
  intro b b' hl n k K _
  obtain ⟨b₁, he, hx⟩ := Legible.split (P := e.Placed) hl
  rw [← Body.place_follow? he.follows] at hx
  cases n with
  | zero => exact .outOfFuel
  | succ n =>
    rw [statement, Stmt.kinds, List.cons_append, List.append_assoc]
    refine Gets.peekKind.bind ?_
    rintro _ rfl
    exact whileStmt_gets h he (.deeper hx) a n

theorem forStmt_gets {vs : List Variable} {e : Expr α} {x : Block α} {b₁ b₂ : Body} (h : x.ReadBack) (hne : vs ≠ [])
    (hvs : b.follow? (vs.map .occurrence : List (Mention α)) = some b₁) (he : e.Legible b₁ b₂)
    (hx : x.Legible b₂.deeper b'.deeper) (a : α) (n : Nat) :
    (forStmt n).Gets (.keyword .for_ :: (commaKinds (nameKinds (vs.map Variable.name)) ++
      .keyword .in_ :: (e.kinds ++ (x.kinds ++ k :: K)))) (k :: K) b b' (·.erase = (Stmt.forLoop a vs e x).erase) := by
  cases n with
  | zero => exact .outOfFuel
  | succ n =>
    rw [forStmt]
    refine (Gets.advance (by simp)).bind fun _ _ => (loopVariables_gets (by simp) n hne hvs).bind ?_
    rintro _ rfl
    refine (Gets.expect (by simp)).bind fun _ _ => (x.head_gets he n).bind fun y hy => ?_
    refine (Gets.inLoop (h hx n)).bind fun z hz => .pure ?_
    rw [Stmt.erase, Stmt.erase, hy, hz]

theorem readBack_forLoop (a : α) (vs : List Variable) (e : Expr α) {x : Block α} (h : x.ReadBack) :
    (Stmt.forLoop a vs e x).ReadBack := by
  intro b b' hl n k K _
  obtain ⟨hlex, hclear, ⟨hne, hp⟩, hf, hs⟩ := hl
  obtain ⟨-, hlex⟩ := Bool.and_eq_true_iff.1 hlex
  rw [Stmt.mentions, Body.follow?_append, Option.bind_eq_some_iff] at hf
  obtain ⟨b₁, hvs, hf⟩ := hf
  have hpart : Legible (e.passes .lexical && x.passes .lexical) (e.passes .clear && x.passes .clear)
      (e.Placed ∧ x.Placed b.place.loop) (e.mentions ++ x.mentions) b₁ b' :=
    ⟨hlex, hclear, hp, hf, fun f hm => hs f (List.mem_append_right _ hm)⟩
  obtain ⟨b₂, he, hx⟩ := hpart.split
  rw [← Body.place_follow? hvs, ← Body.place_follow? he.follows] at hx
  cases n with
  | zero => exact .outOfFuel
  | succ n =>
    rw [statement, Stmt.kinds, List.cons_append, List.append_assoc, List.cons_append, List.append_assoc]
    refine Gets.peekKind.bind ?_
    rintro _ rfl
    exact forStmt_gets h hne hvs he (.deeper hx) a n

theorem definition_gets {v : Variable} {ps : List String} {x : Block α} {b₁ : Body} (h : x.ReadBack)
    (hv : b.scopeOf v.name = v.scope) (hx : x.Legible (.function ps) b₁) {ds : List (Expr α)} {ys : List (Expr Span)}
    (hys : eraseExprs ys = eraseExprs ds) (a : α) (n : Nat) :
    (definition n ys).Gets (.keyword .def_ :: .identifier v.name :: .symbol .lparen ::
      (commaKinds (nameKinds ps) ++ .symbol .rparen :: (x.kinds ++ k :: K))) (k :: K) b (b.refer v.name)
      (·.erase = (Stmt.define a ds v ⟨v.name, ps, x⟩).erase) := by
  cases n with
  | zero => exact .outOfFuel
  | succ n =>
    rw [definition]
    refine (Gets.expect (by simp)).bind fun _ _ => (Gets.identifier (by simp)).bind ?_
    rintro ⟨_, _⟩ rfl
    refine (Gets.resolve v.name).bind ?_
    rintro _ rfl
    refine (Gets.expect (by simp)).bind fun _ _ => (params_gets rfl n ps).bind ?_
    rintro _ rfl
    refine (Gets.expect (by simp)).bind fun _ _ => (Gets.inFunction (h hx n)).bind fun z hz => .pure ?_
    rw [Stmt.erase, Stmt.erase, hys, hv, Function.erase, Function.erase, hz]

theorem decorated_gets {v : Variable} {ps : List String} {x : Block α} {b₁ b₂ : Body} (h : x.ReadBack)
    (hv : b₁.scopeOf v.name = v.scope) (hx : x.Legible (.function ps) b₂) {ds : List (Expr α)}
    (hds : ExprsLegible ds b b₁) (a : α) (n : Nat) :
    (decorated n).Gets (kindsOfDecorators ds ++ .keyword .def_ :: .identifier v.name :: .symbol .lparen ::
      (commaKinds (nameKinds ps) ++ .symbol .rparen :: (x.kinds ++ k :: K))) (k :: K) b (b₁.refer v.name)
      (·.erase = (Stmt.define a ds v ⟨v.name, ps, x⟩).erase) := by
  cases n with
  | zero => exact .outOfFuel
  | succ n =>
    rw [decorated]
    refine (decorators_gets n hds).bind fun ys hys => (Gets.at? _).bind ?_
    rintro _ rfl
    exact definition_gets h hv hx hys a n

/-- The parts of a definition. -/
theorem Stmt.Legible.define_parts {a : α} {ds : List (Expr α)} {v : Variable} {name : String} {ps : List String}
    {x : Block α} (h : (Stmt.define a ds v ⟨name, ps, x⟩).Legible b b') :
    name = v.name ∧ ∃ b₁ b₂, ExprsLegible ds b b₁ ∧ b₁.scopeOf v.name = v.scope ∧ b' = b₁.refer v.name ∧
      x.Legible (.function ps) b₂ := by
  obtain ⟨hnode, hlex⟩ := Bool.and_eq_true_iff.1 h.lexical
  have hname : name = v.name := by
    simp only [Check.lexical, Bool.and_eq_true, beq_iff_eq] at hnode
    exact hnode.1.1
  have hparts : DocScript.Legible (exprsPass .lexical ds && x.passes .lexical) (exprsPass .clear ds && x.passes .clear)
      (ExprsPlaced ds ∧ x.Placed .function) (mentionsOfExprs ds ++ [.occurrence v, .function ⟨name, ps, x⟩]) b b' :=
    ⟨hlex, h.clear, h.placed, h.follows, h.stamped⟩
  obtain ⟨b₁, hds, hl, hc, hp, hf, hs⟩ := hparts.split
  rw [← List.singleton_append, Body.follow?_append, Option.bind_eq_some_iff] at hf
  obtain ⟨b₂, hv, hb'⟩ := hf
  obtain ⟨hscope, rfl⟩ := Body.follow?_occurrence hv
  cases hs ⟨name, ps, x⟩ (by simp) with
  | intro own inner =>
    obtain ⟨b₃, hb₃⟩ := Option.ne_none_iff_exists'.1 own
    exact ⟨hname, b₁, b₃, hds, hscope, (Option.some.inj hb').symm, hl, hc, hp, hb₃, inner⟩

theorem readBack_define (a : α) (ds : List (Expr α)) (v : Variable) (name : String) (ps : List String) {x : Block α}
    (h : x.ReadBack) : (Stmt.define a ds v ⟨name, ps, x⟩).ReadBack := by
  intro b b' hl n k K _
  obtain ⟨rfl, b₁, b₂, hds, hv, rfl, hx⟩ := hl.define_parts
  cases n with
  | zero => exact .outOfFuel
  | succ n =>
    have hdef := decorated_gets (k := k) (K := K) h hv hx hds a n
    rw [statement, Stmt.kinds]
    simp only [List.append_assoc, List.cons_append]
    cases ds with
    | nil =>
      obtain rfl := hds.eq_of_nil
      refine Gets.peekKind.bind ?_
      rintro _ rfl
      exact definition_gets h hv hx rfl a n
    | cons d ds =>
      refine Gets.peekKind.bind ?_
      rintro _ rfl
      exact hdef

/-! ## Attempts -/

/-- The handler is read back from its tokens. -/
theorem handler_gets {x : Option (Handler α)} (hr : ∀ h, x = some h → h.body.ReadBack) {c : Place} (hc : b.place = c)
    (hl : Legible (handlerPasses .lexical x) (handlerPasses .clear x) (HandlerPlaced c x) (mentionsOfHandler x) b b')
    (hk : k ≠ .keyword .except) (n : Nat) :
    (handler n).Gets (kindsOfHandler x ++ k :: K) (k :: K) b b' (eraseHandler · = eraseHandler x) := by
  cases n with
  | zero => exact .outOfFuel
  | succ n =>
    rw [handler]
    obtain _ | ⟨_ | v, y⟩ := x
    · obtain rfl := hl.eq_of_nil
      refine (Gets.eat_other hk).bind ?_
      rintro _ rfl
      exact .pure rfl
    · refine (Gets.eat (by simp)).bind ?_
      rintro _ rfl
      have hb : handlerBinding.Gets (y.kinds ++ k :: K) (y.kinds ++ k :: K) b b (· = none) := by
        rw [y.kinds_eq]
        refine (Gets.eat_other (by simp)).bind ?_
        rintro _ rfl
        exact .pure rfl
      refine hb.bind ?_
      rintro _ rfl
      refine (hr _ rfl (.of_place hl hc) n).bind fun z hz => .pure ?_
      rw [eraseHandler, eraseHandler, hz]
    · obtain ⟨hlex, hclear, hp, hf, hs⟩ := hl
      rw [mentionsOfHandler, Body.follow?_append, Option.bind_eq_some_iff] at hf
      obtain ⟨b₁, hv, hf⟩ := hf
      have hy : y.Legible b₁ b' := by
        refine .of_place ⟨hlex, hclear, hp, hf, fun f hm => hs f ?_⟩ ((Body.place_follow? hv).trans hc)
        exact List.mem_append_right _ hm
      obtain ⟨hscope, rfl⟩ := Body.follow?_occurrence hv
      refine (Gets.eat (by simp)).bind ?_
      rintro _ rfl
      have hb : handlerBinding.Gets (.keyword .as_ :: .identifier v.name :: (y.kinds ++ k :: K)) (y.kinds ++ k :: K) b
          (b.refer v.name) (· = some v) := by
        refine (Gets.eat (by simp)).bind ?_
        rintro _ rfl
        refine (Gets.identifier (by simp)).bind ?_
        rintro ⟨_, _⟩ rfl
        refine (Gets.resolve v.name).bind ?_
        rintro _ rfl
        exact .pure (by rw [hscope])
      refine hb.bind ?_
      rintro _ rfl
      refine (hr _ rfl hy n).bind fun z hz => .pure ?_
      rw [eraseHandler, eraseHandler, hz]

/-- The cleanup is read back from its tokens. -/
theorem cleanup_gets {x : Option (Block α)} (hr : ∀ y, x = some y → y.ReadBack) {c : Place} (hc : b.place = c)
    (hl : Legible (cleanupPasses .lexical x) (cleanupPasses .clear x) (CleanupPlaced c x) (mentionsOfCleanup x) b b')
    (hk : k ≠ .keyword .finally_) (n : Nat) :
    (cleanup n).Gets (kindsOfCleanup x ++ k :: K) (k :: K) b b' (eraseCleanup · = eraseCleanup x) := by
  cases n with
  | zero => exact .outOfFuel
  | succ n =>
    rw [cleanup]
    cases x with
    | none =>
      obtain rfl := hl.eq_of_nil
      refine (Gets.eat_other hk).bind ?_
      rintro _ rfl
      exact .pure rfl
    | some y =>
      refine (Gets.eat (by simp)).bind ?_
      rintro _ rfl
      refine (hr y rfl (.of_place hl hc) n).bind fun z hz => .pure ?_
      rw [eraseCleanup, eraseCleanup, hz]

theorem isNone_eraseHandler (x : Option (Handler α)) : (eraseHandler x).isNone = x.isNone := by
  obtain _ | ⟨v, y⟩ := x <;> rfl

theorem isNone_eraseCleanup (x : Option (Block α)) : (eraseCleanup x).isNone = x.isNone := by
  cases x <;> rfl

theorem readBack_attempt (a : α) {x : Block α} {h : Option (Handler α)} {f : Option (Block α)} (hx : x.ReadBack)
    (hh : ∀ y, h = some y → y.body.ReadBack) (hf : ∀ y, f = some y → y.ReadBack) :
    (Stmt.attempt a x h f).ReadBack := by
  intro b b' hl n k K hk
  rw [endsStmt, Bool.and_eq_true, bne_iff_ne, bne_iff_ne] at hk
  obtain ⟨hlex, hclear, ⟨hsome, hp⟩, hfol, hst⟩ := hl
  obtain ⟨-, hlex⟩ := Bool.and_eq_true_iff.1 hlex
  have hparts : Legible (x.passes .lexical && (handlerPasses .lexical h && cleanupPasses .lexical f))
      (x.passes .clear && (handlerPasses .clear h && cleanupPasses .clear f))
      (x.Placed b.place ∧ (HandlerPlaced b.place h ∧ CleanupPlaced b.place f))
      (x.mentions ++ (mentionsOfHandler h ++ mentionsOfCleanup f)) b b' := ⟨hlex, hclear, hp, hfol, hst⟩
  obtain ⟨b₁, hlx, hparts⟩ := hparts.split
  obtain ⟨b₂, hlh, hlf⟩ := hparts.split
  have h₁ := Body.place_follow? hlx.follows
  have h₂ := (Body.place_follow? hlh.follows).trans h₁
  have htry : ∀ n, (tryStmt n).Gets
      (.keyword .try_ :: (x.kinds ++ (kindsOfHandler h ++ (kindsOfCleanup f ++ k :: K)))) (k :: K) b b'
      (·.erase = (Stmt.attempt a x h f).erase) := by
    intro n
    cases n with
    | zero => exact .outOfFuel
    | succ n =>
      obtain ⟨k₁, K₁, hK₁, hk₁⟩ : ∃ k₁ K₁, kindsOfCleanup f ++ k :: K = k₁ :: K₁ ∧ k₁ ≠ .keyword .except := by
        cases f with
        | none => exact ⟨k, K, rfl, hk.1⟩
        | some y => exact ⟨_, _, rfl, by simp⟩
      obtain ⟨k₀, K₀, hK₀⟩ := exists_cons_of_append_cons (kindsOfHandler h) k₁ K₁
      have hbody := hx hlx n (k := k₀) (K := K₀)
      have hhandler := handler_gets hh h₁ hlh hk₁ n (K := K₁)
      rw [← hK₀, ← hK₁] at hbody
      rw [← hK₁] at hhandler
      rw [tryStmt]
      refine (Gets.advance (by simp)).bind fun start _ => hbody.bind fun y hy => hhandler.bind fun z hz => ?_
      refine (cleanup_gets hf h₂ hlf hk.2 n).bind fun w hw => ?_
      have hnone : (z.isNone && w.isNone) = false := by
        rw [← isNone_eraseHandler, hz, isNone_eraseHandler, ← isNone_eraseCleanup, hw, isNone_eraseCleanup]
        exact Bool.and_eq_false_iff.2 (hsome.imp Option.isNone_eq_false_iff.2 Option.isNone_eq_false_iff.2)
      simp only [hnone, Bool.false_eq_true, if_false]
      refine .pure ?_
      rw [Stmt.erase, Stmt.erase, hy, hz, hw]
  cases n with
  | zero => exact .outOfFuel
  | succ n =>
    rw [statement, Stmt.kinds, List.cons_append, List.append_assoc, List.append_assoc]
    refine Gets.peekKind.bind ?_
    rintro _ rfl
    exact htry n

/-! ## All statements -/

mutual

/-- Every statement is read back from its tokens. -/
theorem Stmt.readBack : ∀ s : Stmt α, s.ReadBack
  | .expr a e => readBack_expr a e
  | .assign a ts vs => readBack_assign a ts vs
  | .define a ds v ⟨name, ps, x⟩ => readBack_define a ds v name ps x.readBack
  | .ifElse a e y z => readBack_ifElse a e y.readBack z.readBack
  | .whileLoop a e x => readBack_whileLoop a e x.readBack
  | .forLoop a vs e x => readBack_forLoop a vs e x.readBack
  | .attempt a x h f => readBack_attempt a x.readBack (readBack_handler h) (readBack_cleanup f)
  | .raise a e => readBack_raise a e
  | .ret a vs => readBack_ret a vs
  | .break_ a => readBack_break a
  | .continue_ a => readBack_continue a
  | .declare a s ns => readBack_declare a s ns
  | .bad _ _ => fun hl => nomatch hl.lexical

theorem readBack_stmts : ∀ ss : List (Stmt α), ∀ s ∈ ss, s.ReadBack
  | [] => nofun
  | s :: ss => List.forall_mem_cons.2 ⟨s.readBack, readBack_stmts ss⟩

theorem Block.readBack : ∀ x : Block α, x.ReadBack
  | ⟨_, ss⟩ => Block.readBack_of (readBack_stmts ss)

theorem readBack_handler : ∀ (x : Option (Handler α)) (h : Handler α), x = some h → h.body.ReadBack
  | some ⟨_, x⟩, _, hx => by
    obtain rfl := Option.some.inj hx
    exact x.readBack

theorem readBack_cleanup : ∀ (x : Option (Block α)) (y : Block α), x = some y → y.ReadBack
  | some x, _, hx => by
    obtain rfl := Option.some.inj hx
    exact x.readBack

end

end DocScript
