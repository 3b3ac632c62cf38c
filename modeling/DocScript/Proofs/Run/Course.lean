import DocScript.Proofs.Run.Growth
import DocScript.Proofs.Run.Moments

/-!
# The course of a run

A task does its work by starting others, one after the other, and by operations on the machine between
them. Each of them starts on the machine on which the work before it ended. This is its `Course`, and
`Moment.course` says that every task has one : with the tasks that it starts, in that order, from the
machine that it starts on to the one when it is over (`Moment.final`).

The operations of a task itself either update the machine, without making a doc, or make the one doc that
the task is there to make (`Calls.made`).
-/

namespace DocScript

variable {σ β γ ε τ : Type}

/-- From one machine to another by operations of `D` and by the items of a list, one after the other. -/
inductive Course (start final : τ → Machine σ) (D : Machine σ → Machine σ → Prop) :
    Machine σ → List τ → Machine σ → Prop
  | nil (m : Machine σ) : Course start final D m [] m
  | step {m m₁ m' : Machine σ} {xs : List τ} : D m m₁ → Course start final D m₁ xs m' →
    Course start final D m xs m'
  | item {m m' : Machine σ} {x : τ} {xs : List τ} : start x = m → Course start final D (final x) xs m' →
    Course start final D m (x :: xs) m'

namespace Course

variable {start final : τ → Machine σ} {D : Machine σ → Machine σ → Prop} {a b : Machine σ} {x : τ}
  {xs ys : List τ}

theorem append {a₁ : Machine σ} (h : Course start final D a xs a₁) (h' : Course start final D a₁ ys b) :
    Course start final D a (xs ++ ys) b := by
  induction h with
  | nil => exact h'
  | step hd _ ih => exact .step hd (ih h')
  | item hs _ ih => exact .item hs (ih h')

/-- The rest of a course, behind one of its items. -/
theorem behind (h : Course start final D a (xs ++ x :: ys) b) : Course start final D (final x) ys b := by
  generalize hl : xs ++ x :: ys = l at h
  induction h generalizing xs with
  | nil m => simp at hl
  | step _ _ ih => exact ih hl
  | item hs h ih =>
    rcases xs with _ | ⟨_, xs⟩
    · obtain ⟨rfl, rfl⟩ := List.cons.inj hl
      exact h
    · exact ih (List.cons.inj hl).2

/-- The items of a course can be given in another form. -/
theorem map {start' final' : γ → Machine σ} {g : τ → γ} (hs : ∀ x, start' (g x) = start x)
    (hf : ∀ x, final' (g x) = final x) (h : Course start final D a xs b) :
    Course start' final' D a (xs.map g) b := by
  induction h with
  | nil m => exact .nil m
  | step hd _ ih => exact .step hd ih
  | @item _ _ x _ hx _ ih => exact .item ((hs x).trans hx) (hf x ▸ ih)

/-- If all items of a course and all operations between them stay in a preorder, so does the course, up to
each item and from there. -/
theorem related {R : Machine σ → Machine σ → Prop} (refl : ∀ m, R m m)
    (trans : ∀ {a b c}, R a b → R b c → R a c) (hD : ∀ {a b}, D a b → R a b)
    (h : Course start final D a xs b) (hx : ∀ x ∈ xs, R (start x) (final x)) :
    R a b ∧ ∀ x ∈ xs, R a (start x) ∧ R (final x) b := by
  induction h with
  | nil m => exact ⟨refl m, by simp⟩
  | step hd _ ih =>
    obtain ⟨rest, items⟩ := ih hx
    have first := hD hd
    exact ⟨trans first rest, fun x hx => ⟨trans first (items x hx).1, (items x hx).2⟩⟩
  | item hs _ ih =>
    obtain ⟨first, hx⟩ := List.forall_mem_cons.1 hx
    obtain ⟨rest, items⟩ := ih hx
    subst hs
    refine ⟨trans first rest, List.forall_mem_cons.2 ⟨⟨refl _, rest⟩, fun x hx => ?_⟩⟩
    exact ⟨trans first (items x hx).1, (items x hx).2⟩

end Course

namespace Calls

open Machine

/-- The machine when the task is over, whatever came of it. -/
def ends (k : Calls σ) : Task → Machine σ → Machine σ
  | .expr e => stateAfter (k.eval e)
  | .each es => stateAfter (k.evalEach es)
  | .spread es => stateAfter (k.evalSpread es)
  | .entries es => stateAfter (k.evalEntries es)
  | .targets ts values => stateAfter (k.assignTargets ts values)
  | .definition ds f => stateAfter (k.evalDefinition ds f)
  | .decoration f ds => stateAfter (k.decorate f ds)
  | .stmt s => stateAfter (k.exec s)
  | .stmts ss => stateAfter (k.execStmts ss)
  | .rounds c b n => stateAfter (Exec.whileLoop (k.eval c) (k.execBlock b) n)
  | .items vs b pairs => stateAfter (Exec.forLoop vs (k.execBlock b) pairs)
  | .call callee args => stateAfter (k.call callee args)
  | .body f args => stateAfter (k.callFunction f args)
  | .action a => stateAfter (perform k.call a)
  | .program p => fun m => (runProgram k p m).2

/-- The doc that a task on `m` makes itself, with the machine that it makes it on. -/
def made (k : Calls σ) (m : Machine σ) : Task → Option (Doc × Machine σ)
  | .expr (.list _ is) =>
    match k.evalEach is m with
    | .ok vs a => some (arrayDoc a.arrayProto vs, a)
    | .error _ _ => none
  | .expr (.dict _ es) =>
    match k.evalEntries es m with
    | .ok kvs a => some (Doc.empty.insertMany kvs, a)
    | .error _ _ => none
  | .expr (.protoDict _ p es) =>
    match k.eval p m with
    | .ok proto m₁ =>
      match proto with
      | .doc _ | .box _ _ =>
        match k.evalEntries es m₁ with
        | .ok kvs a => some ((Doc.withProto proto).insertMany kvs, a)
        | .error _ _ => none
      | _ => none
    | .error _ _ => none
  | .action (.newList items _) => some (arrayDoc m.arrayProto items, m)
  | _ => none

/-- The four ways in which a task makes a doc, with what was evaluated before. -/
inductive Builds (k : Calls σ) (m : Machine σ) : Task → Doc → Machine σ → Prop
  | list {ann : Unit} {is : List (Expr Unit)} {vs : List Value} {a : Machine σ} :
    k.evalEach is m = .ok vs a → Builds k m (.expr (.list ann is)) (arrayDoc a.arrayProto vs) a
  | dict {ann : Unit} {es : List (Expr Unit × Expr Unit)} {kvs : List (Value × Value)} {a : Machine σ} :
    k.evalEntries es m = .ok kvs a → Builds k m (.expr (.dict ann es)) (Doc.empty.insertMany kvs) a
  | protoDict {ann : Unit} {p : Expr Unit} {es : List (Expr Unit × Expr Unit)} {proto : Value}
      {m₁ : Machine σ} {kvs : List (Value × Value)} {a : Machine σ} :
    k.eval p m = .ok proto m₁ → ((∃ id, proto = .doc id) ∨ ∃ id x, proto = .box id x) →
      k.evalEntries es m₁ = .ok kvs a →
        Builds k m (.expr (.protoDict ann p es)) ((Doc.withProto proto).insertMany kvs) a
  | newList {items : List Value} {next : Value → Action} :
    Builds k m (.action (.newList items next)) (arrayDoc m.arrayProto items) m

theorem builds_of_made {k : Calls σ} {m a : Machine σ} {t : Task} {d : Doc}
    (h : k.made m t = some (d, a)) : k.Builds m t d a := by
  unfold made at h
  split at h
  · split at h
    · next hr =>
      obtain ⟨rfl, rfl⟩ := Prod.mk.inj (Option.some.inj h)
      exact .list hr
    · simp at h
  · split at h
    · next hr =>
      obtain ⟨rfl, rfl⟩ := Prod.mk.inj (Option.some.inj h)
      exact .dict hr
    · simp at h
  · split at h
    · next proto m₁ hp =>
      cases proto with
      | doc _ | box _ _ =>
        dsimp only at h
        split at h
        · next hr =>
          obtain ⟨rfl, rfl⟩ := Prod.mk.inj (Option.some.inj h)
          exact .protoDict hp (by simp) hr
        · simp at h
      | _ => simp at h
    · simp at h
  · obtain ⟨rfl, rfl⟩ := Prod.mk.inj (Option.some.inj h)
    exact .newList
  · simp at h

/-- An operation of a task itself. -/
def Does (k : Calls σ) (m : Machine σ) (t : Task) (a b : Machine σ) : Prop :=
  a.Updates b ∨ ∃ d, k.made m t = some (d, a) ∧ b = stateAfter (newDoc d) a

/-- The course of a task on `m` that starts the tasks `ps`. -/
abbrev Runs (k : Calls σ) (m : Machine σ) (t : Task) :
    Machine σ → List (Task × Machine σ) → Machine σ → Prop :=
  Course Prod.snd (fun p => k.ends p.1 p.2) (k.Does m t)

/-! ## Sequences -/

variable {k : Calls σ} {m a a' : Machine σ} {t u : Task}

theorem runs_nil (h : a.Updates a') : k.Runs m t a [] a' := .step (Or.inl h) (.nil a')

/-- A task that is started, and then what follows on its result. -/
theorem runs_bind {x : EStateM ε (Machine σ) γ} {f : γ → EStateM ε (Machine σ) β}
    {next : γ → Machine σ → List (Task × Machine σ)} (hu : k.ends u a = stateAfter x a)
    (hf : ∀ c a₁, x a = .ok c a₁ → k.Runs m t a₁ (next c a₁) (stateAfter (f c) a₁)) :
    k.Runs m t a ((u, a) :: andThen x a next) (stateAfter (x >>= f) a) := by
  refine .item rfl ?_
  change k.Runs m t (k.ends u a) _ _
  rw [hu]
  unfold andThen
  cases hx : x a with
  | ok c a₁ =>
    rw [stateAfter_of_ok hx, stateAfter_bind_of_ok hx]
    exact hf c a₁ hx
  | error e a₁ =>
    rw [stateAfter_of_error hx, stateAfter_bind_of_error hx]
    exact .nil a₁

/-- An operation, and then what follows on its result. -/
theorem runs_updating {x : EStateM ε (Machine σ) γ} {f : γ → EStateM ε (Machine σ) β}
    {next : γ → Machine σ → List (Task × Machine σ)} (hx : Updating x)
    (hf : ∀ c a₁, x a = .ok c a₁ → k.Runs m t a₁ (next c a₁) (stateAfter (f c) a₁)) :
    k.Runs m t a (andThen x a next) (stateAfter (x >>= f) a) := by
  refine .step (Or.inl (hx a)) ?_
  unfold andThen
  cases hr : x a with
  | ok c a₁ =>
    rw [stateAfter_of_ok hr, stateAfter_bind_of_ok hr]
    exact hf c a₁ hr
  | error e a₁ =>
    rw [stateAfter_of_error hr, stateAfter_bind_of_error hr]
    exact .nil a₁

/-- The last task that is started, and operations behind it. -/
theorem runs_last {x : EStateM ε (Machine σ) γ} {f : γ → EStateM ε (Machine σ) β}
    (hu : k.ends u a = stateAfter x a)
    (hf : ∀ c a₁, x a = .ok c a₁ → k.Runs m t a₁ [] (stateAfter (f c) a₁)) :
    k.Runs m t a [(u, a)] (stateAfter (x >>= f) a) := by
  have h : k.Runs m t a ((u, a) :: andThen x a fun _ _ => []) (stateAfter (x >>= f) a) := runs_bind hu hf
  unfold andThen at h
  cases hx : x a <;> simpa only [hx] using h

theorem runs_only {x : EStateM ε (Machine σ) β} (hu : k.ends u a = stateAfter x a) :
    k.Runs m t a [(u, a)] (stateAfter x a) :=
  .item rfl (hu ▸ .nil _)

theorem andThen_lift (x : Eval σ β) (m : Machine σ) (next : β → Machine σ → List (Task × Machine σ)) :
    andThen (Exec.lift x) m next = andThen x m next := by
  unfold andThen Exec.lift
  cases x m <;> rfl

theorem runs_bind_lift {x : Eval σ γ} {f : γ → Exec σ β}
    {next : γ → Machine σ → List (Task × Machine σ)} (hu : k.ends u a = stateAfter x a)
    (hf : ∀ c a₁, k.Runs m t a₁ (next c a₁) (stateAfter (f c) a₁)) :
    k.Runs m t a ((u, a) :: andThen x a next) (stateAfter (Exec.lift x >>= f) a) := by
  rw [← andThen_lift]
  exact runs_bind (hu.trans (stateAfter_lift x a).symm) fun c a₁ _ => hf c a₁

theorem runs_last_lift {x : Eval σ γ} {f : γ → Exec σ β} (hu : k.ends u a = stateAfter x a)
    (hf : ∀ c a₁, k.Runs m t a₁ [] (stateAfter (f c) a₁)) :
    k.Runs m t a [(u, a)] (stateAfter (Exec.lift x >>= f) a) :=
  runs_last (hu.trans (stateAfter_lift x a).symm) fun c a₁ _ => hf c a₁

/-! ## Expressions -/

theorem runs_made {d : Doc} (h : k.made m t = some (d, a)) :
    k.Runs m t a [] (stateAfter (newDoc d : Eval σ Value) a) :=
  .step (Or.inr ⟨d, h, rfl⟩) (.nil _)

theorem exprParts_runs (m : Machine σ) (e : Expr Unit) :
    k.Runs m (.expr e) m (k.exprParts m e) (stateAfter (k.eval e) m) := by
  cases e with
  | none _ | bool _ _ | number _ _ | str _ _ => exact .nil m
  | var _ v => exact runs_nil (Updating.lookup v m)
  | lambda _ f => exact runs_nil (Updating.newFunction f m)
  | binary _ op l r =>
    rw [eval, exprParts]
    refine runs_bind rfl fun a m₁ _ => ?_
    split
    · exact .nil m₁
    · exact runs_last rfl fun b m₂ _ => runs_nil (Updating.ofExcept _ m₂)
  | unary _ op e =>
    rw [eval, exprParts]
    exact runs_last rfl fun a m₁ _ => runs_nil (Updating.ofExcept _ m₁)
  | call _ c as =>
    rw [eval, exprParts]
    refine runs_bind rfl fun f m₁ _ => ?_
    refine runs_bind rfl fun args m₂ _ => ?_
    exact runs_last rfl fun vs m₃ _ => .nil m₃
  | index _ o i =>
    rw [eval, exprParts]
    refine runs_bind rfl fun object m₁ _ => ?_
    exact runs_last rfl fun key m₂ _ => runs_nil (Updating.index k.host object key m₂)
  | arrow _ o i =>
    rw [eval, exprParts]
    refine runs_bind rfl fun object m₁ _ => ?_
    exact runs_last rfl fun key m₂ _ => runs_nil (Updating.arrow k.host object key m₂)
  | protoDict ann p es =>
    rw [eval, exprParts]
    refine runs_bind rfl fun proto m₁ hp => ?_
    cases proto with
    | doc _ | box _ _ =>
      refine runs_last rfl fun kvs m₂ he => runs_made ?_
      simp only [made, hp, he]
    | _ => exact runs_nil (Updating.fail _ m₁)
  | list ann is =>
    rw [eval, exprParts]
    refine runs_last rfl fun vs m₁ he => runs_made ?_
    simp only [made, he]
  | dict ann es =>
    rw [eval, exprParts]
    refine runs_last rfl fun kvs m₁ he => runs_made ?_
    simp only [made, he]

theorem spreadParts_runs (m : Machine σ) (es : List (Expr Unit)) :
    k.Runs m (.spread es) m (k.spreadParts m es) (stateAfter (k.evalSpread es) m) := by
  unfold spreadParts
  split
  · exact .nil m
  · -- all values of the call count, so nothing follows on it
    rw [evalSpread]
    refine runs_bind rfl fun f m₁ _ => ?_
    refine runs_bind rfl fun args m₂ _ => ?_
    exact runs_only rfl
  · next e es hcall =>
    have several : k.evalSpread (e :: es) = do
        let v ← k.eval e
        let vs ← k.evalSpread es
        return v :: vs := by
      rw [evalSpread]
      exact fun ann c as he hes => hcall ann c as he hes
    rw [several]
    refine runs_bind rfl fun v m₁ _ => ?_
    exact runs_last rfl fun vs m₂ _ => .nil m₂

theorem targetParts_runs (m : Machine σ) (ts : List (Expr Unit)) (values : List Value) (t : Expr Unit) :
    k.Runs m (.targets (t :: ts) values) m
      (k.targetParts m (Value.first values) (fun m => [(.targets ts values.tail, m)]) t)
      (stateAfter (k.assignTargets (t :: ts) values) m) := by
  cases t with
  | var _ v =>
    rw [assignTargets]
    exact runs_updating (.assign v _) fun _ m₁ _ => runs_only rfl
  | index _ o i =>
    rw [assignTargets]
    refine runs_bind rfl fun object m₁ _ => ?_
    refine runs_bind rfl fun key m₂ _ => ?_
    exact runs_updating (.setIndex k.host object key _) fun _ m₃ _ => runs_only rfl
  | _ => exact .nil m

/-! ## Statements -/

theorem ends_block (k : Calls σ) (b : Block Unit) (m : Machine σ) :
    k.ends (.stmts b.stmts) m = stateAfter (k.execBlock b) m := by
  cases b
  rfl

/-- Behind the block in front of it, a handler does what it has to. -/
theorem handlerParts_runs (body : Exec σ Unit) (a : Machine σ) (h : Option (Handler Unit)) :
    k.Runs m t (stateAfter body a) (handlerParts h (body a)) (stateAfter (k.execHandler body h) a) := by
  rcases hr : body a with ⟨_, a₁⟩ | ⟨_ | _ | _ | (payload | _), a₁⟩
  case error.fault.raised =>
    rw [stateAfter_of_error hr]
    rcases h with _ | ⟨_ | v, b⟩
    · rw [execHandler, stateAfter_of_error hr]
      exact .nil a₁
    · have handled : stateAfter (k.execHandler body (some ⟨none, b⟩)) a = stateAfter (k.execBlock b) a₁ := by
        simp only [stateAfter, execHandler, Exec.handling, hr]
      rw [handled]
      exact runs_only (k.ends_block b a₁)
    · have handled : stateAfter (k.execHandler body (some ⟨some v, b⟩)) a =
          stateAfter (do Exec.lift (Machine.bind v payload); k.execBlock b) a₁ := by
        simp only [stateAfter, execHandler, Exec.handling, hr]
      rw [handled, handlerParts, ← andThen_lift]
      exact runs_updating (.lift (.bindVariable v payload)) fun _ a₂ _ => runs_only (k.ends_block b a₂)
  -- nothing was raised, so the handler has nothing to do
  all_goals
    have kept : k.execHandler body h a = body a := by
      rcases h with _ | ⟨_ | v, b⟩ <;> simp only [execHandler, Exec.handling, hr]
    rw [stateAfter, stateAfter, kept]
    exact .nil _

/-- Behind all in front of it, a cleanup does what it has to. -/
theorem cleanupParts_runs (body : Exec σ Unit) (a : Machine σ) (c : Option (Block Unit)) :
    k.Runs m t (stateAfter body a) (cleanupParts c (body a)) (stateAfter (k.execCleanup body c) a) := by
  cases c with
  | none =>
    rw [execCleanup]
    rcases body a with ⟨_, a₁⟩ | ⟨_ | _ | _ | (_ | _), a₁⟩ <;> exact .nil _
  | some b =>
    rcases hr : body a with ⟨_, a₁⟩ | ⟨_ | _ | _ | (payload | _), a₁⟩
    case ok =>
      have cleaned : stateAfter (k.execCleanup body (some b)) a = stateAfter (k.execBlock b) a₁ := by
        simp only [stateAfter, execCleanup, Exec.cleaning, hr]
      rw [cleaned, stateAfter_of_ok hr]
      exact runs_only (k.ends_block b a₁)
    case error.fault.outOfFuel =>
      have kept : stateAfter (k.execCleanup body (some b)) a = a₁ := by
        simp only [stateAfter, execCleanup, Exec.cleaning, hr]
      rw [kept, stateAfter_of_error hr]
      exact .nil a₁
    all_goals
      have cleaned : stateAfter (k.execCleanup body (some b)) a = stateAfter (k.execBlock b) a₁ := by
        simp only [stateAfter, execCleanup, Exec.cleaning, hr]
        rcases k.execBlock b a₁ with _ | _ <;> rfl
      rw [cleaned, stateAfter_of_error hr]
      exact runs_only (k.ends_block b a₁)

theorem attemptParts_runs (m : Machine σ) (ann : Unit) (b : Block Unit) (h : Option (Handler Unit))
    (c : Option (Block Unit)) :
    k.Runs m (.stmt (.attempt ann b h c)) m (k.stmtParts m (.attempt ann b h c))
      (stateAfter (k.exec (.attempt ann b h c)) m) := by
  rw [exec, stmtParts]
  refine .item rfl ?_
  change k.Runs _ _ (k.ends (.stmts b.stmts) m) _ _
  rw [ends_block]
  exact (handlerParts_runs _ m h).append (cleanupParts_runs _ m c)

theorem stmtParts_runs (m : Machine σ) : ∀ s : Stmt Unit,
    k.Runs m (.stmt s) m (k.stmtParts m s) (stateAfter (k.exec s) m)
  | .expr _ e => by
    rw [exec, stmtParts]
    exact runs_last_lift rfl fun _ m₁ => .nil m₁
  | .raise _ e => by
    rw [exec, stmtParts]
    exact runs_last_lift rfl fun _ m₁ => .nil m₁
  | .ret _ es => by
    rw [exec, stmtParts]
    exact runs_last_lift rfl fun _ m₁ => .nil m₁
  | .assign _ ts es => by
    rw [exec, stmtParts]
    refine runs_bind_lift rfl fun vs m₁ => ?_
    rw [stateAfter_lift]
    exact runs_only rfl
  | .define _ ds v f => by
    rw [exec, stmtParts]
    exact runs_last_lift rfl fun value m₁ => runs_nil (Updating.lift (.bindVariable v value) m₁)
  | .ifElse _ c y n => by
    rw [exec, stmtParts]
    refine runs_bind_lift rfl fun v m₁ => ?_
    cases v.truthy
    · exact runs_only (k.ends_block n m₁)
    · exact runs_only (k.ends_block y m₁)
  | .whileLoop _ c b => by
    rw [exec, stmtParts]
    exact runs_only rfl
  | .forLoop _ vs e b => by
    rw [exec, stmtParts]
    refine runs_bind_lift rfl fun iterable m₁ => ?_
    rw [← andThen_lift]
    exact runs_updating (.lift (.pairs iterable)) fun pairs m₂ _ => runs_only rfl
  | .attempt ann b h c => attemptParts_runs m ann b h c
  | .break_ _ | .continue_ _ | .declare _ _ _ | .bad _ _ => .nil m

/-- The round of a loop, and what follows if the loop goes on. -/
theorem roundParts_runs {b : Block Unit} {rest : Task} {x : Exec σ Unit}
    (hr : ∀ a, k.ends rest a = stateAfter x a) (a : Machine σ) :
    k.Runs m t a (k.roundParts b rest a)
      (stateAfter (do if ← Exec.round (k.execBlock b) then x) a) := by
  have round : stateAfter (Exec.round (k.execBlock b)) a = stateAfter (k.execBlock b) a := by
    unfold stateAfter Exec.round
    rcases k.execBlock b a with _ | ⟨_ | _ | _ | _, _⟩ <;> rfl
  refine runs_bind ((k.ends_block b a).trans round.symm) fun goOn a₁ _ => ?_
  cases goOn
  · exact .nil a₁
  · exact runs_only (hr a₁)

/-! ## Natives of the host -/

theorem actionParts_runs (m : Machine σ) (a : Action) :
    k.Runs m (.action a) m (k.actionParts m a) (stateAfter (perform k.call a) m) := by
  cases a with
  | done _ => exact .nil m
  | raise _ => exact .nil m
  | call callee args next =>
    rw [actionParts]
    refine .item rfl ?_
    change k.Runs _ _ (stateAfter (k.call callee args) m) _ _
    rcases hr : k.call callee args m with ⟨vs, m₁⟩ | ⟨payload | _, m₁⟩
    · have next : stateAfter (perform k.call (.call callee args next)) m =
          stateAfter (perform k.call (next (.ok vs))) m₁ := by
        simp only [stateAfter, perform, hr]
      rw [next, stateAfter_of_ok hr]
      exact runs_only rfl
    · have next : stateAfter (perform k.call (.call callee args next)) m =
          stateAfter (perform k.call (next (.error payload))) m₁ := by
        simp only [stateAfter, perform, hr]
      rw [next, stateAfter_of_error hr]
      exact runs_only rfl
    · have next : stateAfter (perform k.call (.call callee args next)) m = m₁ := by
        simp only [stateAfter, perform, hr]
      rw [next, stateAfter_of_error hr]
      exact .nil m₁
  | newList items next =>
    refine .step (Or.inr ⟨_, rfl, rfl⟩) ?_
    exact runs_only rfl
  | display v next => exact runs_only rfl

/-! ## Tasks -/

theorem bodyParts_runs (m : Machine σ) (f : Closure) (args : List Value) :
    k.Runs m (.body f args) m (k.parts m (.body f args)) (stateAfter (k.callFunction f args) m) := by
  rw [parts]
  by_cases hd : m.maxDepth ≤ m.depth
  · rw [if_pos hd, stateAfter_of_error (by rw [callFunction, if_pos hd]; rfl)]
    exact .nil m
  · rw [if_neg hd]
    refine .step (Or.inl (updates_enter f args m)) (.item rfl ?_)
    change k.Runs _ _ (k.ends (.stmts f.body.stmts) (enter f args m)) _ _
    rw [ends_block]
    -- leaving the function changes the control state only
    unfold stateAfter callFunction
    rw [if_neg hd]
    rcases k.execBlock f.body (enter f args m) with _ | ⟨_ | _ | _ | _, _⟩ <;>
      exact runs_nil (updates_of_eq rfl rfl rfl rfl rfl)

theorem programParts_runs (m : Machine σ) (s : Stmt Unit) (ss : List (Stmt Unit)) :
    k.Runs m (.program (s :: ss)) m (k.parts m (.program (s :: ss))) (runProgram k (s :: ss) m).2 := by
  rw [parts, runProgram]
  refine .item rfl ?_
  change k.Runs _ _ (stateAfter (k.exec s) m) _ _
  rcases hr : k.exec s m with ⟨_, m₁⟩ | ⟨_ | _ | _ | (payload | _), m₁⟩
  case ok =>
    rw [stateAfter_of_ok hr]
    exact .item rfl (.nil _)
  case error.fault.raised =>
    rw [stateAfter_of_error hr]
    exact runs_nil (updates_of_eq rfl rfl rfl rfl rfl)
  case error.fault.outOfFuel =>
    rw [stateAfter_of_error hr]
    exact .nil m₁
  all_goals
    rw [stateAfter_of_error hr]
    exact .item rfl (.nil _)

theorem parts_runs (m : Machine σ) : ∀ t : Task, (∀ callee args, t ≠ .call callee args) →
    k.Runs m t m (k.parts m t) (k.ends t m)
  | .expr e, _ => exprParts_runs m e
  | .each [], _ => .nil m
  | .each (e :: es), _ => by
    rw [parts, ends, evalEach]
    refine runs_bind rfl fun _ m₁ _ => ?_
    exact runs_last rfl fun _ m₂ _ => .nil m₂
  | .spread es, _ => spreadParts_runs m es
  | .entries [], _ => .nil m
  | .entries ((ek, ev) :: es), _ => by
    rw [parts, ends, evalEntries]
    refine runs_bind rfl fun _ m₁ _ => ?_
    refine runs_bind rfl fun _ m₂ _ => ?_
    exact runs_last rfl fun _ m₃ _ => .nil m₃
  | .targets [] _, _ => .nil m
  | .targets (t :: ts) values, _ => targetParts_runs m ts values t
  | .definition ds f, _ => by
    rw [parts, ends, evalDefinition]
    refine runs_bind rfl fun values m₁ _ => ?_
    exact runs_updating (.newFunction f) fun v m₂ _ => runs_only rfl
  | .decoration _ [], _ => .nil m
  | .decoration f (d :: ds), _ => by
    rw [parts, ends, decorate]
    refine runs_bind rfl fun v m₁ _ => ?_
    split
    · exact runs_last rfl fun _ m₂ _ => .nil m₂
    · exact .nil m₁
  | .stmt s, _ => stmtParts_runs m s
  | .stmts [], _ => .nil m
  | .stmts (s :: ss), _ => by
    rw [parts, ends, execStmts]
    exact runs_bind rfl fun _ m₁ _ => runs_only rfl
  | .rounds _ _ 0, _ => .nil m
  | .rounds c b (n + 1), _ => by
    rw [parts, ends, Exec.whileLoop]
    refine runs_bind_lift rfl fun v m₁ => ?_
    split
    · exact roundParts_runs (fun _ => rfl) m₁
    · exact .nil m₁
  | .items _ _ [], _ => .nil m
  | .items vs body ((a, b) :: pairs), _ => by
    rw [parts, ends, Exec.forLoop, ← andThen_lift]
    exact runs_updating (.lift (.assignEach vs [a, b])) fun _ m₁ _ => roundParts_runs (fun _ => rfl) m₁
  | .call callee args, ht => absurd rfl (ht callee args)
  | .body f args, _ => bodyParts_runs m f args
  | .action a, _ => actionParts_runs m a
  | .program [], _ => .nil m
  | .program (s :: ss), _ => programParts_runs m s ss

end Calls

namespace Moment

variable {host : Host σ}

/-- The machine when the task is over. -/
def final (host : Host σ) (x : Moment σ) : Machine σ := (Calls.within host x.fuel).ends x.task x.machine

/-- An operation of the task itself. -/
def Does (host : Host σ) (x : Moment σ) : Machine σ → Machine σ → Prop :=
  (Calls.within host x.fuel).Does x.machine x.task

theorem call_course (n : Nat) (callee : Value) (args : List Value) (m : Machine σ) :
    Course Moment.machine (final host) (Does host ⟨n, .call callee args, m⟩) m
      (started host ⟨n, .call callee args, m⟩) (final host ⟨n, .call callee args, m⟩) := by
  have update (x : Eval σ Value) (hx : Updating x) :
      Course Moment.machine (final host) (Does host ⟨n, .call callee args, m⟩) m []
        (stateAfter (do let v ← x; return [v]) m) :=
    .step (Or.inl (hx.bind (fun v => .pure [v]) m)) (.nil _)
  cases n with
  | zero => exact .nil m
  | succ n =>
    cases callee with
    | func id f => exact .item rfl (.nil _)
    | method id receiver f => exact .item rfl (.nil _)
    | native id f =>
      cases f with
      | println => exact update _ (.println args)
      | len => exact update _ (.len args)
      | push => exact update _ (.push args)
      | host name =>
        have passed : final host ⟨n + 1, .call (.native id (.host name)) args, m⟩ =
            final host ⟨n, .action (host.native name args), m⟩ := stateAfter_bind_pure _ _
        rw [passed]
        exact .item rfl (.nil _)
    | _ => exact .nil m

/-- A task passes, from the machine that it starts on to the one that it ends on, through the tasks that
it starts. -/
theorem course (host : Host σ) (x : Moment σ) :
    Course Moment.machine (final host) (x.Does host) x.machine (x.started host) (x.final host) := by
  obtain ⟨n, t, m⟩ := x
  by_cases ht : ∃ callee args, t = .call callee args
  · obtain ⟨callee, args, rfl⟩ := ht
    exact call_course n callee args m
  · have ht : ∀ callee args, t ≠ .call callee args := by simpa using ht
    rw [started_of_ne_call ht]
    exact Course.map (fun _ => rfl) (fun _ => rfl) (Calls.parts_runs (k := .within host n) m t ht)

end Moment

end DocScript
