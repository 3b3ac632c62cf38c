import DocScript.Proofs.Run.Moments

/-!
# Tasks inside tasks

A task starts others, these start others again, and so on, but never without end (`Moment.acc_starts`) :
an expression starts its operands, a loop has fewer rounds left, a native of the host has less to do,
and a call uses fuel up. So what holds of a task whenever it holds of those that it starts holds of all
tasks.
-/

set_option linter.unusedSectionVars false

namespace DocScript

variable {σ β ε : Type}

/-- Behind `x` there is no endless chain of tasks that start each other. -/
abbrev Moment.Founded (host : Host σ) (x : Moment σ) : Prop := Acc (fun y x => Moment.Starts host x y) x

/-- The same of a task, on whatever machine. -/
def Task.Founded (host : Host σ) (n : Nat) (t : Task) : Prop :=
  ∀ m : Machine σ, Moment.Founded host ⟨n, t, m⟩

/-- The same of several tasks. -/
def PartsFounded (host : Host σ) (n : Nat) (ps : List (Task × Machine σ)) : Prop :=
  ∀ p ∈ ps, Moment.Founded host ⟨n, p.1, p.2⟩

variable {host : Host σ} {n : Nat} {m : Machine σ} {t : Task} {ps : List (Task × Machine σ)}

theorem partsFounded_nil : PartsFounded host n [] := by simp [PartsFounded]

theorem partsFounded_cons (ht : t.Founded host n) (hps : PartsFounded host n ps) :
    PartsFounded host n ((t, m) :: ps) :=
  List.forall_mem_cons.2 ⟨ht m, hps⟩

theorem partsFounded_singleton (ht : t.Founded host n) : PartsFounded host n [(t, m)] :=
  partsFounded_cons ht partsFounded_nil

theorem partsFounded_andThen {x : EStateM ε (Machine σ) β} {next : β → Machine σ → List (Task × Machine σ)}
    (hn : ∀ b m', PartsFounded host n (next b m')) : PartsFounded host n (andThen x m next) := by
  unfold andThen
  split
  · exact hn _ _
  · exact partsFounded_nil

/-- A task, and then what follows on its result. -/
theorem partsFounded_then {x : EStateM ε (Machine σ) β} {next : β → Machine σ → List (Task × Machine σ)}
    (ht : t.Founded host n) (hn : ∀ b m', PartsFounded host n (next b m')) :
    PartsFounded host n ((t, m) :: andThen x m next) :=
  partsFounded_cons ht (partsFounded_andThen hn)

theorem founded_of_parts (ht : ∀ callee args, t ≠ .call callee args)
    (h : ∀ m, PartsFounded host n ((Calls.within host n).parts m t)) : t.Founded host n := by
  refine fun m => .intro _ fun y hy => ?_
  rw [Moment.Starts, Moment.started_of_ne_call ht] at hy
  obtain ⟨p, hp, rfl⟩ := List.mem_map.1 hy
  exact h m p hp

theorem partsFounded_parts (h : t.Founded host n) (ht : ∀ callee args, t ≠ .call callee args) (m : Machine σ) :
    PartsFounded host n ((Calls.within host n).parts m t) := by
  refine fun p hp => (h m).inv ?_
  rw [Moment.Starts, Moment.started_of_ne_call ht]
  exact List.mem_map.2 ⟨p, hp, rfl⟩

theorem partsFounded_round {b : Block Unit} {rest : Task} (hb : (Task.stmts b.stmts).Founded host n)
    (hr : rest.Founded host n) : PartsFounded host n ((Calls.within host n).roundParts b rest m) := by
  refine partsFounded_then hb fun goOn m' => ?_
  split
  · exact partsFounded_singleton hr
  · exact partsFounded_nil

/-! ## Code, given that calls are fine -/

section

variable (hc : ∀ callee args, (Task.call callee args).Founded host n)

include hc

mutual

theorem founded_expr : ∀ e : Expr Unit, (Task.expr e).Founded host n
  | .binary _ op l r => by
    refine founded_of_parts nofun fun m => partsFounded_then (founded_expr l) fun a m' => ?_
    split
    · exact partsFounded_nil
    · exact partsFounded_singleton (founded_expr r)
  | .unary _ _ e => founded_of_parts nofun fun m => partsFounded_singleton (founded_expr e)
  | .call _ c as => by
    refine founded_of_parts nofun fun m => partsFounded_then (founded_expr c) fun f m₁ => ?_
    refine partsFounded_then (founded_spread as) fun args m₂ => ?_
    exact partsFounded_singleton (hc f args)
  | .index _ o i | .arrow _ o i => by
    refine founded_of_parts nofun fun m => partsFounded_then (founded_expr o) fun _ m' => ?_
    exact partsFounded_singleton (founded_expr i)
  | .protoDict _ p es => by
    refine founded_of_parts nofun fun m => partsFounded_then (founded_expr p) fun proto m' => ?_
    split
    · exact partsFounded_singleton (founded_entries es)
    · exact partsFounded_singleton (founded_entries es)
    · exact partsFounded_nil
  | .list _ is => founded_of_parts nofun fun m => partsFounded_singleton (founded_each is)
  | .dict _ es => founded_of_parts nofun fun m => partsFounded_singleton (founded_entries es)
  | .none _ | .bool _ _ | .number _ _ | .str _ _ | .var _ _ | .lambda _ _ =>
    founded_of_parts nofun fun _ => partsFounded_nil

theorem founded_each : ∀ es : List (Expr Unit), (Task.each es).Founded host n
  | [] => founded_of_parts nofun fun _ => partsFounded_nil
  | e :: es => by
    refine founded_of_parts nofun fun m => partsFounded_then (founded_expr e) fun _ m' => ?_
    exact partsFounded_singleton (founded_each es)

theorem founded_spread : ∀ es : List (Expr Unit), (Task.spread es).Founded host n
  | [] => founded_of_parts nofun fun _ => partsFounded_nil
  | e :: es => by
    have first := founded_expr e
    have several (m : Machine σ) :
        PartsFounded host n ((.expr e, m) :: andThen ((Calls.within host n).eval e) m fun _ m =>
          [(.spread es, m)]) :=
      partsFounded_then first fun _ _ => partsFounded_singleton (founded_spread es)
    refine founded_of_parts nofun fun m => ?_
    cases es with
    | nil =>
      cases e with
      -- a call at the end has the parts that it has as an expression
      | call _ c as => exact partsFounded_parts first nofun m
      | _ => exact several m
    | cons _ _ => cases e <;> exact several m

theorem founded_entries : ∀ es : List (Expr Unit × Expr Unit), (Task.entries es).Founded host n
  | [] => founded_of_parts nofun fun _ => partsFounded_nil
  | (ek, ev) :: es => by
    refine founded_of_parts nofun fun m => partsFounded_then (founded_expr ek) fun _ m₁ => ?_
    refine partsFounded_then (founded_expr ev) fun _ m₂ => ?_
    exact partsFounded_singleton (founded_entries es)

end

theorem founded_targets : ∀ (ts : List (Expr Unit)) (values : List Value),
    (Task.targets ts values).Founded host n
  | [], _ => founded_of_parts nofun fun _ => partsFounded_nil
  | t :: ts, values => by
    have rest {m : Machine σ} : PartsFounded host n [(.targets ts values.tail, m)] :=
      partsFounded_singleton (founded_targets ts values.tail)
    refine founded_of_parts nofun fun m => ?_
    cases t with
    | var _ v => exact partsFounded_andThen fun _ _ => rest
    | index _ o i =>
      refine partsFounded_then (founded_expr hc o) fun object m₁ => ?_
      refine partsFounded_then (founded_expr hc i) fun key m₂ => ?_
      exact partsFounded_andThen fun _ _ => rest
    | _ => exact partsFounded_nil

theorem founded_decoration (f : Value) : ∀ ds : List Value, (Task.decoration f ds).Founded host n
  | [] => founded_of_parts nofun fun _ => partsFounded_nil
  | d :: ds => by
    refine founded_of_parts nofun fun m => partsFounded_then (founded_decoration f ds) fun v m' => ?_
    split
    · exact partsFounded_singleton (hc d [v])
    · exact partsFounded_nil

theorem founded_definition (ds : List (Expr Unit)) (f : Function Unit) :
    (Task.definition ds f).Founded host n := by
  refine founded_of_parts nofun fun m => partsFounded_then (founded_each hc ds) fun values m₁ => ?_
  exact partsFounded_andThen fun v m₂ => partsFounded_singleton (founded_decoration hc v values)

theorem founded_rounds (c : Expr Unit) {b : Block Unit} (hb : (Task.stmts b.stmts).Founded host n) :
    ∀ r : Nat, (Task.rounds c b r).Founded host n := by
  intro r
  induction r with
  | zero => exact founded_of_parts nofun fun _ => partsFounded_nil
  | succ r ih =>
    refine founded_of_parts nofun fun m => partsFounded_then (founded_expr hc c) fun v m' => ?_
    split
    · exact partsFounded_round hb ih
    · exact partsFounded_nil

theorem founded_items (vs : List Variable) {b : Block Unit} (hb : (Task.stmts b.stmts).Founded host n) :
    ∀ pairs : List (Value × Value), (Task.items vs b pairs).Founded host n
  | [] => founded_of_parts nofun fun _ => partsFounded_nil
  | _ :: pairs => founded_of_parts nofun fun _ => partsFounded_andThen fun _ _ =>
      partsFounded_round hb (founded_items vs hb pairs)

mutual

theorem founded_stmt : ∀ s : Stmt Unit, (Task.stmt s).Founded host n
  | .expr _ e | .raise _ e => founded_of_parts nofun fun m => partsFounded_singleton (founded_expr hc e)
  | .ret _ es => founded_of_parts nofun fun m => partsFounded_singleton (founded_spread hc es)
  | .assign _ ts es => by
    refine founded_of_parts nofun fun m => partsFounded_then (founded_spread hc es) fun vs m' => ?_
    exact partsFounded_singleton (founded_targets hc ts vs)
  | .define _ ds _ f => founded_of_parts nofun fun m => partsFounded_singleton (founded_definition hc ds f)
  | .ifElse _ c y n => by
    have yes := founded_block y
    have no := founded_block n
    refine founded_of_parts nofun fun m => partsFounded_then (founded_expr hc c) fun v m' => ?_
    split
    · exact partsFounded_singleton yes
    · exact partsFounded_singleton no
  | .whileLoop _ c b => founded_of_parts nofun fun m =>
      partsFounded_singleton (founded_rounds hc c (founded_block b) _)
  | .forLoop _ vs e b => by
    have body := founded_block b
    refine founded_of_parts nofun fun m => partsFounded_then (founded_expr hc e) fun iterable m₁ => ?_
    exact partsFounded_andThen fun pairs m₂ => partsFounded_singleton (founded_items hc vs body pairs)
  | .attempt _ b h c => by
    have handled := partsFounded_handler h
    have cleaned := partsFounded_cleanup c
    refine founded_of_parts nofun fun m => partsFounded_cons (founded_block b) ?_
    exact List.forall_mem_append.2 ⟨handled _, cleaned _⟩
  | .break_ _ | .continue_ _ | .declare _ _ _ | .bad _ _ => founded_of_parts nofun fun _ => partsFounded_nil

theorem founded_stmts : ∀ ss : List (Stmt Unit), (Task.stmts ss).Founded host n
  | [] => founded_of_parts nofun fun _ => partsFounded_nil
  | s :: ss => by
    refine founded_of_parts nofun fun m => partsFounded_then (founded_stmt s) fun _ m' => ?_
    exact partsFounded_singleton (founded_stmts ss)

theorem founded_block : ∀ b : Block Unit, (Task.stmts b.stmts).Founded host n
  | ⟨_, ss⟩ => founded_stmts ss

theorem partsFounded_handler : ∀ (h : Option (Handler Unit)) (r : EStateM.Result Exit (Machine σ) Unit),
    PartsFounded host n (Calls.handlerParts h r)
  | none, r => by
    unfold Calls.handlerParts
    split <;> exact partsFounded_nil
  | some ⟨v, b⟩, r => by
    have body := founded_block b
    unfold Calls.handlerParts
    split
    · cases v with
      | none => exact partsFounded_singleton body
      | some v => exact partsFounded_andThen fun _ _ => partsFounded_singleton body
    · exact partsFounded_nil

theorem partsFounded_cleanup : ∀ (c : Option (Block Unit)) (r : EStateM.Result Exit (Machine σ) Unit),
    PartsFounded host n (Calls.cleanupParts c r)
  | none, r => by
    unfold Calls.cleanupParts
    split <;> exact partsFounded_nil
  | some b, r => by
    have body := founded_block b
    unfold Calls.cleanupParts
    split
    · exact partsFounded_nil
    · exact partsFounded_singleton body
    · exact partsFounded_singleton body

end

theorem founded_program : ∀ p : Program Unit, (Task.program p).Founded host n
  | [] => founded_of_parts nofun fun _ => partsFounded_nil
  | s :: ss => by
    have rest := founded_program ss
    refine founded_of_parts nofun fun m => partsFounded_cons (founded_stmt hc s) ?_
    split
    · exact partsFounded_nil
    · exact partsFounded_singleton rest
    · exact partsFounded_singleton rest

theorem founded_body (f : Closure) (args : List Value) : (Task.body f args).Founded host n := by
  refine founded_of_parts nofun fun m => ?_
  rw [Calls.parts]
  split
  · exact partsFounded_nil
  · exact partsFounded_singleton (founded_block hc f.body)

theorem founded_action : ∀ a : Action, (Task.action a).Founded host n
  | .done _ | .raise _ => founded_of_parts nofun fun _ => partsFounded_nil
  | .call callee args next => by
    have rest := fun r => founded_action (next r)
    refine founded_of_parts nofun fun m => partsFounded_cons (hc callee args) ?_
    split
    · exact partsFounded_singleton (rest _)
    · exact partsFounded_singleton (rest _)
    · exact partsFounded_nil
  | .newList items next => by
    refine founded_of_parts nofun fun m => ?_
    exact partsFounded_andThen (x := Machine.newList items) fun v _ =>
      partsFounded_singleton (founded_action (next v))
  | .display _ next => founded_of_parts nofun fun m => partsFounded_singleton (founded_action (next _))

end

/-! ## Calls -/

/-- A call with less fuel starts tasks that are fine already. -/
theorem founded_call : ∀ (n : Nat) (callee : Value) (args : List Value),
    (Task.call callee args).Founded host n
  | 0, callee, args => by
    refine fun m => .intro _ fun y hy => ?_
    simp [Moment.Starts, Moment.started, Calls.parts] at hy
  | n + 1, callee, args => by
    have hc := founded_call n
    induction callee generalizing args with
    | func id f =>
      refine fun m => .intro _ fun y hy => ?_
      rw [List.mem_singleton.1 hy]
      exact founded_body hc f args m
    | method id receiver f _ ih =>
      refine fun m => .intro _ fun y hy => ?_
      rw [List.mem_singleton.1 hy]
      exact ih (receiver :: args) m
    | native id f =>
      refine fun m => .intro _ fun y hy => ?_
      cases f with
      | host name =>
        rw [List.mem_singleton.1 hy]
        exact founded_action hc (host.native name args) m
      | _ => simp [Moment.Starts, Moment.started, Calls.parts] at hy
    | _ =>
      refine fun m => .intro _ fun y hy => ?_
      simp [Moment.Starts, Moment.started, Calls.parts] at hy

/-- Tasks start each other finitely often. -/
theorem Moment.acc_starts (host : Host σ) : ∀ x : Moment σ, x.Founded host
  | ⟨n, t, m⟩ => by
    have hc (callee : Value) (args : List Value) : (Task.call callee args).Founded host n :=
      founded_call n callee args
    cases t with
    | expr e => exact founded_expr hc e m
    | each es => exact founded_each hc es m
    | spread es => exact founded_spread hc es m
    | entries es => exact founded_entries hc es m
    | targets ts values => exact founded_targets hc ts values m
    | definition ds f => exact founded_definition hc ds f m
    | decoration f ds => exact founded_decoration hc f ds m
    | stmt s => exact founded_stmt hc s m
    | stmts ss => exact founded_stmts hc ss m
    | rounds c b r => exact founded_rounds hc c (founded_block hc b) r m
    | items vs b pairs => exact founded_items hc vs (founded_block hc b) pairs m
    | call callee args => exact hc callee args m
    | body f args => exact founded_body hc f args m
    | action a => exact founded_action hc a m
    | program p => exact founded_program hc p m

end DocScript
