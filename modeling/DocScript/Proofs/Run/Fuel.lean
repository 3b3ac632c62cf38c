import DocScript.Machine.Session

/-!
# More fuel

The bound on calls and loops decides nothing but whether a run comes to its end. With a larger bound
a run that was not out of fuel does the same as before, to the last bit of its machine. `Extended x y`
says this of two computations. It is kept by sequences, loops, handlers and cleanups, so it goes
through expressions and statements, and `callWithin_extended` and `runProgram_extended` follow.
-/

set_option linter.unusedSectionVars false

namespace DocScript

variable {σ β γ ε : Type}

/-- `y` does the same as `x`, unless `x` fails with `out`. -/
def Extended (out : ε) (x y : EStateM ε (Machine σ) β) : Prop :=
  ∀ m, (∃ m', x m = .error out m') ∨ y m = x m

namespace Extended

variable {out : ε}

theorem refl (x : EStateM ε (Machine σ) β) : Extended out x x := fun _ => Or.inr rfl

theorem throw_out (y : EStateM ε (Machine σ) β) : Extended out (throw out) y := fun m => Or.inl ⟨m, rfl⟩

theorem bind {x y : EStateM ε (Machine σ) γ} {f g : γ → EStateM ε (Machine σ) β}
    (h : Extended out x y) (hf : ∀ c, Extended out (f c) (g c)) :
    Extended out (x >>= f) (y >>= g) := by
  intro m
  rcases h m with ⟨m', hx⟩ | hy
  · exact Or.inl ⟨m', by simp only [Bind.bind, EStateM.bind, hx]⟩
  · simp only [Bind.bind, EStateM.bind, hy]
    rcases x m with ⟨c, m'⟩ | ⟨e, m'⟩
    · exact hf c m'
    · exact Or.inr rfl

theorem lift {x y : Eval σ β} (h : Extended .outOfFuel x y) :
    Extended (.fault .outOfFuel) (Exec.lift x) (Exec.lift y) := by
  intro m
  rcases h m with ⟨m', hx⟩ | hy
  · exact Or.inl ⟨m', by simp only [Exec.lift, hx]⟩
  · exact Or.inr (by simp only [Exec.lift, hy])

section Loops

variable {x y : Exec σ Unit} (h : Extended (.fault .outOfFuel) x y)

include h

theorem round : Extended (.fault .outOfFuel) (Exec.round x) (Exec.round y) := by
  intro m
  rcases h m with ⟨m', hx⟩ | hy
  · exact Or.inl ⟨m', by simp only [Exec.round, hx]⟩
  · exact Or.inr (by simp only [Exec.round, hy])

theorem forLoop (vars : List Variable) : ∀ items,
    Extended (.fault .outOfFuel) (Exec.forLoop vars x items) (Exec.forLoop vars y items)
  | [] => .refl _
  | (_, _) :: items => by
    refine (refl _).bind fun _ => h.round.bind fun goOn => ?_
    split
    · exact forLoop vars items
    · exact .refl _

theorem whileLoop {c d : Eval σ Value} (hc : Extended .outOfFuel c d) : ∀ {n n' : Nat}, n ≤ n' →
    Extended (.fault .outOfFuel) (Exec.whileLoop c x n) (Exec.whileLoop d y n')
  | 0, _, _ => throw_out _
  | n + 1, n' + 1, hn => by
    refine hc.lift.bind fun v => ?_
    split
    · refine h.round.bind fun goOn => ?_
      split
      · exact whileLoop hc (Nat.le_of_succ_le_succ hn)
      · exact .refl _
    · exact .refl _

theorem handling {f g : Value → Exec σ Unit} (hf : ∀ p, Extended (.fault .outOfFuel) (f p) (g p)) :
    Extended (.fault .outOfFuel) (Exec.handling x f) (Exec.handling y g) := by
  intro m
  rcases h m with ⟨m', hx⟩ | hy
  · exact Or.inl ⟨m', by simp only [Exec.handling, hx]⟩
  · simp only [Exec.handling, hy]
    rcases x m with ⟨_, m'⟩ | ⟨_ | _ | _ | (payload | _), m'⟩
    case error.fault.raised => exact hf payload m'
    all_goals exact Or.inr rfl

theorem cleaning {z w : Exec σ Unit} (hz : Extended (.fault .outOfFuel) z w) :
    Extended (.fault .outOfFuel) (Exec.cleaning x z) (Exec.cleaning y w) := by
  intro m
  rcases h m with ⟨m', hx⟩ | hy
  · exact Or.inl ⟨m', by simp only [Exec.cleaning, hx]⟩
  · simp only [Exec.cleaning, hy]
    rcases x m with ⟨_, m'⟩ | ⟨_ | _ | _ | (_ | _), m'⟩
    case ok => exact hz m'
    case error.fault.outOfFuel => exact Or.inr rfl
    all_goals
      rcases hz m' with ⟨m'', hz⟩ | hw
      · exact Or.inl ⟨m'', by simp only [hz]⟩
      · exact Or.inr (by simp only [hw])

end Loops

end Extended

namespace Calls

/-- Everything that `k` can do, `k'` does the same, unless `k` is out of fuel. -/
structure Extended (k k' : Calls σ) : Prop where
  host : k'.host = k.host
  call : ∀ callee args, DocScript.Extended .outOfFuel (k.call callee args) (k'.call callee args)
  rounds : k.rounds ≤ k'.rounds

variable {k k' : Calls σ} (h : k.Extended k')

include h

/-! ## Expressions and statements -/

theorem decorate_extended (f : Value) : ∀ ds, DocScript.Extended .outOfFuel (k.decorate f ds)
    (k'.decorate f ds)
  | [] => .refl _
  | d :: ds => by
    refine (decorate_extended f ds).bind fun v => ?_
    split
    · exact (h.call d [v]).bind fun _ => .refl _
    · exact .refl _

mutual

theorem eval_extended : ∀ e : Expr Unit, DocScript.Extended .outOfFuel (k.eval e) (k'.eval e)
  | .none _ | .bool _ _ | .number _ _ | .str _ _ | .var _ _ | .lambda _ _ => .refl _
  | .binary _ op l r => by
    rw [eval, eval]
    refine (eval_extended l).bind fun a => ?_
    split
    · exact .refl _
    · exact (eval_extended r).bind fun b => .refl _
  | .unary _ _ e => (eval_extended e).bind fun _ => .refl _
  | .call _ c as => by
    rw [eval, eval]
    refine (eval_extended c).bind fun f => ?_
    refine (evalSpread_extended as).bind fun args => ?_
    exact (h.call f args).bind fun _ => .refl _
  | .index _ o i | .arrow _ o i => by
    rw [eval, eval, h.host]
    refine (eval_extended o).bind fun object => ?_
    exact (eval_extended i).bind fun key => .refl _
  | .protoDict _ p es => by
    rw [eval, eval]
    refine (eval_extended p).bind fun proto => ?_
    split
    · exact (evalEntries_extended es).bind fun _ => .refl _
    · exact (evalEntries_extended es).bind fun _ => .refl _
    · exact .refl _
  | .list _ is => (evalEach_extended is).bind fun _ => .refl _
  | .dict _ es => (evalEntries_extended es).bind fun _ => .refl _

theorem evalEach_extended : ∀ es : List (Expr Unit),
    DocScript.Extended .outOfFuel (k.evalEach es) (k'.evalEach es)
  | [] => .refl _
  | e :: es => (eval_extended e).bind fun _ => (evalEach_extended es).bind fun _ => .refl _

theorem evalSpread_extended : ∀ es : List (Expr Unit),
    DocScript.Extended .outOfFuel (k.evalSpread es) (k'.evalSpread es)
  | [] => .refl _
  | e :: es => by
    have several : DocScript.Extended .outOfFuel
        (do let v ← k.eval e; let vs ← k.evalSpread es; return v :: vs)
        (do let v ← k'.eval e; let vs ← k'.evalSpread es; return v :: vs) :=
      (eval_extended e).bind fun _ => (evalSpread_extended es).bind fun _ => .refl _
    cases es with
    | nil =>
      cases e with
      -- only here all values of the call count
      | call _ c as =>
        refine (eval_extended c).bind fun f => ?_
        exact (evalSpread_extended as).bind fun args => h.call f args
      | _ => exact several
    | cons e' es =>
      rw [evalSpread_cons, evalSpread_cons]
      exact several

theorem evalEntries_extended : ∀ es : List (Expr Unit × Expr Unit),
    DocScript.Extended .outOfFuel (k.evalEntries es) (k'.evalEntries es)
  | [] => .refl _
  | (ek, ev) :: es => by
    rw [evalEntries, evalEntries]
    refine (eval_extended ek).bind fun key => ?_
    refine (eval_extended ev).bind fun value => ?_
    exact (evalEntries_extended es).bind fun _ => .refl _

end

theorem assignTargets_extended : ∀ (ts : List (Expr Unit)) (values : List Value),
    DocScript.Extended .outOfFuel (k.assignTargets ts values) (k'.assignTargets ts values)
  | [], _ => .refl _
  | t :: ts, values => by
    have rest := assignTargets_extended ts values.tail
    cases t with
    | index _ o i =>
      refine (eval_extended h o).bind fun object => ?_
      refine (eval_extended h i).bind fun key => ?_
      rw [h.host]
      exact (DocScript.Extended.refl _).bind fun _ => rest
    | _ => exact (DocScript.Extended.refl _).bind fun _ => rest

theorem evalDefinition_extended (ds : List (Expr Unit)) (f : Function Unit) :
    DocScript.Extended .outOfFuel (k.evalDefinition ds f) (k'.evalDefinition ds f) := by
  refine (evalEach_extended h ds).bind fun values => ?_
  refine (DocScript.Extended.refl _).bind fun v => ?_
  exact decorate_extended h v values

mutual

theorem exec_extended : ∀ s : Stmt Unit,
    DocScript.Extended (.fault .outOfFuel) (k.exec s) (k'.exec s)
  | .expr _ e => (eval_extended h e).lift.bind fun _ => .refl _
  | .assign _ ts es => by
    rw [exec, exec]
    refine (evalSpread_extended h es).lift.bind fun vs => ?_
    exact (assignTargets_extended h ts vs).lift
  | .define _ ds _ f => (evalDefinition_extended h ds f).lift.bind fun _ => .refl _
  | .ifElse _ c y n => by
    rw [exec, exec]
    refine (eval_extended h c).lift.bind fun v => ?_
    split
    · exact execBlock_extended y
    · exact execBlock_extended n
  | .whileLoop _ c b => (execBlock_extended b).whileLoop (eval_extended h c) h.rounds
  | .forLoop _ vs e b => by
    rw [exec, exec]
    refine (eval_extended h e).lift.bind fun iterable => ?_
    refine (DocScript.Extended.refl _).bind fun items => ?_
    exact (execBlock_extended b).forLoop vs items
  | .attempt _ b handler cleanup => by
    have handled := execHandler_extended (execBlock_extended b) handler
    exact execCleanup_extended handled cleanup
  | .raise _ e => (eval_extended h e).lift.bind fun _ => .refl _
  | .ret _ es => (evalSpread_extended h es).lift.bind fun _ => .refl _
  | .break_ _ | .continue_ _ | .declare _ _ _ | .bad _ _ => .refl _

theorem execStmts_extended : ∀ ss : List (Stmt Unit),
    DocScript.Extended (.fault .outOfFuel) (k.execStmts ss) (k'.execStmts ss)
  | [] => .refl _
  | s :: ss => (exec_extended s).bind fun _ => execStmts_extended ss

theorem execBlock_extended : ∀ b : Block Unit,
    DocScript.Extended (.fault .outOfFuel) (k.execBlock b) (k'.execBlock b)
  | ⟨_, ss⟩ => execStmts_extended ss

theorem execHandler_extended {x y : Exec σ Unit} (hb : DocScript.Extended (.fault .outOfFuel) x y) :
    ∀ hd : Option (Handler Unit),
      DocScript.Extended (.fault .outOfFuel) (k.execHandler x hd) (k'.execHandler y hd)
  | none => hb
  | some ⟨none, b⟩ => hb.handling fun _ => execBlock_extended b
  | some ⟨some _, b⟩ =>
    hb.handling fun _ => (DocScript.Extended.refl _).bind fun _ => execBlock_extended b

theorem execCleanup_extended {x y : Exec σ Unit} (hb : DocScript.Extended (.fault .outOfFuel) x y) :
    ∀ c : Option (Block Unit),
      DocScript.Extended (.fault .outOfFuel) (k.execCleanup x c) (k'.execCleanup y c)
  | none => hb
  | some b => hb.cleaning (execBlock_extended b)

end

/-! ## Calls -/

theorem callFunction_extended (f : Closure) (args : List Value) :
    DocScript.Extended .outOfFuel (k.callFunction f args) (k'.callFunction f args) := by
  intro m
  unfold callFunction
  split
  · exact Or.inr rfl
  · rcases execBlock_extended h f.body (enter f args m) with ⟨m', hx⟩ | hy
    · exact Or.inl ⟨_, by rw [hx]⟩
    · exact Or.inr (by rw [hy])

theorem perform_extended : ∀ a : Action,
    DocScript.Extended .outOfFuel (perform k.call a) (perform k'.call a)
  | .done _ | .raise _ => .refl _
  | .call callee args next => by
    intro m
    simp only [perform]
    rcases h.call callee args m with ⟨m', hx⟩ | hy
    · exact Or.inl ⟨m', by rw [hx]⟩
    · rw [hy]
      rcases k.call callee args m with ⟨vs, m'⟩ | ⟨payload | _, m'⟩
      · exact perform_extended (next (.ok vs)) m'
      · exact perform_extended (next (.error payload)) m'
      · exact Or.inr rfl
  | .newList _ next => (DocScript.Extended.refl _).bind fun v => perform_extended (next v)
  | .display v next => fun m => perform_extended (next (m.display v)) m

theorem callNative_extended (f : Native) (args : List Value) :
    DocScript.Extended .outOfFuel (k.callNative f args) (k'.callNative f args) := by
  cases f with
  | host name =>
    rw [callNative, callNative, h.host]
    exact perform_extended h _
  | _ => exact .refl _

theorem callValue_extended (callee : Value) : ∀ args,
    DocScript.Extended .outOfFuel (k.callValue callee args) (k'.callValue callee args) := by
  induction callee with
  | func _ f => exact callFunction_extended h f
  | native _ f => exact fun args => (callNative_extended h f args).bind fun _ => .refl _
  | method _ receiver callable _ ih => exact fun args => ih (receiver :: args)
  | _ => exact fun _ => .refl _

end Calls

variable (host : Host σ)

theorem callWithin_extended : ∀ {n n' : Nat}, n ≤ n' → ∀ callee args,
    Extended .outOfFuel (callWithin host n callee args) (callWithin host n' callee args)
  | 0, _, _, _, _ => .throw_out _
  | n + 1, n' + 1, hn, callee, args => by
    have hn := Nat.le_of_succ_le_succ hn
    have inner : (Calls.within host n).Extended (Calls.within host n') :=
      ⟨rfl, callWithin_extended hn, hn⟩
    exact Calls.callValue_extended inner callee args

theorem Calls.within_extended {n n' : Nat} (hn : n ≤ n') :
    (Calls.within host n).Extended (Calls.within host n') :=
  ⟨rfl, callWithin_extended host hn, hn⟩

/-- A script that is not out of fuel does the same with more. -/
theorem runProgram_extended {n n' : Nat} (hn : n ≤ n') : ∀ (p : Program Unit) (m : Machine σ),
    (runProgram (.within host n) p m).1 ≠ .outOfFuel →
      runProgram (.within host n') p m = runProgram (.within host n) p m
  | [], _, _ => rfl
  | s :: ss, m, h => by
    rw [runProgram] at h ⊢
    rw [runProgram]
    rcases Calls.exec_extended (Calls.within_extended host hn) s m with ⟨m', hx⟩ | hy
    · simp [hx] at h
    · rw [hy]
      rcases hr : (Calls.within host n).exec s m with ⟨_, m'⟩ | ⟨e, m'⟩
      · exact runProgram_extended hn ss m' (by simpa only [hr] using h)
      · cases e with
        | fault f => cases f <;> rfl
        | _ => exact runProgram_extended hn ss m' (by simpa only [hr] using h)

end DocScript
