import DocScript.Proofs.Run.Moments

/-!
# The control state is put back

A call of a script function changes the frame and the depth for the time that its body runs. However
the body ends, and whatever runs inside it, both are put back. So expressions, statements, blocks and
calls end in the control state in which they started, and a script ends in its module at depth 0.

While the body of a function runs, the depth is at least 1, and it never goes beyond the limit. This
is about the moments of the run of a body, and follows from a discipline on the control state alone.
-/

namespace DocScript

variable {σ β ε : Type}

namespace Discipline

/-- The discipline under which everything is allowed. -/
def all : Discipline σ := ofControl fun _ => True

/-- The depth of code inside a function. -/
def inside : Discipline σ := ofControl fun c => 1 ≤ c.depth ∧ c.depth ≤ c.maxDepth

theorem lawful_all (host : Host σ) : all.Lawful host := lawful_ofControl _ host

theorem portable_all : (all : Discipline σ).Portable := portable_ofControl fun _ _ _ _ => trivial

theorem lawful_inside (host : Host σ) : inside.Lawful host := lawful_ofControl _ host

theorem portable_inside : (inside : Discipline σ).Portable :=
  portable_ofControl fun _ _ _ hd => ⟨Nat.succ_pos _, hd⟩

theorem callsKeep_all (host : Host σ) (n : Nat) (c : Control) :
    (all.under c).CallsKeep (Calls.within host n).call :=
  callWithin_keeps (lawful_all host) portable_all trivial n c

end Discipline

open Discipline

/-- What keeps the discipline in each control state leaves the control state alone. -/
theorem steady_of_maintains {E : Control → ε → Prop} {x : EStateM ε (Machine σ) β}
    {Q : Control → β → Prop} (h : ∀ c, (all.under c).Maintains (E c) x (Q c)) : Steady x := fun m =>
  (h m.control m ⟨trivial, rfl⟩).mono (fun _ _ h => h.1.2) fun _ _ h => h.1.2

namespace Calls

variable (host : Host σ) (n : Nat)

theorem eval_steady (e : Expr Unit) : Steady ((within host n).eval e) :=
  steady_of_maintains fun c => eval_keeps ((lawful_all host).under c) (callsKeep_all host n c) e e.obeys_free

theorem exec_steady (s : Stmt Unit) : Steady ((within host n).exec s) :=
  steady_of_maintains fun c => exec_runs ((lawful_all host).under c) (callsKeep_all host n c) s s.obeys_free

theorem execBlock_steady (b : Block Unit) : Steady ((within host n).execBlock b) :=
  steady_of_maintains fun c =>
    execBlock_runs ((lawful_all host).under c) (callsKeep_all host n c) b b.obeys_free

theorem call_steady (callee : Value) (args : List Value) : Steady (callWithin host n callee args) :=
  steady_of_maintains fun c => callsKeep_all host n c callee args trivial fun _ _ => trivial

end Calls

theorem callSingle_steady (host : Host σ) (n : Nat) (callee : Value) (args : List Value) :
    Steady (callSingle host n callee args) :=
  (Calls.call_steady host n callee args).bind fun _ => .pure _

/-- After a script, the machine is in its module, outside of all calls. -/
theorem control_interpret (host : Host σ) (n : Nat) (text : String) (m : Machine σ) :
    (interpret host n text m).2.control = ⟨m.root, 0, m.root, m.arrayProto, m.maxDepth⟩ :=
  (interpret_keeps (lawful_all host) portable_all trivial trivial fun _ => stmtsObey_free _).1.2

/-- All that runs in the body of a function runs at a depth from 1 to the limit. -/
theorem depth_of_body {host : Host σ} {n : Nat} {f : Closure} {args : List Value} {m : Machine σ}
    {y : Moment σ} (h : Relation.TransGen (Moment.Starts host) ⟨n, .body f args, m⟩ y) :
    1 ≤ y.machine.depth ∧ y.machine.depth ≤ y.machine.maxDepth := by
  obtain ⟨x, hx, hxy⟩ := Relation.TransGen.head'_iff.1 h
  suffices x.Ok inside from
    (Moment.ok_of_reaches (lawful_inside host) portable_inside trivial this hxy).1
  -- the body starts one call deeper, and only below the limit
  simp only [Moment.Starts, Moment.started, Calls.parts] at hx
  split at hx
  · simp at hx
  · next hd =>
    obtain rfl : x = ⟨n, .stmts f.body.stmts, Calls.enter f args m⟩ := by simpa using hx
    exact ⟨⟨Nat.succ_pos _, Nat.lt_of_not_le hd⟩, stmtsObey_free _⟩

/-- Expressions, statements, blocks and calls put the control state back, however they end; the body
of a function runs at a depth from 1 to the limit; and a script ends in its module at depth 0. -/
theorem control_restored (host : Host σ) (n : Nat) :
    ((∀ e, Steady ((Calls.within host n).eval e)) ∧ (∀ s, Steady ((Calls.within host n).exec s)) ∧
      (∀ b, Steady ((Calls.within host n).execBlock b)) ∧
        (∀ callee args, Steady (callWithin host n callee args)) ∧
          ∀ callee args, Steady (callSingle host n callee args)) ∧
      (∀ f args m y, Relation.TransGen (Moment.Starts host) ⟨n, .body f args, m⟩ y →
        1 ≤ y.machine.depth ∧ y.machine.depth ≤ y.machine.maxDepth) ∧
        ∀ text m, (interpret host n text m).2.control =
          ⟨m.root, 0, m.root, m.arrayProto, m.maxDepth⟩ :=
  ⟨⟨Calls.eval_steady host n, Calls.exec_steady host n, Calls.execBlock_steady host n,
      Calls.call_steady host n, callSingle_steady host n⟩,
    fun _ _ _ _ => depth_of_body, control_interpret host n⟩

end DocScript
