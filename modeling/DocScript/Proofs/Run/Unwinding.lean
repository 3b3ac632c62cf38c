import DocScript.Proofs.Run.Exits
import DocScript.Proofs.Run.Moments
import DocScript.Proofs.Run.Stored
import DocScript.Proofs.Written

/-!
# Unwinding

An exit from a statement is taken by the loop or the function around it. Scripts have no exit that
nothing takes, and neither have the functions that scripts make, but a function may be called long
after its script was read, from wherever it was stored. So this is about all that a machine stores :
every function in it was written in an accepted script (`Value.Authentic`), on every machine that is
reached from a new one by running scripts and calling values (`Reachable`).

It follows that a statement of a module ends by completing or by an exception, that the body of a
function ends in these ways or with `return`, and that what is assigned to can be assigned to, at every
moment of every run.
-/

namespace DocScript

variable {σ : Type} {B : σ → Prop} {host : Host σ}

/-- All functions in the value were written in accepted scripts. -/
def Value.Authentic : Value → Prop
  | .func _ f => Written ⟨f.name, f.params, f.body⟩
  | .method _ receiver callable => receiver.Authentic ∧ callable.Authentic
  | _ => True

/-- The discipline of machines that store authentic values, for code that is well placed. -/
def Discipline.authentic (B : σ → Prop) : Discipline σ :=
  stored (.placed Written) Value.Authentic B

/-- Code of accepted scripts makes authentic values of authentic ones. -/
theorem storable_authentic (h : host.Keeps Value.Authentic B) :
    Discipline.Storable (.placed Written) Value.Authentic B host :=
  { h with
    none := trivial
    bool := fun _ => trivial
    num := fun _ => trivial
    str := fun _ => trivial
    doc := fun _ => trivial
    newFunction := fun {f} _ _ hf _ => by
      cases f
      exact hf.2
    func := fun hf => hf.allowed.2
    newMethod := fun _ hr hc _ => ⟨hr, hc⟩
    method := id }

/-! ## Machines that a host gets to -/

/-- The machines that come from a new one by running scripts and calling values, where all values
that the host brings in are authentic. Between these steps the host may change what is on the
heap. -/
inductive Reachable (host : Host σ) (B : σ → Prop) : Machine σ → Prop
  | build {heap : Heap σ} {c : Config} : heap.Stores Value.Authentic B →
    (∀ g ∈ c.globals, g.2.Authentic) → Reachable host B (Machine.build heap c)
  | interpret (n : Nat) (text : String) {m : Machine σ} : Reachable host B m →
    Reachable host B (interpret host n text m).2
  | call (n : Nat) {callee : Value} {args : List Value} {m : Machine σ} : callee.Authentic →
    (∀ v ∈ args, v.Authentic) → Reachable host B m →
      Reachable host B (stateAfter (callWithin host n callee args) m)
  | callSingle (n : Nat) {callee : Value} {args : List Value} {m : Machine σ} : callee.Authentic →
    (∀ v ∈ args, v.Authentic) → Reachable host B m →
      Reachable host B (stateAfter (callSingle host n callee args) m)
  | supply {heap : Heap σ} {m : Machine σ} : heap.Stores Value.Authentic B → Reachable host B m →
    Reachable host B { m with heap := heap }

/-- Calls keep what is stored authentic. -/
theorem callWithin_authentic (h : host.Keeps Value.Authentic B) (n : Nat) :
    (Discipline.authentic B).CallsKeep (callWithin host n) :=
  Discipline.callsKeep_of_under fun c =>
    Discipline.callWithin_keeps (storable_authentic h).lawful (storable_authentic h).portable trivial n c

theorem Reachable.stores (h : host.Keeps Value.Authentic B) {m : Machine σ}
    (hm : Reachable host B m) : m.Stores Value.Authentic B := by
  induction hm with
  | build hh hg =>
    exact Machine.stores_build (fun _ => trivial) (fun _ => trivial) (fun _ => trivial)
      (fun _ _ _ => trivial) hh hg
  | interpret n text _ ih =>
    exact (Discipline.interpret_keeps (storable_authentic h).lawful (storable_authentic h).portable
      trivial { ih with } obeys_scriptProgram).1.1
  | call n hc ha _ ih =>
    refine After.stateAfter ?_
    exact (callWithin_authentic h n _ _ hc ha _ ih).mono (fun _ _ h => h.1) fun _ _ h => h.1
  | callSingle n hc ha _ ih =>
    refine After.stateAfter (After.bind ?_ fun _ _ h => h)
    exact (callWithin_authentic h n _ _ hc ha _ ih).mono (fun _ _ h => h.1) fun _ _ h => h.1
  | supply hh _ ih => exact { ih with heap := hh }

/-! ## At every moment -/

/-- The body of a function ends by completing, with `return` or by an exception, and what is assigned
to is a variable or an entry. -/
def Moment.Disciplined (host : Host σ) : Moment σ → Prop
  | ⟨n, .body f args, m⟩ =>
    After ((Calls.within host n).execBlock f.body) (Calls.enter f args m) (fun _ _ => True)
      fun e _ => Place.function.Takes e
  | ⟨_, .targets (t :: _) _, _⟩ => t.isTarget
  | _ => True

theorem Moment.disciplined_of_ok {x : Moment σ}
    (h : x.Ok (Discipline.authentic B)) : x.Disciplined host := by
  unfold Moment.Disciplined
  split
  · obtain ⟨⟨_, hf⟩, _⟩ := h.2
    exact (Calls.within host _).execBlock_exits _ (Written.allowed hf).1.1 _
  · next t _ _ _ =>
    have assigned := (List.forall_mem_cons.1 h.2.1.1).1
    cases t with
    | var _ _ => rfl
    | _ => exact assigned
  · trivial

/-- A run that starts with authentic values on a machine that stores no others is disciplined. -/
theorem Moment.disciplined_of_reaches (h : host.Keeps Value.Authentic B) {x y : Moment σ}
    (hy : x.Reaches host y) (hm : x.machine.Stores Value.Authentic B)
    (ht : x.task.Ok (Discipline.authentic B)) : y.Disciplined host :=
  disciplined_of_ok (ok_of_reaches (storable_authentic h).lawful (storable_authentic h).portable
    trivial ⟨hm, ht⟩ hy)

theorem interpret_of_accepted {text : String} (h : Accepted text) (n : Nat) (m : Machine σ) :
    interpret host n text m =
      runProgram (.within host n) (scriptProgram text) { m with env := m.root, depth := 0 } := by
  unfold Accepted at h
  simp only [interpret, h]
  rfl

/-- On every machine that a host gets to, the statements of an accepted script end by completing or by
an exception, and everything that runs is disciplined, in scripts and in calls by the host. -/
theorem unwinding (h : host.Keeps Value.Authentic B) {m : Machine σ} (hm : Reachable host B m)
    (n : Nat) :
    (∀ text, Accepted text →
      interpret host n text m =
          runProgram (.within host n) (scriptProgram text) { m with env := m.root, depth := 0 } ∧
        (∀ s ∈ scriptProgram text, ExitsAt .module ((Calls.within host n).exec s)) ∧
          ∀ y, Moment.Reaches host
            ⟨n, .program (scriptProgram text), { m with env := m.root, depth := 0 }⟩ y →
              y.Disciplined host) ∧
      ∀ callee args, callee.Authentic → (∀ v ∈ args, v.Authentic) →
        ∀ y, Moment.Reaches host ⟨n, .call callee args, m⟩ y → y.Disciplined host := by
  have stores := hm.stores h
  refine ⟨fun text ht => ⟨interpret_of_accepted ht n m, ?_, ?_⟩, ?_⟩
  · intro s hs
    exact (Calls.within host n).exec_exits s (stmtsPlaced_mem (placed_scriptProgram text) hs)
  · intro y hy
    exact Moment.disciplined_of_reaches h hy { stores with } (obeys_scriptProgram ht)
  · intro callee args hc ha y hy
    exact Moment.disciplined_of_reaches h hy stores ⟨hc, ha⟩

/-- A function that leaves a loop is defined by one script and called by the native of another. -/
theorem unwinding_thermometer :
    let m := (interpret Thermometer.host 9
      "def f(xs):\n    for x in xs:\n        if x == 1:\n            break\n    return x\n"
      (.build .empty { Config.default with globals := [("apply", .native 0 (.host "apply"))] })).2
    let text := "try:\n    y = apply(f, [1, 2])\nfinally:\n    y = None\n"
    Reachable Thermometer.host (fun _ => True) m ∧ Accepted text ∧
      (∀ s ∈ scriptProgram text, ExitsAt .module ((Calls.within Thermometer.host 9).exec s)) ∧
        ∀ y, Moment.Reaches Thermometer.host
          ⟨9, .program (scriptProgram text), { m with env := m.root, depth := 0 }⟩ y →
            y.Disciplined Thermometer.host := by
  intro m text
  have hh : Thermometer.host.Keeps Value.Authentic fun _ => True :=
    Thermometer.keeps trivial (fun _ => trivial) (fun _ => trivial) fun _ => trivial
  have hm : Reachable Thermometer.host (fun _ => True) m :=
    .interpret 9 _ (.build Heap.stores_empty (by simp [Value.Authentic]))
  have ht : Accepted text := by decide +kernel
  exact ⟨hm, ht, ((unwinding hh hm 9).1 text ht).2⟩

end DocScript
