import DocScript.Proofs.Display
import DocScript.Proofs.Run.Fuel
import DocScript.Proofs.Run.Stored

/-!
# Termination under the limit of calls

Without `while` loops only calls can go on forever, and there is a limit on how many of them can be
inside each other. A call runs a function from anywhere on the machine, so the functions that are
stored must be free of `while` loops too, and so must all that they make (`Value.WhileFree`). Natives
of the host are not there, since what they call is up to them.

In the control state `c` at most `c.maxDepth - c.depth` more calls can be entered inside each other,
and what runs between two of them is bounded by the code and by the docs and strings that `for` loops
go through. With more fuel than that, no run is out of fuel (`callWithin_ends`), and by
`runProgram_extended` its outcome is the same with any more of it.
-/

namespace DocScript

variable {σ : Type} {B : σ → Prop} {host : Host σ}

/-- All functions in the value are free of `while` loops, and all natives are built in. -/
def Value.WhileFree : Value → Prop
  | .func _ f => f.body.Obeys .noWhile
  | .native _ (.host _) => False
  | .method _ receiver callable => receiver.WhileFree ∧ callable.WhileFree
  | _ => True

/-- The discipline of machines without `while` loops. Under it no run may be out of fuel. -/
def Discipline.whileFree (B : σ → Prop) : Discipline σ := stored .noWhile Value.WhileFree B

/-- Code without `while` loops makes no functions with such loops. -/
theorem storable_whileFree (h : host.Keeps Value.WhileFree B) :
    Discipline.Storable .noWhile Value.WhileFree B host :=
  { h with
    none := trivial
    bool := fun _ => trivial
    num := fun _ => trivial
    str := fun _ => trivial
    doc := fun _ => trivial
    newFunction := fun {f} _ _ _ hf => by
      cases f
      exact hf
    func := id
    newMethod := fun _ hr hc _ => ⟨hr, hc⟩
    method := id }

/-- With more fuel than calls that can still be entered, a call comes to an end. -/
theorem callWithin_ends (h : host.Keeps Value.WhileFree B) : ∀ (n : Nat) (c : Control),
    c.maxDepth - c.depth < n → ((Discipline.whileFree B).under c).CallsKeep (callWithin host n)
  | 0, _, hn => absurd hn (Nat.not_lt_zero _)
  | n + 1, c, hn => by
    have lawful := (storable_whileFree h).lawful
    have portable := (storable_whileFree h).portable
    refine Discipline.callValue_keeps (k := .within host n) lawful portable ?_ ?_
    · intro c' hlimit hdepth hmax
      exact callWithin_ends h n c' (by omega)
    · exact fun _ _ hnative => hnative.elim

/-- A script without `while` loops is not out of fuel. -/
theorem runProgram_ends (h : host.Keeps Value.WhileFree B) {m : Machine σ}
    (hm : m.Stores Value.WhileFree B) {p : Program Unit} (hp : p.Obeys .noWhile) {n : Nat}
    (hn : m.maxDepth - m.depth < n) : (runProgram (.within host n) p m).1 ≠ .outOfFuel := by
  intro hout
  have outcome := (Discipline.runProgram_keeps (k := .within host n) (storable_whileFree h).lawful
    (callWithin_ends h n m.control hn) p m hp ⟨hm, rfl⟩).1
  rw [hout] at outcome
  exact outcome

/-- On a machine without `while` loops and natives of the host, a script without `while` loops comes to
an end : with more fuel than calls that can still be entered it has an outcome that no longer changes.
The bound on displaying values, which is part of such a run, is never reached either. -/
theorem terminates_of_whileFree (h : host.Keeps Value.WhileFree B) {m : Machine σ}
    (hm : m.Stores Value.WhileFree B) {p : Program Unit} (hp : p.Obeys .noWhile) :
    (∃ r : Outcome × Machine σ, r.1 ≠ .outOfFuel ∧
      ∀ n, m.maxDepth - m.depth < n → runProgram (.within host n) p m = r) ∧
      ∀ (m' : Machine σ) (v : Value) (n : Nat), m'.heap.docs.size < n →
        m'.render n [] v = m'.render (m'.heap.docs.size + 1) [] v := by
  have ends := runProgram_ends h hm hp (Nat.lt_succ_self (m.maxDepth - m.depth))
  refine ⟨⟨_, ends, fun n hn => ?_⟩, fun m' v n hn => m'.render_eq_of_size_lt hn v⟩
  exact runProgram_extended host hn p m ends

/-- A function that calls itself twice, the second time in the handler of the first, ends under the
usual limit. -/
theorem terminates_of_whileFree_recursion :
    let again : Expr Unit := .call () (.var () ⟨"f", .dynamic⟩) [.var () ⟨"x", .dynamic⟩]
    let p : Program Unit :=
      [.define () [] ⟨"f", .dynamic⟩ ⟨"f", ["x"], ⟨(), [.attempt () ⟨(), [.ret () [again]]⟩
          (some ⟨none, ⟨(), [.ret () [again]]⟩⟩) none]⟩⟩,
        .forLoop () [⟨"x", .dynamic⟩] (.list () [.none (), .str () "a"]) ⟨(), [.expr () again]⟩]
    let m : Machine Thermometer := .build .empty .default
    p.Obeys .noWhile ∧ m.Stores Value.WhileFree (fun _ => True) ∧
      ∃ r : Outcome × Machine Thermometer, r.1 ≠ .outOfFuel ∧
        ∀ n, 200 < n → runProgram (.within Thermometer.host n) p m = r := by
  intro again p m
  have hh : Thermometer.host.Keeps Value.WhileFree fun _ => True :=
    Thermometer.keeps trivial (fun _ => trivial) (fun _ => trivial) fun _ => trivial
  have hp : p.Obeys .noWhile := by
    simp [p, again, Program.Obeys, StmtsObey, Stmt.Obeys, Block.Obeys, HandlerObeys, CleanupObeys,
      Function.Obeys, Expr.Obeys, ExprsObey, Rules.noWhile]
  have hm : m.Stores Value.WhileFree fun _ => True := by
    refine Machine.stores_build (fun _ => trivial) (fun _ => trivial) (fun _ => trivial) ?_
      Heap.stores_empty (by simp [Config.default])
    intro id f hf
    cases f with
    | host name => exact absurd rfl (hf name)
    | _ => trivial
  exact ⟨hp, hm, (terminates_of_whileFree hh hm hp).1⟩

end DocScript
