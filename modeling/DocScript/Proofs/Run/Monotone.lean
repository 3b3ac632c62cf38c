import DocScript.Proofs.Run.Course
import DocScript.Proofs.Run.Descent

/-!
# Nothing is taken away

Each operation on a machine only adds to it or overwrites, and a run is made of such operations, so
machines grow along runs : from the start of a task to its end (`Moment.grows_final`), whatever came of it,
and from each moment to all that come later in the run, be they inside the task or after it
(`Moment.grows_of_precedes`).

What has grown still defines all that it defined. So once a variable was found from a frame, looking it
up from that frame or assigning to it never fails again.
-/

namespace DocScript

variable {σ : Type}

/-! ## Growth along a run -/

namespace Moment

variable {host : Host σ} {x y z : Moment σ}

theorem grows_of_does {a b : Machine σ} (h : x.Does host a b) : a.Grows b := by
  rcases h with h | ⟨d, _, rfl⟩
  · exact h.toGrows
  · exact Machine.grows_newDoc d a

/-- Along each task, machines grow. -/
theorem grows_final (host : Host σ) (x : Moment σ) : x.machine.Grows (x.final host) := by
  induction acc_starts host x with
  | intro x _ ih => exact ((x.course host).related .refl .trans grows_of_does ih).1

theorem grows_of_starts (h : x.Starts host y) :
    x.machine.Grows y.machine ∧ (y.final host).Grows (x.final host) :=
  ((x.course host).related .refl .trans grows_of_does fun y _ => y.grows_final host).2 y h

theorem grows_of_reaches (h : x.Reaches host y) :
    x.machine.Grows y.machine ∧ (y.final host).Grows (x.final host) := by
  induction h with
  | refl => exact ⟨.refl _, .refl _⟩
  | tail _ hs ih =>
    obtain ⟨before, after⟩ := grows_of_starts hs
    exact ⟨ih.1.trans before, after.trans ih.2⟩

/-- `z` is started later than `y` : by `y` itself, or by a task that has already started another one to
which `y` belongs. -/
inductive Precedes (host : Host σ) : Moment σ → Moment σ → Prop
  | starts {y z : Moment σ} : y.Starts host z → Precedes host y z
  | next {x y' y z : Moment σ} {xs ys : List (Moment σ)} : x.started host = xs ++ y' :: ys →
    y'.Reaches host y → z ∈ ys → Precedes host y z

theorem grows_of_precedes (h : Precedes host y z) : y.machine.Grows z.machine := by
  cases h with
  | starts h => exact (grows_of_starts h).1
  | @next x y' _ _ xs ys hx hy hz =>
    have between := x.course host
    rw [hx] at between
    have next := between.behind.related .refl .trans grows_of_does fun y _ => y.grows_final host
    exact ((y.grows_final host).trans (grows_of_reaches hy).2).trans (next.2 z hz).1

end Moment

/-! ## Variables -/

theorem Machine.lookup_eq_ok {m : Machine σ} {v : Variable} :
    (∃ value, lookup v m = .ok value m) ↔ (m.lookup? v).isSome := by
  unfold lookup
  cases hv : m.lookup? v with
  | some value => exact iff_of_true ⟨value, rfl⟩ rfl
  | none =>
    refine iff_of_false ?_ Bool.false_ne_true
    rintro ⟨_, h⟩
    cases h

/-- Where a variable has a value, it can be assigned to. -/
theorem Machine.assign_ok {m : Machine σ} {v : Variable} (hv : (m.lookup? v).isSome) (value : Value) :
    ∃ m', assign v value m = .ok () m' := by
  unfold Machine.lookup? at hv
  unfold assign
  cases hs : v.scope with
  | nonlocal =>
    -- the frame in which the variable was found is the one to assign in
    have found : (m.heap.frames.nearest? v.name (m.heap.frames.outer m.env)).isSome := by
      simp only [hs, Frames.getOuter?, List.isSome_findSome?] at hv
      rwa [Frames.nearest?, List.find?_isSome, ← List.any_eq_true]
    obtain ⟨j, hj⟩ := Option.isSome_iff_exists.1 found
    simp [Frames.assignOuter?, Frames.assignAlong, hj]
  | _ => exact ⟨_, rfl⟩

/-- Expressions, statements, calls and scripts take nothing away from a machine, whatever comes of them,
and within a run, the machine of a moment has all that was there at the moments before it. On a machine
that has grown, the host reads more behind what it has read, and a variable that was found from a frame
is still found from there, and can be assigned to. -/
theorem machines_grow (host : Host σ) (n : Nat) :
    ((∀ e, Growing ((Calls.within host n).eval e)) ∧ (∀ s, Growing ((Calls.within host n).exec s)) ∧
      (∀ callee args, Growing (callWithin host n callee args)) ∧
        (∀ callee args, Growing (callSingle host n callee args)) ∧
          ∀ text (m : Machine σ), m.Grows (interpret host n text m).2) ∧
      (∀ y z, Relation.ReflTransGen (Moment.Precedes host) y z → y.machine.Grows z.machine) ∧
        ∀ m m' : Machine σ, m.Grows m' → (∃ more, m'.output.read = m.output.read ++ more) ∧ ∀ i v,
          (∃ value, Machine.lookup v (m.inFrame i) = .ok value (m.inFrame i)) →
            (∃ value, Machine.lookup v (m'.inFrame i) = .ok value (m'.inFrame i)) ∧
              ∀ w, ∃ m'', Machine.assign v w (m'.inFrame i) = .ok () m'' := by
  refine ⟨⟨fun e m => ?_, fun s m => ?_, fun callee args m => ?_, fun callee args m => ?_, fun text m => ?_⟩,
    fun y z h => ?_, fun m m' h => ⟨h.read, fun i v hv => ?_⟩⟩
  · exact Moment.grows_final host ⟨n, .expr e, m⟩
  · exact Moment.grows_final host ⟨n, .stmt s, m⟩
  · exact Moment.grows_final host ⟨n, .call callee args, m⟩
  · rw [callSingle, stateAfter_bind_pure]
    exact Moment.grows_final host ⟨n, .call callee args, m⟩
  · have entered : m.Grows { m with env := m.root, depth := 0 } := { Machine.Grows.refl m with }
    dsimp only [interpret]
    split
    · exact entered
    · exact entered.trans (Moment.grows_final host ⟨n, .program _, { m with env := m.root, depth := 0 }⟩)
  · induction h with
    | refl => exact .refl _
    | tail _ hz ih => exact ih.trans (Moment.grows_of_precedes hz)
  · have grown : (m.inFrame i).Grows (m'.inFrame i) := { h with }
    have found := grown.lookup? rfl (Machine.lookup_eq_ok.1 hv)
    exact ⟨Machine.lookup_eq_ok.2 found, Machine.assign_ok found⟩

end DocScript
