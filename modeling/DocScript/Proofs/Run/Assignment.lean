import DocScript.Host.Thermometer
import DocScript.Proofs.Frames
import DocScript.Proofs.Run.Live
import DocScript.Proofs.Run.Monotone

/-!
# Assigning to several variables at once

An assignment first computes all values on its right, and then writes them one after the other. A write goes to some
frame around the current one or to the globals, depending on how the variable binds. But it binds one name only, and
leaves the frames around each frame as they are, so it changes neither what another name is bound to nor where it is
found (`Machine.lookup?_assign_of_ne`), and what was written is what is found from then on
(`Machine.lookup?_assign_self`).

For targets of different names it follows that they take their values as if all were written at the same time
(`Machine.lookup?_assignEach`).
-/

namespace DocScript

variable {σ : Type}

/-! ## One variable -/

namespace Machine

variable {m m' : Machine σ} {v w : Variable} {value : Value}

/-- A write binds the name of the variable in some frame, or as a global. -/
theorem assign_cases (h : assign v value m = .ok () m') :
    (∃ i, m' = m.withFrames fun fs => fs.define i v.name value) ∨
      m' = { m with globals := m.globals.set v.name value } := by
  unfold assign at h
  cases hs : v.scope with
  | dynamic | local_ =>
    simp only [hs] at h
    cases h
    exact .inl ⟨_, rfl⟩
  | nonlocal =>
    simp only [hs] at h
    cases ha : m.heap.frames.assignOuter? m.env v.name value with
    | none =>
      simp only [ha] at h
      cases h
    | some fs =>
      obtain ⟨i, -, rfl⟩ := Option.map_eq_some_iff.1 ha
      simp only [ha] at h
      cases h
      exact .inl ⟨i, rfl⟩
  | global_ =>
    simp only [hs] at h
    cases h
    exact .inr rfl

/-- Other names are bound, and found from every frame, as before. -/
theorem lookup?_assign_of_ne (h : assign v value m = .ok () m') (hne : w.name ≠ v.name) (i : FrameId) :
    (m'.inFrame i).lookup? w = (m.inFrame i).lookup? w := by
  rcases assign_cases h with ⟨j, rfl⟩ | rfl
  · unfold lookup?
    simp only [withFrames, inFrame, Frames.get?_define_of_ne hne.symm, Frames.getLocal?_define_of_ne hne.symm,
      Frames.getOuter?_define_of_ne hne.symm]
  · unfold lookup?
    simp only [inFrame, Bindings.get?_set, if_neg hne.symm]

/-- What was written is found. -/
theorem lookup?_assign_self (hm : m.env < m.heap.frames.size) (h : assign v value m = .ok () m') :
    m'.lookup? v = some value := by
  unfold assign at h
  unfold lookup?
  cases hs : v.scope with
  | dynamic =>
    simp only [hs] at h
    cases h
    simp only [withFrames, Frames.get?_set_self hm]
  | local_ =>
    simp only [hs] at h
    cases h
    exact Frames.getLocal?_define_self hm
  | nonlocal =>
    simp only [hs] at h
    cases ha : m.heap.frames.assignOuter? m.env v.name value with
    | none =>
      simp only [ha] at h
      cases h
    | some fs =>
      simp only [ha] at h
      cases h
      exact Frames.getOuter?_assignOuter? ha
  | global_ =>
    simp only [hs] at h
    cases h
    simp only [Bindings.get?_set, if_true]

/-! ## Several variables -/

/-- A write puts the control state back, and no frame goes away. -/
theorem stays_assign (h : assign v value m = .ok () m') :
    m'.control = m.control ∧ m.heap.frames.size ≤ m'.heap.frames.size := by
  refine ⟨(after_of_ok h).1 (Steady.assign v value m), ?_⟩
  have grown := (Updating.assign v value m).frames.size_le
  rwa [stateAfter_of_ok h] at grown

theorem assignEach_cons {vs : List Variable} {values : List Value} (h : assignEach (v :: vs) values m = .ok () m') :
    ∃ m₁, assign v (Value.first values) m = .ok () m₁ ∧ assignEach vs values.tail m₁ = .ok () m' := by
  simp only [assignEach, Bind.bind, EStateM.bind] at h
  split at h
  · next m₁ hfirst => exact ⟨m₁, hfirst, h⟩
  · contradiction

/-- Names that are not written to are found as before. -/
theorem lookup?_assignEach_of_not_mem : ∀ {vs : List Variable} {values : List Value} {m m' : Machine σ},
    assignEach vs values m = .ok () m' → w.name ∉ vs.map Variable.name → ∀ i,
      (m'.inFrame i).lookup? w = (m.inFrame i).lookup? w
  | [], _, _, _, h, _, _ => by
    cases h
    rfl
  | v :: vs, values, m, m', h, hw, i => by
    obtain ⟨m₁, hfirst, hrest⟩ := assignEach_cons h
    rw [List.map_cons, List.mem_cons, not_or] at hw
    rw [lookup?_assignEach_of_not_mem hrest hw.2 i, lookup?_assign_of_ne hfirst hw.1 i]

/-- Each of several variables with different names takes the value in its place, None beyond the end. -/
theorem lookup?_assignEach : ∀ {vs : List Variable} {values : List Value} {m m' : Machine σ},
    (vs.map Variable.name).Nodup → m.env < m.heap.frames.size → assignEach vs values m = .ok () m' →
      m'.env = m.env ∧ ∀ (i : Nat) (hi : i < vs.length), m'.lookup? vs[i] = some (values[i]?.getD .none)
  | [], _, _, _, _, _, h => by
    cases h
    exact ⟨rfl, fun i hi => absurd hi (Nat.not_lt_zero i)⟩
  | v :: vs, values, m, m', hn, hm, h => by
    obtain ⟨m₁, hfirst, hrest⟩ := assignEach_cons h
    obtain ⟨hv, hvs⟩ := List.nodup_cons.1 hn
    obtain ⟨hcontrol, hsize⟩ := stays_assign hfirst
    have henv : m₁.env = m.env := congrArg Control.env hcontrol
    obtain ⟨henv', hlookup⟩ := lookup?_assignEach hvs (henv ▸ Nat.lt_of_lt_of_le hm hsize) hrest
    refine ⟨henv'.trans henv, fun i hi => ?_⟩
    cases i with
    | zero =>
      -- what is written later has other names
      have hkept := lookup?_assignEach_of_not_mem hrest hv m₁.env
      have hback : m'.inFrame m₁.env = m' := by rw [← henv']; rfl
      rw [hback] at hkept
      calc m'.lookup? v = m₁.lookup? v := hkept
        _ = some (Value.first values) := lookup?_assign_self hm hfirst
        _ = _ := by cases values <;> rfl
    | succ i =>
      have hi' := hlookup i (Nat.lt_of_succ_lt_succ hi)
      rw [List.getElem?_tail] at hi'
      exact hi'

/-- Variables that have values can all be assigned to. -/
theorem assignEach_ok : ∀ {vs : List Variable} {m : Machine σ} (values : List Value),
    (vs.map Variable.name).Nodup → (∀ v ∈ vs, (m.lookup? v).isSome) → ∃ m', assignEach vs values m = .ok () m'
  | [], m, _, _, _ => ⟨m, rfl⟩
  | v :: vs, m, values, hn, h => by
    obtain ⟨hv, hvs⟩ := List.nodup_cons.1 hn
    obtain ⟨hfound, hrest⟩ := List.forall_mem_cons.1 h
    obtain ⟨m₁, hfirst⟩ := assign_ok hfound (Value.first values)
    have henv : m₁.env = m.env := congrArg Control.env (stays_assign hfirst).1
    obtain ⟨m', hm'⟩ := assignEach_ok (m := m₁) values.tail hvs fun w hw => by
      have hne : w.name ≠ v.name := fun he => hv (he ▸ List.mem_map_of_mem hw)
      have hsame := lookup?_assign_of_ne hfirst hne m.env
      have hback : m₁.inFrame m.env = m₁ := by rw [← henv]; rfl
      rw [hback] at hsame
      exact hsame ▸ hrest w hw
    refine ⟨m', ?_⟩
    simp only [assignEach, Bind.bind, EStateM.bind, hfirst, hm']

end Machine

/-! ## Assignments -/

namespace Calls

theorem assignTargets_vars (k : Calls σ) : ∀ (vs : List Variable) (values : List Value),
    k.assignTargets (vs.map (.var ())) values = Machine.assignEach vs values
  | [], _ => rfl
  | v :: vs, values => by
    rw [List.map_cons, assignTargets, Machine.assignEach]
    simp only [assignTargets_vars k vs]

/-- Reading variables that have values gives these. -/
theorem evalSpread_vars (k : Calls σ) {m : Machine σ} : ∀ {vs : List Variable}, (∀ v ∈ vs, (m.lookup? v).isSome) →
    ∃ values, k.evalSpread (vs.map (.var ())) m = .ok values m ∧ values.map some = vs.map m.lookup?
  | [], _ => ⟨[], rfl, rfl⟩
  | v :: vs, h => by
    obtain ⟨hv, hvs⟩ := List.forall_mem_cons.1 h
    obtain ⟨value, hvalue⟩ := Option.isSome_iff_exists.1 hv
    obtain ⟨values, heval, hvalues⟩ := evalSpread_vars k hvs
    refine ⟨value :: values, ?_, by rw [List.map_cons, List.map_cons, hvalue, hvalues]⟩
    have hread : k.eval (.var () v) m = .ok value m := by rw [eval, Machine.lookup, hvalue]
    have hcons : k.evalSpread ((v :: vs).map (.var ())) = do
        let v ← k.eval (.var () v)
        let vs ← k.evalSpread (vs.map (.var ()))
        return v :: vs := by
      rw [List.map_cons, evalSpread]
      simp
    rw [hcons]
    simp only [Bind.bind, EStateM.bind, hread, heval, Pure.pure, EStateM.pure]

theorem exec_assign_vars (k : Calls σ) (vs : List Variable) (es : List (Expr Unit)) :
    k.exec (.assign () (vs.map (.var ())) es) =
      Exec.lift (k.evalSpread es) >>= fun values => Exec.lift (Machine.assignEach vs values) := by
  rw [exec]
  simp only [assignTargets_vars]

theorem evalSpread_steady (host : Host σ) (n : Nat) (es : List (Expr Unit)) : Steady ((within host n).evalSpread es) :=
  steady_of_maintains fun c =>
    Discipline.evalSpread_keeps ((Discipline.lawful_all host).under c) (Discipline.callsKeep_all host n c) es
      (exprsObey_free es)

/-- An assignment that succeeds has computed its values, on a machine whose code is still in its frame, before it
writes them. -/
theorem exec_assign_ok {host : Host σ} {n : Nat} {m m' : Machine σ} {vs : List Variable} {es : List (Expr Unit)}
    (hm : m.env < m.heap.frames.size)
    (h : (within host n).exec (.assign () (vs.map (.var ())) es) m = .ok () m') :
    ∃ values m₁, (within host n).evalSpread es m = .ok values m₁ ∧ m₁.env < m₁.heap.frames.size ∧
      Machine.assignEach vs values m₁ = .ok () m' := by
  have hsteady := evalSpread_steady host n es m
  have hgrown := Moment.grows_final host ⟨n, .spread es, m⟩
  rw [exec_assign_vars] at h
  cases heval : (within host n).evalSpread es m with
  | error f m₁ => simp [Bind.bind, EStateM.bind, Exec.lift, heval] at h
  | ok values m₁ =>
    have henv : m₁.env = m.env := congrArg Control.env ((after_of_ok heval).1 hsteady)
    have hfinal : Moment.final host ⟨n, .spread es, m⟩ = m₁ := stateAfter_of_ok heval
    rw [hfinal] at hgrown
    refine ⟨values, m₁, rfl, henv ▸ Nat.lt_of_lt_of_le hm hgrown.frames.size_le, ?_⟩
    cases hwrite : Machine.assignEach vs values m₁ with
    | ok _ m₂ => simpa [Bind.bind, EStateM.bind, Exec.lift, heval, hwrite] using h
    | error f m₂ => simp [Bind.bind, EStateM.bind, Exec.lift, heval, hwrite] at h

end Calls

/-- An assignment to variables with different names, of whatever scopes, at every moment of a run. If its values cannot
be computed, the machine is the one on which they could not. If it succeeds, each variable has the value in its place,
None beyond the end, and every other name is found from every frame as it was when the values were computed. Variables
that have values can be permuted. -/
theorem assignment_parallel {host : Host σ} (n : Nat) {m : Machine σ} (hm : m.Live host)
    {vs : List Variable} (hvs : (vs.map Variable.name).Nodup) :
    (∀ es f m₁, (Calls.within host n).evalSpread es m = .error f m₁ →
      (Calls.within host n).exec (.assign () (vs.map (.var ())) es) m = .error (.fault f) m₁) ∧
    (∀ es m', (Calls.within host n).exec (.assign () (vs.map (.var ())) es) m = .ok () m' →
      ∃ values m₁, (Calls.within host n).evalSpread es m = .ok values m₁ ∧
        (∀ (i : Nat) (hi : i < vs.length), m'.lookup? vs[i] = some (values[i]?.getD .none)) ∧
        ∀ w : Variable, w.name ∉ vs.map Variable.name → ∀ i, (m'.inFrame i).lookup? w = (m₁.inFrame i).lookup? w) ∧
    ∀ us : List Variable, us.Perm vs → (∀ v ∈ vs, (m.lookup? v).isSome) →
      ∃ m', (Calls.within host n).exec (.assign () (vs.map (.var ())) (us.map (.var ()))) m = .ok () m' ∧
        vs.map m'.lookup? = us.map m.lookup? := by
  refine ⟨fun es f m₁ heval => ?_, fun es m' h => ?_, fun us hus hfound => ?_⟩
  · rw [Calls.exec_assign_vars]
    simp only [Bind.bind, EStateM.bind, Exec.lift, heval]
  · obtain ⟨values, m₁, heval, hm₁, hwrite⟩ := Calls.exec_assign_ok hm.env_lt h
    exact ⟨values, m₁, heval, (Machine.lookup?_assignEach hvs hm₁ hwrite).2,
      fun w hw => Machine.lookup?_assignEach_of_not_mem hwrite hw⟩
  · obtain ⟨values, heval, hvalues⟩ := Calls.evalSpread_vars (.within host n) fun v hv => hfound v (hus.subset hv)
    obtain ⟨m', hwrite⟩ := Machine.assignEach_ok values hvs hfound
    have hlength : values.length = vs.length := by
      rw [← List.length_map (f := some), hvalues, List.length_map, hus.length_eq]
    refine ⟨m', ?_, ?_⟩
    · rw [Calls.exec_assign_vars]
      simp only [Bind.bind, EStateM.bind, Exec.lift, heval, hwrite]
    · rw [← hvalues]
      refine List.ext_getElem (by simp [hlength]) fun i hi hi' => ?_
      rw [List.length_map] at hi hi'
      rw [List.getElem_map, List.getElem_map, (Machine.lookup?_assignEach hvs hm.env_lt hwrite).2 i hi,
        List.getElem?_eq_getElem hi', Option.getD_some]

/-- In a function, variables of three scopes are permuted, and others are assigned to from too few values. -/
theorem assignment_parallel_scopes :
    let frames := ((Frames.empty.push .none).define 0 "x" (.str "1")).define 0 "y" (.str "2")
    let module : Machine Thermometer := (Machine.build .empty .default).withFrames fun _ => frames
    let m := Calls.enter ⟨"f", ["a"], ⟨(), []⟩, 0⟩ [.str "3"] module
    let x : Variable := ⟨"x", .nonlocal⟩
    let a : Variable := ⟨"a", .local_⟩
    let y : Variable := ⟨"y", .dynamic⟩
    let g : Variable := ⟨"g", .global_⟩
    m.Live Thermometer.host ∧
      (∃ m', (Calls.within Thermometer.host 1).exec (.assign () [.var () x, .var () a, .var () y]
        [.var () a, .var () y, .var () x]) m = .ok () m' ∧
          [x, a, y].map m'.lookup? = [some (.str "3"), some (.str "2"), some (.str "1")]) ∧
      ∃ m', (Calls.within Thermometer.host 1).exec (.assign () [.var () y, .var () g] [.var () a]) m = .ok () m' ∧
        m'.lookup? y = some (.str "3") ∧ m'.lookup? g = some .none ∧ (m'.inFrame 1).lookup? x = some (.str "1") := by
  intro frames module m x a y g
  have hm : m.Live Thermometer.host := by
    have hempty : Heap.Ordered (Heap.empty : Heap Thermometer) := by simp [Heap.Ordered, Heap.empty]
    have hgrows : (Frames.empty.push .none).Grows frames := (Frames.grows_define ..).trans (Frames.grows_define ..)
    have hmodule : Session Thermometer.host module :=
      .supply (Machine.tidy_build hempty .default).docs hgrows (.build .default hempty)
    have hstarts : Moment.Starts Thermometer.host ⟨1, .body ⟨"f", ["a"], ⟨(), []⟩, 0⟩ [.str "3"], module⟩
        ⟨1, .stmts [], m⟩ := .head _
    exact .running hmodule rfl rfl (by decide) (.single hstarts)
  have hthree : ([x, a, y].map Variable.name).Nodup := by decide
  have htwo : ([y, g].map Variable.name).Nodup := by decide
  obtain ⟨m', hexec, hpermuted⟩ := (assignment_parallel 1 hm hthree).2.2 [a, y, x] (by decide) (by decide)
  refine ⟨hm, ⟨m', hexec, hpermuted⟩, ?_⟩
  have hexec' : ∃ m', (Calls.within Thermometer.host 1).exec (.assign () [.var () y, .var () g] [.var () a]) m =
      .ok () m' := ⟨_, rfl⟩
  obtain ⟨m', hexec'⟩ := hexec'
  obtain ⟨values, m₁, heval, htaken, hothers⟩ := (assignment_parallel 1 hm htwo).2.1 [.var () a] m' hexec'
  have hvalues : (Calls.within Thermometer.host 1).evalSpread [.var () a] m = .ok [.str "3"] m := rfl
  cases hvalues.symm.trans heval
  exact ⟨m', hexec', htaken 0 (by decide), htaken 1 (by decide), hothers x (by decide) 1⟩

end DocScript
