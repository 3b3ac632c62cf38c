import DocScript.Machine.Session
import DocScript.Proofs.Outcome

/-!
# Machines only grow

Code can add to what is on a machine and overwrite it, but takes nothing away. `Machine.Grows m m'`
says what of `m` is still there in `m'` : the frames with their parents and with all names that they
bind, the globals, the docs with their prototypes and all their keys, and the output. It is a
preorder, so what each single operation does to a machine carries over to whole runs.

Nothing that a variable can be looked up in goes away, so a variable that has a value in a frame keeps
having one there (`Machine.Grows.lookup?`).
-/

namespace DocScript

variable {σ β γ ε : Type}

/-! ## Bindings and frames -/

/-- All names that are bound stay bound. -/
def Bindings.Grows (bs bs' : Bindings) : Prop := ∀ x, (bs.get? x).isSome → (bs'.get? x).isSome

theorem Bindings.grows_set (bs : Bindings) (x : String) (v : Value) : bs.Grows (Bindings.set x v bs) := by
  intro y hy
  rw [Bindings.get?_set]
  split
  · rfl
  · exact hy

/-- All frames keep their parents and the names that they bind. -/
structure Frames.Grows (fs fs' : Frames) : Prop where
  size_le : fs.size ≤ fs'.size
  parent : ∀ i < fs.size, fs'.parent? i = fs.parent? i
  bound : ∀ i x, (fs.getLocal? i x).isSome → (fs'.getLocal? i x).isSome

namespace Frames

variable {fs fs' fs'' : Frames}

theorem Grows.refl (fs : Frames) : fs.Grows fs :=
  ⟨Nat.le_refl _, fun _ _ => rfl, fun _ _ => id⟩

theorem Grows.trans (h : fs.Grows fs') (h' : fs'.Grows fs'') : fs.Grows fs'' where
  size_le := Nat.le_trans h.size_le h'.size_le
  parent i hi := (h'.parent i (Nat.lt_of_lt_of_le hi h.size_le)).trans (h.parent i hi)
  bound i x hx := h'.bound i x (h.bound i x hx)

theorem grows_push (fs : Frames) (parent : Option FrameId) : fs.Grows (fs.push parent) where
  size_le := by
    rw [size_push]
    exact Nat.le_succ _
  parent i hi := by
    have hne : i ≠ fs.cells.size := Nat.ne_of_lt hi
    simp [parent?, push, Array.getElem?_push, hne]
  bound i x hx := by rwa [getLocal?_push]

theorem grows_define (fs : Frames) (i : FrameId) (x : String) (v : Value) :
    fs.Grows (fs.define i x v) where
  size_le := Nat.le_of_eq (size_define fs i x v).symm
  parent j _ := parent?_define fs i j x v
  bound j y hy := by
    rw [getLocal?_define]
    split
    · rfl
    · exact hy

theorem grows_assignOuter? {i : FrameId} {x : String} {v : Value}
    (h : fs.assignOuter? i x v = some fs') : fs.Grows fs' := by
  obtain ⟨j, _, rfl⟩ := Option.map_eq_some_iff.1 h
  exact grows_define fs j x v

theorem grows_bindParams (i : FrameId) : ∀ (ps : List String) (fs : Frames) (args : List Value),
    fs.Grows (Calls.bindParams fs i ps args)
  | [], fs, _ => .refl fs
  | p :: ps, fs, args => (grows_define fs i p _).trans (grows_bindParams i ps _ args.tail)

theorem lt_size_of_parent? {i p : FrameId} (h : fs.parent? i = some p) : i < fs.size := by
  obtain ⟨f, hf, _⟩ := Option.bind_eq_some_iff.1 h
  exact (Array.getElem?_eq_some_iff.1 hf).1

/-- The frames outwards from a frame stay around it. -/
theorem Grows.mem_chainOf (h : fs.Grows fs') {j : FrameId} : ∀ (n : Nat) (i : FrameId),
    j ∈ fs.chainOf n i → j ∈ fs'.chainOf n i
  | 0, _, hj => by simp [chainOf] at hj
  | n + 1, i, hj => by
    rw [chainOf] at hj ⊢
    cases hp : fs.parent? i with
    | none =>
      -- the frame may get a parent only if it is not there yet
      obtain rfl : j = i := by simpa [hp] using hj
      cases fs'.parent? j <;> simp
    | some p =>
      have hp' : fs'.parent? i = some p := (h.parent i (lt_size_of_parent? hp)).trans hp
      simp only [hp, List.mem_cons] at hj
      simp only [hp', List.mem_cons]
      rcases hj with rfl | hj
      · exact Or.inl rfl
      · exact Or.inr (h.mem_chainOf n p hj)

theorem Grows.mem_outer (h : fs.Grows fs') {i j : FrameId} (hj : j ∈ fs.outer i) : j ∈ fs'.outer i := by
  unfold outer at hj ⊢
  cases hp : fs.parent? i with
  | none => simp [hp] at hj
  | some p =>
    have hp' : fs'.parent? i = some p := (h.parent i (lt_size_of_parent? hp)).trans hp
    simp only [hp] at hj
    simp only [hp']
    exact h.mem_chainOf _ _ hj

/-- A name that is found in some frames is found in those that they became, and in any more. -/
theorem Grows.findSome? (h : fs.Grows fs') {x : String} {is is' : List FrameId}
    (hs : ∀ j ∈ is, j ∈ is') (hx : (is.findSome? (fs.getLocal? · x)).isSome) :
    (is'.findSome? (fs'.getLocal? · x)).isSome := by
  rw [List.isSome_findSome?, List.any_eq_true] at hx ⊢
  obtain ⟨j, hj, hb⟩ := hx
  exact ⟨j, hs j hj, h.bound j x hb⟩

end Frames

/-! ## Docs -/

/-- The doc keeps its prototype and all its keys. -/
structure Doc.Grows (d d' : Doc) : Prop where
  proto : d'.proto = d.proto
  has : ∀ key, (d.get? key).isSome → (d'.get? key).isSome

namespace Doc

variable {d d' d'' : Doc}

theorem Grows.refl (d : Doc) : d.Grows d := ⟨rfl, fun _ => id⟩

theorem Grows.trans (h : d.Grows d') (h' : d'.Grows d'') : d.Grows d'' :=
  ⟨h'.proto.trans h.proto, fun key hk => h'.has key (h.has key hk)⟩

/-- What is found under a key is not lost by inserting under another one, in whatever order the entries
are. -/
theorem isSome_getKey?_insertKey (k k' : Key) (v : Value) : ∀ es : List (Key × Value),
    (getKey? k es).isSome → (getKey? k (insertKey k' v es)).isSome
  | [], h => by simp [getKey?] at h
  | (k₀, w) :: es, h => by
    rw [getKey?] at h
    rw [insertKey]
    cases hk' : k'.cmp k₀ with
    | lt =>
      -- the key looked for is not in front of `k₀`, so it is behind `k'`
      have behind : k.cmp k' = .gt := by
        cases hk : k.cmp k₀ with
        | lt => simp [hk] at h
        | eq => rw [Std.TransCmp.congr_left hk, Std.OrientedCmp.gt_iff_lt]; exact hk'
        | gt => exact Std.TransCmp.gt_trans hk (Std.OrientedCmp.gt_iff_lt.2 hk')
      simp only [getKey?, behind]
      exact h
    | eq =>
      simp only [getKey?]
      cases hk : k.cmp k₀ with
      | lt => simp [hk] at h
      | eq => rfl
      | gt => simpa [hk] using h
    | gt =>
      simp only [getKey?]
      cases hk : k.cmp k₀ with
      | lt => simp [hk] at h
      | eq => rfl
      | gt => exact isSome_getKey?_insertKey k k' v es (by simpa [hk] using h)

theorem grows_insert (d : Doc) (key value : Value) : d.Grows (d.insert key value) :=
  ⟨rfl, fun _ h => isSome_getKey?_insertKey _ _ _ _ h⟩

end Doc

/-! ## Machines -/

/-- What of a machine is still there in another one. -/
structure Machine.Grows (m m' : Machine σ) : Prop where
  frames : m.heap.frames.Grows m'.heap.frames
  globals : m.globals.Grows m'.globals
  docs : ∀ id d, m.doc? id = some d → ∃ d', m'.doc? id = some d' ∧ d.Grows d'
  output : ∃ more, m'.output = ⟨m.output.captured, m.output.text ++ more⟩

namespace Machine

variable {m m' m'' : Machine σ}

theorem Grows.refl (m : Machine σ) : m.Grows m where
  frames := .refl _
  globals _ := id
  docs _ d hd := ⟨d, hd, .refl d⟩
  output := ⟨"", by simp⟩

theorem Grows.trans (h : m.Grows m') (h' : m'.Grows m'') : m.Grows m'' where
  frames := h.frames.trans h'.frames
  globals x hx := h'.globals x (h.globals x hx)
  docs id d hd := by
    obtain ⟨d', hd', g⟩ := h.docs id d hd
    obtain ⟨d'', hd'', g'⟩ := h'.docs id d' hd'
    exact ⟨d'', hd'', g.trans g'⟩
  output := by
    obtain ⟨more, ho⟩ := h.output
    obtain ⟨more', ho'⟩ := h'.output
    exact ⟨more ++ more', by rw [ho', ho, String.append_assoc]⟩

/-- What the host has read of the output stays in front of what it reads later. -/
theorem Grows.read (h : m.Grows m') : ∃ more, m'.output.read = m.output.read ++ more := by
  obtain ⟨more, ho⟩ := h.output
  rw [ho, Output.read, Output.read]
  cases m.output.captured
  · exact ⟨"", rfl⟩
  · exact ⟨more, rfl⟩

/-- Where a variable has a value, it keeps having one. -/
theorem Grows.lookup? (h : m.Grows m') (he : m'.env = m.env) {v : Variable}
    (hv : (m.lookup? v).isSome) : (m'.lookup? v).isSome := by
  unfold Machine.lookup? at hv ⊢
  rw [he]
  cases hs : v.scope with
  | dynamic =>
    simp only [hs] at hv ⊢
    have kept : (m.heap.frames.get? m.env v.name).isSome → (m'.heap.frames.get? m.env v.name).isSome :=
      h.frames.findSome? fun _ => h.frames.mem_chainOf _ _
    cases hl' : m'.heap.frames.get? m.env v.name with
    | some _ => rfl
    | none =>
      cases hl : m.heap.frames.get? m.env v.name with
      | some _ => simp [hl, hl'] at kept
      | none =>
        rw [hl] at hv
        exact h.globals v.name hv
  | local_ =>
    simp only [hs] at hv ⊢
    exact h.frames.bound _ _ hv
  | nonlocal =>
    simp only [hs] at hv ⊢
    exact h.frames.findSome? (fun j => h.frames.mem_outer) hv
  | global_ =>
    simp only [hs] at hv ⊢
    exact h.globals v.name hv

end Machine

/-! ## Operations -/

/-- Whatever comes of `x`, all that was on the machine is still there. -/
def Growing (x : EStateM ε (Machine σ) β) : Prop :=
  ∀ m : Machine σ, m.Grows (stateAfter x m)

/-- The machine grows, but it has no new docs, and the prototype of its lists is the same. -/
structure Machine.Updates (m m' : Machine σ) : Prop extends m.Grows m' where
  docs_size : m'.heap.docs.size = m.heap.docs.size
  arrayProto : m'.arrayProto = m.arrayProto

namespace Machine

variable {m m' m'' : Machine σ}

theorem Updates.refl (m : Machine σ) : m.Updates m := ⟨.refl m, rfl, rfl⟩

theorem Updates.trans (h : m.Updates m') (h' : m'.Updates m'') : m.Updates m'' :=
  ⟨h.toGrows.trans h'.toGrows, h'.docs_size.trans h.docs_size, h'.arrayProto.trans h.arrayProto⟩

/-- A machine that differs only in where its code runs, its boxes and its numbers has all that was
there. -/
theorem updates_of_eq (hf : m'.heap.frames = m.heap.frames) (hd : m'.heap.docs = m.heap.docs)
    (hg : m'.globals = m.globals) (ho : m'.output = m.output) (hp : m'.arrayProto = m.arrayProto) :
    m.Updates m' where
  frames := hf ▸ .refl _
  globals x hx := hg ▸ hx
  docs id d h := ⟨d, by rw [doc?, hd]; exact h, .refl d⟩
  output := ⟨"", by simp [ho]⟩
  docs_size := by rw [hd]
  arrayProto := hp

theorem updates_withFrames {f : Frames → Frames} (hf : m.heap.frames.Grows (f m.heap.frames)) :
    m.Updates (m.withFrames f) :=
  { Updates.refl m with frames := hf }

theorem updates_enter (f : Closure) (args : List Value) (m : Machine σ) :
    m.Updates (Calls.enter f args m) := by
  have frames := (m.heap.frames.grows_push (some f.env)).trans
    (Frames.grows_bindParams m.heap.frames.size f.params _ args)
  exact { Updates.refl m with frames }

theorem updates_modifyDoc (m : Machine σ) (id : DocId) {f : Doc → Doc} (hf : ∀ d : Doc, d.Grows (f d)) :
    m.Updates { m with heap := { m.heap with docs := m.heap.docs.modify id f } } where
  frames := .refl _
  globals _ hx := hx
  docs i d hd := by
    have hd : m.heap.docs[i]? = some d := hd
    simp only [doc?, Array.getElem?_modify, hd, Option.map_some]
    split
    · exact ⟨f d, rfl, hf d⟩
    · exact ⟨d, rfl, .refl d⟩
  output := ⟨"", by simp⟩
  docs_size := Array.size_modify
  arrayProto := rfl

/-- A new doc leaves the others alone. -/
theorem grows_newDoc (d : Doc) : Growing (newDoc d : Eval σ Value) := fun m =>
  { Grows.refl m with
    docs := fun id d' hd' => by
      refine ⟨d', ?_, .refl d'⟩
      have hlt : id < m.heap.docs.size := (Array.getElem?_eq_some_iff.1 hd').1
      simp only [stateAfter, newDoc, doc?, Array.getElem?_push, Nat.ne_of_lt hlt, if_false]
      exact hd' }

end Machine

theorem stateAfter_lift (x : Eval σ β) (m : Machine σ) : stateAfter (Exec.lift x) m = stateAfter x m := by
  unfold stateAfter Exec.lift
  cases x m <;> rfl

/-- Whatever comes of `x`, it updates the machine. -/
def Updating (x : EStateM ε (Machine σ) β) : Prop :=
  ∀ m : Machine σ, m.Updates (stateAfter x m)

namespace Updating

theorem pure (b : β) : Updating (Pure.pure b : EStateM ε (Machine σ) β) := fun m => .refl m

theorem fail (t : Trouble) : Updating (Eval.fail t : Eval σ β) := fun m => .refl m

theorem ofExcept (r : Except Trouble β) : Updating (Eval.ofExcept r : Eval σ β) := by
  cases r with
  | ok b => exact pure b
  | error t => exact fail t

theorem bind {x : EStateM ε (Machine σ) γ} {f : γ → EStateM ε (Machine σ) β} (hx : Updating x)
    (hf : ∀ c, Updating (f c)) : Updating (x >>= f) := by
  intro m
  have first := hx m
  cases hr : x m with
  | ok c m₁ =>
    rw [stateAfter_of_ok hr] at first
    rw [stateAfter_bind_of_ok hr]
    exact first.trans (hf c m₁)
  | error e m₁ =>
    rw [stateAfter_of_error hr] at first
    rwa [stateAfter_bind_of_error hr]

theorem lift {x : Eval σ β} (hx : Updating x) : Updating (Exec.lift x) := fun m =>
  stateAfter_lift x m ▸ hx m

theorem lookup (v : Variable) : Updating (Machine.lookup v : Eval σ Value) := by
  intro m
  unfold stateAfter Machine.lookup
  cases m.lookup? v <;> exact .refl m

theorem defineLocal (x : String) (value : Value) :
    Updating (Machine.defineLocal x value : Eval σ Unit) := by
  intro m
  unfold stateAfter Machine.defineLocal
  exact Machine.updates_withFrames (Frames.grows_define _ _ _ _)

theorem assign (v : Variable) (value : Value) : Updating (Machine.assign v value : Eval σ Unit) := by
  intro m
  unfold stateAfter Machine.assign
  cases v.scope with
  | dynamic => exact Machine.updates_withFrames (Frames.grows_define _ _ _ _)
  | local_ => exact Machine.updates_withFrames (Frames.grows_define _ _ _ _)
  | nonlocal =>
    dsimp only
    cases h : m.heap.frames.assignOuter? m.env v.name value with
    | none => exact .refl m
    | some fs => exact Machine.updates_withFrames (Frames.grows_assignOuter? h)
  | global_ => exact { Machine.Updates.refl m with globals := Bindings.grows_set _ _ _ }

theorem bindVariable (v : Variable) (value : Value) :
    Updating (Machine.bind v value : Eval σ Unit) := by
  unfold Machine.bind
  split
  · exact defineLocal _ _
  · exact assign _ _

theorem assignEach : ∀ (vs : List Variable) (values : List Value),
    Updating (Machine.assignEach vs values : Eval σ Unit)
  | [], _ => pure ()
  | v :: vs, values => (assign v _).bind fun _ => assignEach vs values.tail

theorem newFunction (f : Function Unit) : Updating (Machine.newFunction f : Eval σ Value) := fun _ =>
  Machine.updates_of_eq rfl rfl rfl rfl rfl

theorem newMethod (receiver callable : Value) :
    Updating (Machine.newMethod receiver callable : Eval σ Value) := fun _ =>
  Machine.updates_of_eq rfl rfl rfl rfl rfl

variable (host : Host σ)

theorem index (object key : Value) : Updating (Machine.index host object key) := by
  intro m
  cases object <;> exact .refl m

theorem prototype (object : Value) : Updating (Machine.prototype host object) := by
  intro m
  cases object <;> exact .refl m

theorem arrow (object key : Value) : Updating (Machine.arrow host object key) := by
  refine (prototype host object).bind fun proto => ?_
  cases proto with
  | none => exact pure _
  | some proto =>
    refine (index host proto key).bind fun found => ?_
    split
    · exact newMethod _ _
    · exact pure _

theorem setIndex (object key value : Value) : Updating (Machine.setIndex host object key value) := by
  intro m
  cases object with
  | doc id => exact Machine.updates_modifyDoc m id fun d => d.grows_insert key value
  | box id _ =>
    unfold stateAfter Machine.setIndex
    dsimp only
    rcases m.heap.boxes[id]?.map (host.setIndex · key value) with _ | _ | _
    · exact .refl m
    · exact .refl m
    · exact Machine.updates_of_eq rfl rfl rfl rfl rfl
  | _ => exact .refl m

theorem pairs (iterable : Value) : Updating (Machine.pairs iterable : Eval σ _) := by
  intro m
  cases iterable <;> exact .refl m

theorem println (args : List Value) : Updating (Calls.println args : Eval σ Value) := by
  intro m
  have output : ∃ more, (stateAfter (Calls.println args) m).output =
      ⟨m.output.captured, m.output.text ++ more⟩ :=
    ⟨String.intercalate " " (args.map m.display) ++ "\n", by rw [← String.append_assoc]; rfl⟩
  exact { Machine.Updates.refl m with output }

theorem len (args : List Value) : Updating (Calls.len args : Eval σ Value) := by
  intro m
  rcases args with _ | ⟨v, args⟩
  · exact .refl m
  · cases v <;> exact .refl m

theorem push (args : List Value) : Updating (Calls.push args : Eval σ Value) := by
  intro m
  rcases args with _ | ⟨v, args⟩
  · exact .refl m
  · cases v with
    | doc id => exact Machine.updates_modifyDoc m id fun d => d.grows_insert _ _
    | _ => exact .refl m

end Updating

end DocScript
