import DocScript.Proofs.Run.Stored

/-!
# The prototype of lists is out of reach

All lists of a machine share a prototype, a doc with the natives `len` and `push`. Code gets at the
entries of this doc, but not at the doc itself : lists have it as their prototype, no operation gives
out a prototype, and it is stored nowhere else. So values that avoid it only lead to values that avoid
it, which makes a discipline (`Discipline.sealed`). What code cannot name it cannot change, so the
prototype keeps its two entries.
-/

namespace DocScript

variable {σ β γ ε : Type}

/-- The doc `id` does not occur in the value. -/
def Value.Avoids (id : DocId) : Value → Prop
  | .doc i => i ≠ id
  | .method _ receiver callable => receiver.Avoids id ∧ callable.Avoids id
  | _ => True

/-! ## Operations that leave a doc alone -/

/-- Whatever comes of `x`, the doc `id` is as before. -/
def Spares (id : DocId) (x : EStateM ε (Machine σ) β) : Prop :=
  ∀ m, After x m (fun _ m' => m'.doc? id = m.doc? id) fun _ m' => m'.doc? id = m.doc? id

/-- A change of a doc is none of another one. -/
theorem Machine.doc?_modify {m : Machine σ} {id i : DocId} (h : i ≠ id) (f : Doc → Doc) :
    Machine.doc? { m with heap := { m.heap with docs := m.heap.docs.modify i f } } id = m.doc? id := by
  simp [Machine.doc?, Array.getElem?_modify, h]

namespace Spares

variable {id : DocId}

theorem pure (b : β) : Spares id (Pure.pure b : Eval σ β) := fun _ => rfl

theorem bind {x : Eval σ γ} {f : γ → Eval σ β} (hx : Spares id x) (hf : ∀ c, Spares id (f c)) :
    Spares id (x >>= f) := by
  intro m
  rw [after_bind]
  refine (hx m).mono (fun c m' h => ?_) fun _ _ h => h
  exact h ▸ hf c m'

theorem lookup (v : Variable) : Spares id (Machine.lookup v : Eval σ Value) := by
  intro m
  simp only [After, Machine.lookup]
  cases m.lookup? v <;> rfl

theorem defineLocal (x : String) (value : Value) :
    Spares id (Machine.defineLocal x value : Eval σ Unit) := fun _ => rfl

theorem assign (v : Variable) (value : Value) : Spares id (Machine.assign v value : Eval σ Unit) := by
  intro m
  simp only [After, Machine.assign]
  cases v.scope with
  | dynamic | local_ | global_ => rfl
  | nonlocal =>
    dsimp only
    cases m.heap.frames.assignOuter? m.env v.name value <;> rfl

theorem bindVariable (v : Variable) (value : Value) : Spares id (Machine.bind v value : Eval σ Unit) := by
  unfold Machine.bind
  split
  · exact defineLocal _ _
  · exact assign _ _

theorem newFunction (f : Function Unit) : Spares id (Machine.newFunction f : Eval σ Value) := fun _ => rfl

theorem newMethod (receiver callable : Value) :
    Spares id (Machine.newMethod receiver callable : Eval σ Value) := fun _ => rfl

variable (host : Host σ)

theorem index (object key : Value) : Spares id (Machine.index host object key) := by
  intro m
  cases object <;> rfl

theorem prototype (object : Value) : Spares id (Machine.prototype host object) := by
  intro m
  cases object <;> rfl

theorem arrow (object key : Value) : Spares id (Machine.arrow host object key) := by
  refine (prototype host object).bind fun proto => ?_
  cases proto with
  | none => exact pure _
  | some proto =>
    refine (index host proto key).bind fun found => ?_
    split
    · exact newMethod _ _
    · exact pure _

theorem setIndex {object : Value} (ho : object.Avoids id) (key value : Value) :
    Spares id (Machine.setIndex host object key value) := by
  intro m
  cases object with
  | doc i => exact Machine.doc?_modify ho _
  | box i _ =>
    simp only [After, Machine.setIndex]
    rcases m.heap.boxes[i]?.map (host.setIndex · key value) with _ | _ | _ <;> rfl
  | _ => rfl

theorem pairs (iterable : Value) : Spares id (Machine.pairs iterable : Eval σ _) := by
  intro m
  cases iterable <;> rfl

theorem println (args : List Value) : Spares id (Calls.println args : Eval σ Value) := fun _ => rfl

theorem len (args : List Value) : Spares id (Calls.len args : Eval σ Value) := by
  intro m
  rcases args with _ | ⟨v, args⟩
  · rfl
  · cases v <;> rfl

theorem push {args : List Value} (ha : ∀ v ∈ args, v.Avoids id) :
    Spares id (Calls.push args : Eval σ Value) := by
  intro m
  rcases args with _ | ⟨v, args⟩
  · rfl
  · have hv : v.Avoids id := ha v (by simp)
    cases v with
    | doc i => exact Machine.doc?_modify hv _
    | _ => rfl

end Spares

/-! ## The discipline -/

/-- The prototype of lists is the doc `proto`, which has its natives, numbered from `first`, and occurs
in no value that the machine stores. -/
structure Machine.Sealed (proto : DocId) (first : Nat) (B : σ → Prop) (m : Machine σ) : Prop where
  stores : m.Stores (Value.Avoids proto) B
  arrayProto : m.arrayProto = proto
  natives : m.doc? proto = some (Machine.arrayPrototype first)

variable {proto : DocId} {first : Nat} {B : σ → Prop} {host : Host σ} {m : Machine σ}

theorem Machine.Sealed.lt_size (h : m.Sealed proto first B) : proto < m.heap.docs.size :=
  (Array.getElem?_eq_some_iff.1 h.natives).1

namespace Discipline

/-- The discipline of sealed machines. All code obeys it. -/
def sealed (proto : DocId) (first : Nat) (B : σ → Prop) : Discipline σ :=
  { Rules.free with Good := Value.Avoids proto, Holds := Machine.Sealed proto first B }

theorem closed_avoids (h : host.Keeps (Value.Avoids proto) B) :
    Closed .free (Value.Avoids proto) B host :=
  { h with
    none := trivial
    bool := fun _ => trivial
    num := fun _ => trivial
    str := fun _ => trivial
    newFunction := fun _ _ _ _ => trivial
    func := fun _ => Block.obeys_free _
    newMethod := fun _ hr hc _ => ⟨hr, hc⟩
    method := fun hm => hm }

theorem Maintains.sealed {x : Eval σ β} {Q : β → Prop}
    (hx : (stored .free (Value.Avoids proto) B).Keeps x Q) (hs : Steady x) (hd : Spares proto x) :
    (sealed proto first B).Keeps x Q := by
  intro m hm
  have kept {m' : Machine σ} (hm' : m'.Stores (Value.Avoids proto) B) (hc : m'.control = m.control)
      (hd : m'.doc? proto = m.doc? proto) : m'.Sealed proto first B :=
    ⟨hm', (congrArg Control.arrayProto hc).trans hm.arrayProto, hd.trans hm.natives⟩
  have all := (hx m hm.stores).and ((hs m).and (hd m))
  exact all.mono (fun _ _ h => ⟨kept h.1.1 h.2.1 h.2.2, h.1.2⟩) fun _ _ h => ⟨kept h.1.1 h.2.1 h.2.2, h.1.2⟩

/-- A new doc is another one than the prototype. -/
theorem sealed_newDoc {d : Doc} (hd : d.Stores (Value.Avoids proto)) :
    (sealed proto first B).Keeps (Machine.newDoc d) (Value.Avoids proto) := by
  intro m hm
  have natives : (m.heap.docs.push d)[proto]? = some (Machine.arrayPrototype first) := by
    rw [Array.getElem?_push, if_neg (Nat.ne_of_lt hm.lt_size)]
    exact hm.natives
  exact ⟨⟨{ hm.stores with heap := hm.stores.heap.pushDoc hd }, hm.arrayProto, natives⟩,
    Nat.ne_of_gt hm.lt_size⟩

theorem lawful_sealed (h : host.Keeps (Value.Avoids proto) B) : (sealed proto first B).Lawful host :=
  have c := closed_avoids h
  { none := trivial
    bool := fun _ => trivial
    num := fun _ => trivial
    str := fun _ => trivial
    func := fun _ => Block.obeys_free _
    method := fun hm => hm
    lookup := fun v => .sealed (c.lookup v) (.lookup v) (.lookup v)
    assign := fun _ hv => .sealed (c.assign _ hv) (.assign _ _) (.assign _ _)
    bind := fun _ hv => .sealed (c.bind _ hv) (.bindVariable _ _) (.bindVariable _ _)
    newFunction := fun hm hf => .sealed (c.newFunction_keeps hm hf) (.newFunction _) (.newFunction _)
    newDoc := fun _ he => sealed_newDoc (c.insertMany he)
    newList := fun hi m hm => sealed_newDoc (Doc.stores_arrayDoc c.num _ hi) m hm
    index := fun _ hk => .sealed (c.index_keeps _ hk) (.index _ _ _) (.index _ _ _)
    arrow := fun ho hk => .sealed (c.arrow ho hk) (.arrow _ _ _) (.arrow _ _ _)
    setIndex := fun ho hk hv => .sealed (c.setIndex_keeps _ hk hv) (.setIndex _ _ _ _) (.setIndex _ ho _ _)
    pairs := fun _ => .sealed (c.pairs _) (.pairs _) (.pairs _)
    println := fun _ => .sealed (c.println _) (.println _) (.println _)
    len := fun _ => .sealed (c.len _) (.len _) (.len _)
    push := fun ha => .sealed (c.push ha) (.push _) (.push ha)
    native := fun {i _ _} _ ha => @h.native i _ _ trivial ha }

theorem portable_sealed : (sealed proto first B).Portable where
  enter hm _ ha := { hm with stores := hm.stores.enter trivial ha }
  leave _ hm _ := { hm with stores := { hm.stores with } }

theorem callsKeep_sealed (h : host.Keeps (Value.Avoids proto) B) (n : Nat) :
    (sealed proto first B).CallsKeep (Calls.within host n).call :=
  callsKeep_of_under fun c => callWithin_keeps (lawful_sealed h) portable_sealed trivial n c

end Discipline

/-- A new machine is sealed, if nothing on its heap and in its configuration refers to the doc that
becomes the prototype. -/
theorem Machine.sealed_build {heap : Heap σ} {c : Config}
    (h : heap.Stores (Value.Avoids heap.docs.size) B) (hg : ∀ g ∈ c.globals, g.2.Avoids heap.docs.size) :
    (Machine.build heap c).Sealed heap.docs.size heap.nextId B where
  stores := stores_build_of_argv (fun _ => trivial) (fun _ => trivial) (Nat.succ_ne_self _)
    (fun _ _ _ => trivial) h hg
  arrayProto := rfl
  natives := by
    have first : heap.docs.size < (heap.docs.push (arrayPrototype heap.nextId)).size := by
      simp
    change (heap.docs.push (arrayPrototype heap.nextId) ++ _)[heap.docs.size]? = _
    rw [Array.getElem?_append_left first, Array.getElem?_push_size]

end DocScript
