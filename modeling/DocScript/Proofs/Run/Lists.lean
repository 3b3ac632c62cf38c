import DocScript.Proofs.Run.Monotone
import DocScript.Proofs.Run.Sealed
import DocScript.Proofs.Run.Unwinding

/-!
# Lists are made as lists

A doc is a list of a machine if its prototype is the one that the machine has for lists. A doc gets its
prototype when it is made and keeps it (`Machine.Grows`), and code cannot give that prototype to a doc
(`Discipline.sealed`), so the lists are the docs that were made as such : by a list in a script, by a
native of the host, by the host itself, or as the list of arguments. Which docs a run makes is read off
its moments (`Moment.Makes`), and `Moment.hasList_final` says which of them are lists at the end.

A `History` is what a host does with a machine from the time that it was built, together with the docs
that were made as lists on the way.
-/

namespace DocScript

variable {σ : Type} {host : Host σ}

/-! ## The docs that a run makes -/

namespace Moment

variable {x y : Moment σ} {d : Doc} {id : DocId}

/-- The task itself makes the doc `d`, under the number `id`. -/
def Makes (host : Host σ) (x : Moment σ) (d : Doc) (id : DocId) : Prop :=
  ∃ a, (Calls.within host x.fuel).made x.machine x.task = some (d, a) ∧ id = a.heap.docs.size

/-- What a task has made is there when it is over. -/
theorem grows_of_made {n : Nat} {t : Task} {m a : Machine σ}
    (h : (Calls.within host n).made m t = some (d, a)) :
    (stateAfter (Machine.newDoc d : Eval σ Value) a).Grows (final host ⟨n, t, m⟩) := by
  have last {β : Type} {x : Eval σ β} {f : β → Eval σ Value} {b : β} {m : Machine σ} (hx : x m = .ok b a)
      (hf : stateAfter (f b) a = stateAfter (Machine.newDoc d : Eval σ Value) a) :
      (stateAfter (Machine.newDoc d : Eval σ Value) a).Grows (stateAfter (x >>= f) m) := by
    rw [stateAfter_bind_of_ok hx, hf]
    exact .refl _
  cases Calls.builds_of_made h with
  | list hr => exact last hr rfl
  | dict hr => exact last hr rfl
  | @protoDict ann p es proto m₁ kvs _ hp hv hr =>
    change Machine.Grows _ (stateAfter ((Calls.within host n).eval (.protoDict ann p es)) m)
    rw [Calls.eval, stateAfter_bind_of_ok hp]
    obtain ⟨_, rfl⟩ | ⟨_, _, rfl⟩ := hv
    · exact last hr rfl
    · exact last hr rfl
  | @newList items next =>
    exact grows_final host ⟨n, .action (next _), stateAfter (Machine.newList items : Eval σ Value) m⟩

theorem Makes.doc_final (h : x.Makes host d id) : ∃ d', (x.final host).doc? id = some d' ∧ d.Grows d' := by
  obtain ⟨a, ha, rfl⟩ := h
  refine (grows_of_made ha).docs a.heap.docs.size d ?_
  exact Array.getElem?_push_size

/-- A doc that is there after a task was there before, or one of the tasks inside has made it. -/
theorem exists_makes (host : Host σ) (x : Moment σ) : ∀ id < (x.final host).heap.docs.size,
    id < x.machine.heap.docs.size ∨ ∃ y d, x.Reaches host y ∧ y.Makes host d id := by
  induction acc_starts host x with
  | intro x _ ih =>
    let R (a b : Machine σ) : Prop := ∀ id < b.heap.docs.size,
      id < a.heap.docs.size ∨ ∃ y d, x.Reaches host y ∧ y.Makes host d id
    have trans {a b c : Machine σ} (h : R a b) (h' : R b c) : R a c := fun id hid =>
      (h' id hid).elim (h id) Or.inr
    have does {a b : Machine σ} (h : x.Does host a b) : R a b := by
      intro id hid
      rcases h with h | ⟨d, hd, rfl⟩
      · exact Or.inl (h.docs_size ▸ hid)
      · have hid : id < (a.heap.docs.push d).size := hid
        rw [Array.size_push] at hid
        rcases Nat.lt_succ_iff_lt_or_eq.1 hid with hid | hid
        · exact Or.inl hid
        · exact Or.inr ⟨x, d, .refl, a, hd, hid⟩
    refine ((x.course host).related (R := R) (fun _ _ => Or.inl) trans does fun y hy id hid => ?_).1
    -- what is made inside a task that is started is made in the run
    rcases ih y hy id hid with h | ⟨z, d, hz, hd⟩
    · exact Or.inl h
    · exact Or.inr ⟨z, d, .head hy hz, hd⟩

theorem arrayProto_final (host : Host σ) (x : Moment σ) :
    (x.final host).arrayProto = x.machine.arrayProto := by
  induction acc_starts host x with
  | intro x _ ih =>
    refine ((x.course host).related (R := fun a b => b.arrayProto = a.arrayProto) (fun _ => rfl)
      (fun h h' => h'.trans h) ?_ ih).1
    rintro a b (h | ⟨d, _, rfl⟩)
    · exact h.arrayProto
    · rfl

end Moment

/-! ## Which of them are lists -/

/-- The doc `id` is a list of the machine. -/
def Machine.HasList (m : Machine σ) (id : DocId) : Prop := ∃ d, m.doc? id = some d ∧ m.isArray d

theorem Machine.isArray_iff {m : Machine σ} {d : Doc} : m.isArray d ↔ d.proto = some (.doc m.arrayProto) := by
  unfold Machine.isArray
  split
  · next id h => simp [h]
  · next h => simpa using fun heq => h _ heq

/-- A doc stays a list, and it stays none. -/
theorem Machine.Grows.hasList_iff {m m' : Machine σ} (h : m.Grows m') (hp : m'.arrayProto = m.arrayProto)
    {id : DocId} {d : Doc} (hd : m.doc? id = some d) : m'.HasList id ↔ m.isArray d := by
  obtain ⟨d', hd', g⟩ := h.docs id d hd
  have same : m'.isArray d' ↔ m.isArray d := by rw [isArray_iff, isArray_iff, g.proto, hp]
  constructor
  · rintro ⟨d₁, hd₁, ha⟩
    obtain rfl : d' = d₁ := Option.some.inj (hd'.symm.trans hd₁)
    exact same.1 ha
  · exact fun ha => ⟨d', hd', same.2 ha⟩

theorem Doc.proto_insertMany (d : Doc) (kvs : List (Value × Value)) : (d.insertMany kvs).proto = d.proto := by
  unfold Doc.insertMany
  induction kvs generalizing d with
  | nil => rfl
  | cons kv kvs ih => exact ih (d.insert kv.1 kv.2)

theorem Machine.isArray_arrayDoc (m : Machine σ) (items : List Value) :
    m.isArray (arrayDoc m.arrayProto items) := by
  rw [isArray_iff, arrayDoc, Doc.proto_insertMany]
  rfl

theorem Machine.hasList_newList (m : Machine σ) (items : List Value) (id : DocId) :
    (stateAfter (newList items : Eval σ Value) m).HasList id ↔ m.HasList id ∨ id = m.heap.docs.size := by
  have grown : m.Grows (stateAfter (newList items : Eval σ Value) m) := grows_newDoc _ m
  constructor
  · intro hl
    obtain ⟨d, hd⟩ := hl.imp fun _ => And.left
    have hid : id < (m.heap.docs.push _).size := (Array.getElem?_eq_some_iff.1 hd).1
    rw [Array.size_push] at hid
    rcases Nat.lt_succ_iff_lt_or_eq.1 hid with hid | hid
    · have hd := Array.getElem?_eq_getElem hid
      exact Or.inl ⟨_, hd, (grown.hasList_iff rfl hd).1 hl⟩
    · exact Or.inr hid
  · rintro (⟨d, hd, ha⟩ | rfl)
    · exact (grown.hasList_iff rfl hd).2 ha
    · exact ⟨_, Array.getElem?_push_size, m.isArray_arrayDoc items⟩

/-- On another heap the lists are the same, if docs keep their prototypes and no new doc is a list. -/
theorem Machine.hasList_supply {m : Machine σ} {heap : Heap σ}
    (kept : ∀ id d, m.doc? id = some d → ∃ d', heap.docs[id]? = some d' ∧ d'.proto = d.proto)
    (new : ∀ id d, heap.docs[id]? = some d → m.doc? id = none → d.proto ≠ some (.doc m.arrayProto))
    (id : DocId) : HasList { m with heap := heap } id ↔ m.HasList id := by
  have array {d d' : Doc} (h : d'.proto = d.proto) : isArray { m with heap := heap } d' ↔ m.isArray d := by
    rw [isArray_iff, isArray_iff, h]
  constructor
  · rintro ⟨d', hd', ha⟩
    cases hd : m.doc? id with
    | none => exact absurd (isArray_iff.1 ha) (new id d' hd' hd)
    | some d =>
      obtain ⟨d₁, hd₁, same⟩ := kept id d hd
      obtain rfl : d₁ = d' := Option.some.inj (hd₁.symm.trans hd')
      exact ⟨d, hd, (array same).1 ha⟩
  · rintro ⟨d, hd, ha⟩
    obtain ⟨d', hd', same⟩ := kept id d hd
    exact ⟨d', hd', (array same).2 ha⟩

/-- The task makes a list. -/
def Task.IsList : Task → Prop
  | .expr (.list _ _) | .action (.newList _ _) => True
  | _ => False

/-- The doc `id` is made as a list in the run that begins with `x`. -/
def Moment.MakesList (host : Host σ) (x : Moment σ) (id : DocId) : Prop :=
  ∃ y d, x.Reaches host y ∧ y.task.IsList ∧ y.Makes host d id

section

variable {proto : DocId} {first : Nat} {B : σ → Prop} (h : host.Keeps (Value.Avoids proto) B)

include h

namespace Moment

variable {x y : Moment σ} {id : DocId} {d : Doc}

/-- A doc is made with the prototype of lists only by making a list. -/
theorem proto_of_makes (hx : x.Ok (.sealed proto first B)) (hd : x.Makes host d id) :
    d.proto = some (.doc proto) ↔ x.task.IsList := by
  obtain ⟨n, t, m⟩ := x
  obtain ⟨hm, ht⟩ := hx
  obtain ⟨a, ha, -⟩ := hd
  have lawful : (Discipline.sealed proto first B).Lawful (Calls.within host n).host :=
    Discipline.lawful_sealed h
  have calls : (Discipline.sealed proto first B).CallsKeep (Calls.within host n).call := Discipline.callsKeep_sealed h n
  cases Calls.builds_of_made ha with
  | @list _ is vs _ hr =>
    obtain ⟨sealed, -⟩ := (after_of_ok hr).1 (Discipline.evalEach_keeps lawful calls is ht m hm)
    simp [Machine.arrayDoc, Doc.proto_insertMany, Doc.withProto, sealed.arrayProto, Task.IsList]
  | dict _ => simp [Doc.proto_insertMany, Doc.empty, Task.IsList]
  | @protoDict _ p es value m₁ kvs _ hp hv hr =>
    -- the prototype is a value of the script
    obtain ⟨-, avoids⟩ := (after_of_ok hp).1 (Discipline.eval_keeps lawful calls p ht.1 m hm)
    have other : (Doc.withProto value).proto ≠ some (.doc proto) := by
      rintro heq
      obtain rfl := Option.some.inj heq
      exact avoids rfl
    simpa [Doc.proto_insertMany, Task.IsList] using other
  | newList =>
    have same : m.arrayProto = proto := hm.arrayProto
    simp [Machine.arrayDoc, Doc.proto_insertMany, Doc.withProto, same, Task.IsList]

/-- The lists after a task are those from before and those that were made as lists. -/
theorem hasList_final (hx : x.Ok (.sealed proto first B)) (id : DocId) :
    (x.final host).HasList id ↔ x.machine.HasList id ∨ x.MakesList host id := by
  have same := x.arrayProto_final host
  have made {y : Moment σ} {d : Doc} (hy : x.Reaches host y) (hd : y.Makes host d id) :
      (x.final host).HasList id ↔ y.task.IsList := by
    have sealed := ok_of_reaches (Discipline.lawful_sealed h) Discipline.portable_sealed trivial hx hy
    obtain ⟨d₁, hd₁, g₁⟩ := hd.doc_final
    obtain ⟨d₂, hd₂, g₂⟩ := (grows_of_reaches hy).2.docs id d₁ hd₁
    have proto : d₂.proto = d.proto := g₂.proto.trans g₁.proto
    rw [← proto_of_makes h sealed hd, (Machine.Grows.refl _).hasList_iff rfl hd₂, Machine.isArray_iff, proto,
      same, hx.1.arrayProto]
  constructor
  · intro hl
    have ⟨d', hd', _⟩ := hl
    rcases exists_makes host x id (Array.getElem?_eq_some_iff.1 hd').1 with hid | ⟨y, d, hy, hd⟩
    · have hd := Array.getElem?_eq_getElem hid
      exact Or.inl ⟨_, hd, ((x.grows_final host).hasList_iff same hd).1 hl⟩
    · exact Or.inr ⟨y, d, hy, (made hy hd).1 hl, hd⟩
  · rintro (⟨d, hd, ha⟩ | ⟨y, d, hy, hl, hd⟩)
    · exact ((x.grows_final host).hasList_iff same hd).2 ha
    · exact (made hy hd).2 hl

/-- Within a run, a doc is a list if it was one before or is made as one. -/
theorem isArray_of_reaches (hx : x.Ok (.sealed proto first B)) (hy : x.Reaches host y)
    (hd : y.machine.doc? id = some d) :
    y.machine.isArray d ↔ x.machine.HasList id ∨ x.MakesList host id := by
  have sealed := ok_of_reaches (Discipline.lawful_sealed h) Discipline.portable_sealed trivial hx hy
  have grown := (y.grows_final host).trans (grows_of_reaches hy).2
  have same : (x.final host).arrayProto = y.machine.arrayProto :=
    (x.arrayProto_final host).trans (hx.1.arrayProto.trans sealed.1.arrayProto.symm)
  rw [← hasList_final h hx, grown.hasList_iff same hd]

end Moment

end

/-! ## What comes of a run -/

/-- What is raised satisfies `P`. -/
def Fault.Carries (P : Value → Prop) : Fault → Prop
  | .raised payload => P payload
  | .outOfFuel => True

/-- What is returned or raised satisfies `P`. -/
def Exit.Carries (P : Value → Prop) : Exit → Prop
  | .break_ | .continue_ => True
  | .ret values => ∀ v ∈ values, P v
  | .fault f => f.Carries P

/-- The values that come of the task, also those that it returns or raises, satisfy `P`. -/
def Moment.Yields (host : Host σ) (P : Value → Prop) : Moment σ → Prop
  | ⟨n, .expr e, m⟩ => After ((Calls.within host n).eval e) m (fun v _ => P v) fun f _ => f.Carries P
  | ⟨n, .stmt s, m⟩ => After ((Calls.within host n).exec s) m (fun _ _ => True) fun e _ => e.Carries P
  | ⟨n, .call callee args, m⟩ =>
    After (callWithin host n callee args) m (fun vs _ => ∀ v ∈ vs, P v) fun f _ => f.Carries P
  | ⟨n, .action a, m⟩ =>
    After (Calls.perform (callWithin host n) a) m (fun v _ => P v) fun f _ => f.Carries P
  | _ => True

variable {proto : DocId} {first : Nat} {B : σ → Prop} {L : DocId → Prop} {m : Machine σ}

/-- What comes of a task that a discipline allows is good. -/
theorem Moment.yields_of_lawful {I : Discipline σ} (hI : I.Lawful host) (hP : I.Portable) (hl : I.Loops)
    {x : Moment σ} (hx : x.Ok I) : x.Yields host I.Good := by
  have fault {f : Fault} (hf : I.Faults f) : f.Carries I.Good := by
    cases f with
    | raised _ => exact hf
    | outOfFuel => trivial
  have exits {e : Exit} (he : I.Exits e) : e.Carries I.Good := by
    cases e with
    | fault f => exact fault he
    | _ => exact he
  have calls (n : Nat) : I.CallsKeep (callWithin host n) :=
    Discipline.callsKeep_of_under fun c => Discipline.callWithin_keeps hI hP hl n c
  unfold Moment.Yields
  split
  · next n e m =>
    exact (Discipline.eval_keeps (k := .within host n) hI (calls n) e hx.2 m hx.1).mono (fun _ _ h => h.2)
      fun _ _ h => fault h.2
  · next n s m =>
    exact (Discipline.exec_runs (k := .within host n) hI (calls n) s hx.2 m hx.1).mono (fun _ _ h => h.2)
      fun _ _ h => exits h.2
  · next n callee args m =>
    exact (calls n callee args hx.2.1 hx.2.2 m hx.1).mono (fun _ _ h => h.2) fun _ _ h => fault h.2
  · next n a m =>
    exact (Discipline.perform_keeps hI (calls n) a hx.2 m hx.1).mono (fun _ _ h => h.2) fun _ _ h => fault h.2
  · trivial

theorem Moment.yields_of_ok (h : host.Keeps (Value.Avoids proto) B) {x : Moment σ}
    (hx : x.Ok (.sealed proto first B)) : x.Yields host (Value.Avoids proto) :=
  yields_of_lawful (Discipline.lawful_sealed h) Discipline.portable_sealed trivial hx

/-! ## Histories -/

/-- The first moment of a script. -/
def Moment.ofScript (n : Nat) (text : String) (m : Machine σ) : Moment σ :=
  ⟨n, .program (scriptProgram text), { m with env := m.root, depth := 0 }⟩

theorem Moment.ok_ofScript (n : Nat) (text : String) (hm : m.Sealed proto first B) :
    (Moment.ofScript n text m).Ok (.sealed proto first B) :=
  ⟨{ hm with stores := { hm.stores with } }, stmtsObey_free _⟩

theorem interpret_of_not_accepted {text : String} (h : ¬Accepted text) (n : Nat) (m : Machine σ) :
    (interpret host n text m).2 = (Moment.ofScript n text m).machine := by
  dsimp only [interpret]
  split
  · rfl
  · next hn => exact absurd hn h

/-- What a host does with a machine whose prototype of lists is `proto`, with natives numbered from
`first`, and which docs are made as lists on the way. The host brings in no value in which the prototype
occurs. Between these steps it may change what is on the heap, but it leaves the prototype alone, docs
keep their prototypes, and those that it makes otherwise than as lists have another one. -/
inductive History (host : Host σ) (B : σ → Prop) (proto : DocId) (first : Nat) :
    (DocId → Prop) → Machine σ → Prop
  | build {heap : Heap σ} {c : Config} : heap.docs.size = proto → heap.nextId = first →
    heap.Stores (Value.Avoids proto) B → (∀ d ∈ heap.docs, d.proto ≠ some (.doc proto)) →
      (∀ g ∈ c.globals, g.2.Avoids proto) →
        History host B proto first (fun id => c.argv.isSome ∧ id = proto + 1) (Machine.build heap c)
  | interpret (n : Nat) (text : String) {L : DocId → Prop} {m : Machine σ} : History host B proto first L m →
    History host B proto first
      (fun id => L id ∨ Accepted text ∧ (Moment.ofScript n text m).MakesList host id)
      (interpret host n text m).2
  | call (n : Nat) {callee : Value} {args : List Value} {L : DocId → Prop} {m : Machine σ} :
    callee.Avoids proto → (∀ v ∈ args, v.Avoids proto) → History host B proto first L m →
      History host B proto first (fun id => L id ∨ Moment.MakesList host ⟨n, .call callee args, m⟩ id)
        (stateAfter (callWithin host n callee args) m)
  | callSingle (n : Nat) {callee : Value} {args : List Value} {L : DocId → Prop} {m : Machine σ} :
    callee.Avoids proto → (∀ v ∈ args, v.Avoids proto) → History host B proto first L m →
      History host B proto first (fun id => L id ∨ Moment.MakesList host ⟨n, .call callee args, m⟩ id)
        (stateAfter (callSingle host n callee args) m)
  | newList {items : List Value} {L : DocId → Prop} {m : Machine σ} : (∀ v ∈ items, v.Avoids proto) →
    History host B proto first L m →
      History host B proto first (fun id => L id ∨ id = m.heap.docs.size)
        (stateAfter (Machine.newList items : Eval σ Value) m)
  | supply {heap : Heap σ} {L : DocId → Prop} {m : Machine σ} : heap.Stores (Value.Avoids proto) B →
    heap.docs[proto]? = m.doc? proto →
      (∀ id d, m.doc? id = some d → ∃ d', heap.docs[id]? = some d' ∧ d'.proto = d.proto) →
        (∀ id d, heap.docs[id]? = some d → m.doc? id = none → d.proto ≠ some (.doc proto)) →
          History host B proto first L m → History host B proto first L { m with heap := heap }

namespace History

theorem sealed (h : host.Keeps (Value.Avoids proto) B) (hm : History host B proto first L m) :
    m.Sealed proto first B := by
  have lawful : (Discipline.sealed proto first B).Lawful host := Discipline.lawful_sealed h
  have called {n : Nat} {callee : Value} {args : List Value} {m : Machine σ} (hc : callee.Avoids proto)
      (ha : ∀ v ∈ args, v.Avoids proto) (hm : m.Sealed proto first B) :
      (stateAfter (callWithin host n callee args) m).Sealed proto first B := by
    refine After.stateAfter ?_
    exact (Discipline.callsKeep_sealed h n _ _ hc ha _ hm).mono (fun _ _ h => h.1) fun _ _ h => h.1
  induction hm with
  | build hs hn hh _ hg =>
    subst hs hn
    exact Machine.sealed_build hh hg
  | interpret n text _ ih =>
    obtain ⟨entered, _⟩ := Moment.ok_ofScript n text ih
    exact (Discipline.interpret_keeps lawful Discipline.portable_sealed trivial entered fun _ =>
      stmtsObey_free _).1.1
  | call n hc ha _ ih => exact called hc ha ih
  | callSingle n hc ha _ ih =>
    rw [DocScript.callSingle, stateAfter_bind_pure]
    exact called hc ha ih
  | newList hi _ ih => exact (lawful.newList hi _ ih).1
  | supply hh hp _ _ _ ih => exact ⟨⟨hh, ih.stores.globals⟩, ih.arrayProto, hp.trans ih.natives⟩

/-- The only list of a new machine is the list of arguments. -/
theorem hasList_build {heap : Heap σ} {c : Config} (hd : ∀ d ∈ heap.docs, d.proto ≠ some (.doc heap.docs.size))
    (id : DocId) : (Machine.build heap c).HasList id ↔ c.argv.isSome ∧ id = heap.docs.size + 1 := by
  have argv : (Machine.build heap c).heap.docs = heap.docs.push (Machine.arrayPrototype heap.nextId) ++
      (c.argv.map fun args => Machine.arrayDoc heap.docs.size (args.map .str)).toArray := rfl
  constructor
  · rintro ⟨d, hid, ha⟩
    rw [Machine.doc?, argv, Array.getElem?_append, Array.size_push] at hid
    rw [Machine.isArray_iff] at ha
    split at hid
    · -- neither a doc from before nor the prototype itself
      rcases Array.mem_push.1 (Array.mem_of_getElem? hid) with hmem | rfl
      · exact absurd ha (hd d hmem)
      · simp [Machine.arrayPrototype, Doc.proto_insertMany, Doc.empty] at ha
    · next hid' =>
      obtain ⟨args, hargs, hi⟩ : ∃ args, c.argv = some args ∧ id - (heap.docs.size + 1) = 0 := by
        cases hargs : c.argv with
        | none => simp [hargs] at hid
        | some args =>
          refine ⟨args, rfl, ?_⟩
          simpa [hargs] using (Array.getElem?_eq_some_iff.1 hid).1
      exact ⟨by simp [hargs], Nat.le_antisymm (Nat.sub_eq_zero_iff_le.1 hi) (Nat.le_of_not_lt hid')⟩
  · rintro ⟨hc, rfl⟩
    obtain ⟨args, hargs⟩ := Option.isSome_iff_exists.1 hc
    refine ⟨Machine.arrayDoc heap.docs.size (args.map .str), ?_, Machine.isArray_arrayDoc _ _⟩
    rw [Machine.doc?, argv, Array.getElem?_append, Array.size_push, if_neg (Nat.lt_irrefl _), hargs]
    simp

/-- The lists of a machine are the docs that were made as lists. -/
theorem hasList_iff (h : host.Keeps (Value.Avoids proto) B) (hm : History host B proto first L m)
    (id : DocId) : m.HasList id ↔ L id := by
  induction hm with
  | build hs _ _ hd _ =>
    subst hs
    exact hasList_build hd id
  | @interpret n text L m hm ih =>
    have entered : (Moment.ofScript n text m).machine.HasList id ↔ L id := ih
    by_cases ht : Accepted text
    · have run := Moment.hasList_final h (Moment.ok_ofScript n text (hm.sealed h)) id
      have same : (DocScript.interpret host n text m).2 = (Moment.ofScript n text m).final host :=
        congrArg Prod.snd (interpret_of_accepted ht n m)
      rw [same, run, entered]
      simp only [ht, true_and]
    · rw [interpret_of_not_accepted ht]
      simpa only [ht, false_and, or_false] using entered
  | @call n callee args L m hc ha hm ih =>
    have run := Moment.hasList_final h (x := ⟨n, .call callee args, m⟩) ⟨hm.sealed h, hc, ha⟩ id
    exact run.trans (or_congr_left ih)
  | @callSingle n callee args L m hc ha hm ih =>
    have run := Moment.hasList_final h (x := ⟨n, .call callee args, m⟩) ⟨hm.sealed h, hc, ha⟩ id
    rw [DocScript.callSingle, stateAfter_bind_pure]
    exact run.trans (or_congr_left ih)
  | @newList items L m _ _ ih => exact (m.hasList_newList items id).trans (or_congr_left ih)
  | @supply heap L m _ _ hk hn hm ih =>
    rw [← (hm.sealed h).arrayProto] at hn
    exact (Machine.hasList_supply hk hn id).trans ih

end History

/-- The runs that the host can start on `m`. -/
inductive Moment.Opens (proto : DocId) (m : Machine σ) : Moment σ → Prop
  | script (n : Nat) {text : String} : Accepted text → Opens proto m (.ofScript n text m)
  | call (n : Nat) {callee : Value} {args : List Value} : callee.Avoids proto →
    (∀ v ∈ args, v.Avoids proto) → Opens proto m ⟨n, .call callee args, m⟩

theorem Moment.Opens.ok {x : Moment σ} (hx : Moment.Opens proto m x) (hm : m.Sealed proto first B) :
    x.Ok (.sealed proto first B) := by
  cases hx with
  | script n _ => exact ok_ofScript n _ hm
  | call n hc ha => exact ⟨hm, hc, ha⟩

theorem Moment.Opens.hasList_iff {x : Moment σ} (hx : Moment.Opens proto m x) (id : DocId) :
    x.machine.HasList id ↔ m.HasList id := by
  cases hx <;> exact Iff.rfl

/-- The prototype of lists occurs in no value on a machine and in none that comes of a run, and it has its
natives, at rest and at every moment of a run; and the lists are the docs that were made as lists, from
the time that they were made. -/
theorem lists_sealed (h : host.Keeps (Value.Avoids proto) B) (hm : History host B proto first L m) :
    (m.Sealed proto first B ∧ ∀ id, m.HasList id ↔ L id) ∧
      (∀ x y, Moment.Opens proto m x → x.Reaches host y →
        y.machine.Sealed proto first B ∧ y.Yields host (Value.Avoids proto) ∧
          ∀ id d, y.machine.doc? id = some d → (y.machine.isArray d ↔ L id ∨ x.MakesList host id)) ∧
        ∀ n text message payload, (interpret host n text m).1 = .raised message payload →
          payload.Avoids proto := by
  have sealed := hm.sealed h
  have lawful : (Discipline.sealed proto first B).Lawful host := Discipline.lawful_sealed h
  refine ⟨⟨sealed, hm.hasList_iff h⟩, fun x y hx hy => ?_, fun n text message payload hr => ?_⟩
  · have start := hx.ok sealed
    have ok := Moment.ok_of_reaches lawful Discipline.portable_sealed trivial start hy
    refine ⟨ok.1, Moment.yields_of_ok h ok, fun id d hd => ?_⟩
    rw [Moment.isArray_of_reaches h start hy hd, hx.hasList_iff, hm.hasList_iff h]
  · obtain ⟨entered, _⟩ := Moment.ok_ofScript n text sealed
    obtain ⟨_, outcome⟩ := Discipline.interpret_keeps lawful Discipline.portable_sealed trivial entered fun _ =>
      stmtsObey_free _
    rw [hr] at outcome
    exact outcome

/-- A script makes lists and calls a native that makes one, on a machine with arguments. -/
theorem lists_sealed_thermometer :
    let text := "xs = [1, argv]\nys = collect(lambda: xs)\nys->push({xs: [ys]})\n"
    let c : Config :=
      { Config.default with argv := some ["a"], globals := [("collect", .native 0 (.host "collect"))] }
    let m := (interpret Thermometer.host 9 text (.build .empty c)).2
    Accepted text ∧ m.Sealed 0 0 (fun _ => True) ∧ m.HasList 1 ∧
      ∀ x y, Moment.Opens 0 m x → x.Reaches Thermometer.host y →
        y.machine.Sealed 0 0 (fun _ => True) ∧ y.Yields Thermometer.host (Value.Avoids 0) := by
  intro text c m
  have hh : Thermometer.host.Keeps (Value.Avoids 0) fun _ => True :=
    Thermometer.keeps trivial (fun _ => trivial) (fun _ => trivial) fun _ => trivial
  have built : History Thermometer.host (fun _ => True) 0 0 (fun id => c.argv.isSome ∧ id = 1)
      (.build .empty c) :=
    .build (c := c) rfl rfl Heap.stores_empty (by simp [Heap.empty]) (by simp [c, Value.Avoids])
  obtain ⟨⟨sealed, lists⟩, runs, _⟩ := lists_sealed hh (.interpret 9 text built)
  refine ⟨by decide +kernel, sealed, (lists 1).2 (Or.inl ⟨rfl, rfl⟩), fun x y hx hy => ?_⟩
  obtain ⟨there, yields, _⟩ := runs x y hx hy
  exact ⟨there, yields⟩

end DocScript
