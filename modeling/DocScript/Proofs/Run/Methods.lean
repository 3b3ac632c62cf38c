import DocScript.Proofs.Run.Lists

/-!
# Methods

A method is made of an object and of what was found through the prototype of the object. What was found can
be a method itself, which somebody has stored there, so methods nest. A call of a method goes on to what it
calls, with its receiver in front of the arguments, and thus to the function behind all of them, with the
receiver of the innermost method first (`Calls.callValue_target`).

That there is such a function is a property of all methods that are made (`Value.WellBound`). No value on a
machine and none that comes of a run is without it, unless the host brings one in (`methods_wellBound`).
-/

namespace DocScript

variable {σ β : Type}

/-! ## Methods around a function -/

namespace Value

/-- The value is no method, or one of an object that calls what can be called, which is well bound itself. -/
def WellBound : Value → Prop
  | .method _ receiver callable => receiver.isObject ∧ callable.isCallable ∧ callable.WellBound
  | _ => True

/-- What is behind all methods. -/
def target : Value → Value
  | .method _ _ callable => callable.target
  | v => v

/-- The receivers of the methods, the innermost one first. -/
def receivers : Value → List Value
  | .method _ receiver callable => callable.receivers ++ [receiver]
  | _ => []

/-- The values that are called directly. -/
def isFunction : Value → Bool
  | .func _ _ | .native _ _ => true
  | _ => false

variable {v : Value}

theorem wellBound_of_isObject (h : v.isObject) : v.WellBound := by
  cases v with
  | method _ _ _ => simp [isObject] at h
  | _ => trivial

theorem WellBound.isFunction_target (h : v.WellBound) (hc : v.isCallable) : v.target.isFunction := by
  induction v with
  | func _ _ | native _ _ => rfl
  | method _ _ _ _ ih => exact ih h.2.2 h.2.1
  | _ => simp [isCallable] at hc

theorem WellBound.isObject_of_mem_receivers (h : v.WellBound) : ∀ r ∈ v.receivers, r.isObject := by
  induction v with
  | method _ receiver callable _ ih =>
    have last : ∀ r ∈ [receiver], r.isObject := by simpa using h.1
    exact List.forall_mem_append.2 ⟨ih h.2.2, last⟩
  | _ => simp [receivers]

theorem callableName?_target (v : Value) : v.target.callableName? = v.callableName? := by
  induction v with
  | method _ _ _ _ ih => exact ih
  | _ => rfl

theorem isSome_callableName? (h : v.isFunction) : v.callableName?.isSome := by
  cases v with
  | func _ _ | native _ _ => rfl
  | _ => simp [isFunction] at h

end Value

namespace Calls

variable (k : Calls σ)

/-- A call goes to what is behind all methods. -/
theorem callValue_target (v : Value) (args : List Value) :
    k.callValue v args = k.callValue v.target (v.receivers ++ args) := by
  induction v generalizing args with
  | method id receiver callable _ ih =>
    calc k.callValue (.method id receiver callable) args
      _ = k.callValue callable (receiver :: args) := rfl
      _ = k.callValue callable.target (callable.receivers ++ receiver :: args) := ih _
      _ = k.callValue callable.target (callable.receivers ++ [receiver] ++ args) := by
        rw [List.append_assoc, List.singleton_append]
  | _ => rfl

theorem callValue_of_not_isCallable {v : Value} (h : ¬v.isCallable) (args : List Value) :
    k.callValue v args = Eval.fail .notCallable := by
  cases v with
  | func _ _ | native _ _ | method _ _ _ => simp [Value.isCallable] at h
  | _ => rfl

end Calls

/-- A call of the value is one of a function or of a native, with the receivers of all methods in front of the
arguments. -/
inductive Value.Enters (host : Host σ) (n : Nat) (v : Value) (args : List Value) : Prop
  | func {id : Nat} {f : Closure} : v.target = .func id f →
    callWithin host (n + 1) v args = (Calls.within host n).callFunction f (v.receivers ++ args) → Enters host n v args
  | native {id : Nat} {f : Native} : v.target = .native id f →
    callWithin host (n + 1) v args = (do return [← (Calls.within host n).callNative f (v.receivers ++ args)]) →
      Enters host n v args

theorem Value.enters_of_isFunction {v : Value} (h : v.target.isFunction) (host : Host σ) (n : Nat)
    (args : List Value) : v.Enters host n args := by
  have passed : callWithin host (n + 1) v args = (Calls.within host n).callValue v.target (v.receivers ++ args) :=
    (Calls.within host n).callValue_target v args
  cases ht : v.target with
  | func id f =>
    rw [ht] at passed
    exact .func ht passed
  | native id f =>
    rw [ht] at passed
    exact .native ht passed
  | _ => simp [ht, isFunction] at h

/-! ## Machines -/

variable {B : σ → Prop}

/-- All values on the heap are well bound, also the prototypes of docs. -/
structure Heap.WellBound (B : σ → Prop) (heap : Heap σ) : Prop where
  stores : heap.Stores Value.WellBound B
  protos : ∀ (id : DocId) d, heap.docs[id]? = some d → ∀ p ∈ d.proto, p.WellBound

/-- All values on the machine are well bound. -/
structure Machine.WellBound (B : σ → Prop) (m : Machine σ) : Prop where
  heap : m.heap.WellBound B
  globals : m.globals.Stores Value.WellBound

theorem Heap.wellBound_empty : (Heap.empty : Heap σ).WellBound B := ⟨stores_empty, by simp [Heap.empty]⟩

theorem Machine.WellBound.stores {m : Machine σ} (h : m.WellBound B) : m.Stores Value.WellBound B :=
  ⟨h.heap.stores, h.globals⟩

theorem Doc.wellBound_proto_insertMany {proto : Option Value} (h : ∀ p ∈ proto, p.WellBound)
    (kvs : List (Value × Value)) : ∀ p ∈ (Doc.insertMany ⟨[], proto⟩ kvs).proto, p.WellBound := by
  rw [proto_insertMany]
  exact h

/-- The prototype of a list is a doc. -/
theorem Machine.wellBound_proto_arrayDoc (id : DocId) (items : List Value) :
    ∀ p ∈ (arrayDoc id items).proto, p.WellBound :=
  Doc.wellBound_proto_insertMany (by simp [Value.WellBound]) _

/-- A new machine has the values of the heap and the configuration, and no method besides. -/
theorem Machine.wellBound_build {heap : Heap σ} {c : Config} (h : heap.WellBound B)
    (hg : ∀ g ∈ c.globals, g.2.WellBound) : (Machine.build heap c).WellBound B := by
  have stored : (Machine.build heap c).Stores Value.WellBound B :=
    stores_build (fun _ => trivial) (fun _ => trivial) (fun _ => trivial) (fun _ _ _ => trivial) h.stores hg
  refine ⟨⟨stored.heap, fun id d hid => ?_⟩, stored.globals⟩
  rcases Array.mem_append.1 (Array.mem_of_getElem? hid) with hmem | hmem
  · rcases Array.mem_push.1 hmem with hmem | rfl
    · obtain ⟨i, hi⟩ := Array.getElem?_of_mem hmem
      exact h.protos i d hi
    · exact Doc.wellBound_proto_insertMany (by simp) _
  · obtain ⟨args, _, rfl⟩ : ∃ args, c.argv = some args ∧ arrayDoc heap.docs.size (args.map .str) = d := by
      simpa using hmem
    exact wellBound_proto_arrayDoc _ _

/-! ## The discipline -/

variable {host : Host σ}

namespace Discipline

/-- The discipline of machines whose values are well bound. All code obeys it. -/
def wellBound (B : σ → Prop) : Discipline σ :=
  { Rules.free with Good := Value.WellBound, Holds := Machine.WellBound B }

theorem storable_wellBound (h : host.Keeps Value.WellBound B) : Storable .free Value.WellBound B host :=
  { h with
    none := trivial
    bool := fun _ => trivial
    num := fun _ => trivial
    str := fun _ => trivial
    doc := fun _ => trivial
    newFunction := fun _ _ _ _ => trivial
    func := fun _ => Block.obeys_free _
    newMethod := fun _ _ hc hparts => ⟨hparts.1, hparts.2, hc⟩
    method := fun hm => ⟨Value.wellBound_of_isObject hm.1, hm.2.2⟩ }

/-- An operation that makes no doc leaves the prototypes alone. -/
theorem Maintains.wellBound {x : Eval σ β} {Q : β → Prop} (hx : (stored .free Value.WellBound B).Keeps x Q)
    (hu : Updating x) : (wellBound B).Keeps x Q := by
  intro m hm
  have protos : ∀ id d, (stateAfter x m).doc? id = some d → ∀ p ∈ d.proto, p.WellBound := by
    intro id d hd
    have hid : id < m.heap.docs.size := (hu m).docs_size ▸ (Array.getElem?_eq_some_iff.1 hd).1
    have before := Array.getElem?_eq_getElem hid
    obtain ⟨d', hd', grown⟩ := (hu m).docs id _ before
    obtain rfl : d' = d := Option.some.inj (hd'.symm.trans hd)
    rw [grown.proto]
    exact hm.heap.protos id _ before
  have kept := hx m hm.stores
  unfold After at kept ⊢
  cases hr : x m with
  | ok b m' =>
    rw [hr] at kept
    exact ⟨⟨⟨kept.1.heap, stateAfter_of_ok hr ▸ protos⟩, kept.1.globals⟩, kept.2⟩
  | error e m' =>
    rw [hr] at kept
    exact ⟨⟨⟨kept.1.heap, stateAfter_of_error hr ▸ protos⟩, kept.1.globals⟩, kept.2⟩

theorem wellBound_newDoc {d : Doc} (hd : d.Stores Value.WellBound) (hp : ∀ p ∈ d.proto, p.WellBound) :
    (wellBound B).Keeps (Machine.newDoc d) Value.WellBound := by
  intro m hm
  refine ⟨⟨⟨hm.heap.stores.pushDoc hd, fun id d' hd' => ?_⟩, hm.globals⟩, trivial⟩
  have hd' : (m.heap.docs.push d)[id]? = some d' := hd'
  rw [Array.getElem?_push] at hd'
  split at hd'
  · exact Option.some.inj hd' ▸ hp
  · exact hm.heap.protos id d' hd'

theorem lawful_wellBound (h : host.Keeps Value.WellBound B) : (wellBound B).Lawful host :=
  have c := storable_wellBound h
  { none := trivial
    bool := fun _ => trivial
    num := fun _ => trivial
    str := fun _ => trivial
    func := fun _ => Block.obeys_free _
    method := fun {i _ _} hm => @c.method i _ _ hm
    lookup := fun v => .wellBound (c.lookup v) (.lookup v)
    assign := fun _ hv => .wellBound (c.assign _ hv) (.assign _ _)
    bind := fun _ hv => .wellBound (c.bind _ hv) (.bindVariable _ _)
    newFunction := fun hm hf => .wellBound (c.newFunction_keeps hm hf) (.newFunction _)
    newDoc := fun hp he => wellBound_newDoc (c.insertMany he) (Doc.wellBound_proto_insertMany hp _)
    newList := fun hi m hm =>
      wellBound_newDoc (Doc.stores_arrayDoc c.num _ hi) (Machine.wellBound_proto_arrayDoc _ _) m hm
    index := fun _ hk => .wellBound (c.index_keeps _ hk) (.index _ _ _)
    arrow := fun ho hk => .wellBound (c.arrow ho hk) (.arrow _ _ _)
    setIndex := fun _ hk hv => .wellBound (c.setIndex_keeps _ hk hv) (.setIndex _ _ _ _)
    pairs := fun _ => .wellBound (c.pairs _) (.pairs _)
    println := fun _ => .wellBound (c.println _) (.println _)
    len := fun _ => .wellBound (c.len _) (.len _)
    push := fun ha => .wellBound (c.push ha) (.push _)
    native := fun {i _ _} _ ha => @h.native i _ _ trivial ha }

theorem portable_wellBound : (wellBound B).Portable where
  enter hm _ ha := ⟨⟨(hm.stores.enter trivial ha).heap, hm.heap.protos⟩, hm.globals⟩
  leave _ hm _ := { hm with }

theorem callsKeep_wellBound (h : host.Keeps Value.WellBound B) (n : Nat) :
    (wellBound B).CallsKeep (callWithin host n) :=
  callsKeep_of_under fun c => callWithin_keeps (lawful_wellBound h) portable_wellBound trivial n c

end Discipline

/-! ## Machines that a host gets to -/

/-- The machines that come from a new one by running scripts, calling values and making lists, where all
values that the host brings in are well bound. Between these steps the host may change what is on the
heap. -/
inductive Hosted (host : Host σ) (B : σ → Prop) : Machine σ → Prop
  | build {heap : Heap σ} {c : Config} : heap.WellBound B → (∀ g ∈ c.globals, g.2.WellBound) →
    Hosted host B (Machine.build heap c)
  | interpret (n : Nat) (text : String) {m : Machine σ} : Hosted host B m →
    Hosted host B (interpret host n text m).2
  | call (n : Nat) {callee : Value} {args : List Value} {m : Machine σ} : callee.WellBound →
    (∀ v ∈ args, v.WellBound) → Hosted host B m → Hosted host B (stateAfter (callWithin host n callee args) m)
  | callSingle (n : Nat) {callee : Value} {args : List Value} {m : Machine σ} : callee.WellBound →
    (∀ v ∈ args, v.WellBound) → Hosted host B m → Hosted host B (stateAfter (callSingle host n callee args) m)
  | newList {items : List Value} {m : Machine σ} : (∀ v ∈ items, v.WellBound) → Hosted host B m →
    Hosted host B (stateAfter (Machine.newList items : Eval σ Value) m)
  | supply {heap : Heap σ} {m : Machine σ} : heap.WellBound B → Hosted host B m →
    Hosted host B { m with heap := heap }

variable {m : Machine σ}

theorem Hosted.wellBound (h : host.Keeps Value.WellBound B) (hm : Hosted host B m) : m.WellBound B := by
  have called {n : Nat} {callee : Value} {args : List Value} {m : Machine σ} (hc : callee.WellBound)
      (ha : ∀ v ∈ args, v.WellBound) (hm : m.WellBound B) :
      (stateAfter (callWithin host n callee args) m).WellBound B := by
    refine After.stateAfter ?_
    exact (Discipline.callsKeep_wellBound h n _ _ hc ha _ hm).mono (fun _ _ h => h.1) fun _ _ h => h.1
  induction hm with
  | build hh hg => exact Machine.wellBound_build hh hg
  | interpret n text _ ih =>
    exact (Discipline.interpret_keeps (Discipline.lawful_wellBound h) Discipline.portable_wellBound trivial
      { ih with } fun _ => stmtsObey_free _).1.1
  | call n hc ha _ ih => exact called hc ha ih
  | callSingle n hc ha _ ih =>
    rw [DocScript.callSingle, stateAfter_bind_pure]
    exact called hc ha ih
  | newList hi _ ih => exact ((Discipline.lawful_wellBound h).newList hi _ ih).1
  | supply hh _ ih => exact { ih with heap := hh }

/-! ## At every moment -/

/-- The values that the task handles. -/
def Task.values : Task → List Value
  | .targets _ values => values
  | .decoration f decorators => f :: decorators
  | .items _ _ pairs => pairs.flatMap fun e => [e.1, e.2]
  | .call callee args => callee :: args
  | .body _ args => args
  | _ => []

theorem Task.Ok.good {I : Discipline σ} {t : Task} (h : t.Ok I) : ∀ v ∈ t.values, I.Good v := by
  cases t with
  | targets _ _ | body _ _ => exact h.2
  | decoration _ _ | call _ _ => exact List.forall_mem_cons.2 h
  | items _ _ pairs =>
    intro v hv
    obtain ⟨e, he, hv⟩ := List.mem_flatMap.1 hv
    have both : ∀ w ∈ [e.1, e.2], I.Good w := List.forall_mem_cons.2 ⟨(h.2 e he).1, by simpa using (h.2 e he).2⟩
    exact both v hv
  | _ => simp [values]

/-- All values at the moment are well bound : on the machine, in the task, and those that come of it. -/
structure Moment.WellBound (host : Host σ) (B : σ → Prop) (x : Moment σ) : Prop where
  machine : x.machine.WellBound B
  handled : ∀ v ∈ x.task.values, v.WellBound
  yields : x.Yields host Value.WellBound

theorem Moment.wellBound_of_reaches (h : host.Keeps Value.WellBound B) {x y : Moment σ}
    (hx : x.Ok (.wellBound B)) (hy : x.Reaches host y) : y.WellBound host B := by
  have lawful := Discipline.lawful_wellBound h
  have ok := ok_of_reaches lawful Discipline.portable_wellBound trivial hx hy
  exact ⟨ok.1, ok.2.good, yields_of_lawful lawful Discipline.portable_wellBound trivial ok⟩

/-- On every machine that a host gets to, at every moment of a script or a call, and in what is raised, all
values are well bound. A well-bound value that counts as callable has a name, and a call of it enters the
function or native behind its methods, all of which are methods of objects; what does not count as callable
is refused. -/
theorem methods_wellBound (h : host.Keeps Value.WellBound B) (hm : Hosted host B m) :
    (m.WellBound B ∧
      (∀ n text, Accepted text →
        ∀ y, (Moment.ofScript n text m).Reaches host y → y.WellBound host B) ∧
      (∀ n callee args, callee.WellBound → (∀ v ∈ args, v.WellBound) →
        ∀ y, Moment.Reaches host ⟨n, .call callee args, m⟩ y → y.WellBound host B) ∧
      ∀ n text message payload, (interpret host n text m).1 = .raised message payload → payload.WellBound) ∧
    ∀ (v : Value) (n : Nat) (args : List Value),
      (v.WellBound → v.isCallable →
        v.callableName?.isSome ∧ (∀ r ∈ v.receivers, r.isObject) ∧ v.Enters host n args) ∧
      (¬v.isCallable → callWithin host (n + 1) v args = Eval.fail .notCallable) := by
  have bound := hm.wellBound h
  refine ⟨⟨bound, ?_, ?_, ?_⟩, fun v n args => ⟨fun hv hc => ?_, fun hc => ?_⟩⟩
  · intro n text _ y hy
    have start : (Moment.ofScript n text m).Ok (.wellBound B) := ⟨{ bound with }, stmtsObey_free _⟩
    exact Moment.wellBound_of_reaches h start hy
  · intro n callee args hc ha y hy
    have start : Moment.Ok (.wellBound B) ⟨n, .call callee args, m⟩ := ⟨bound, hc, ha⟩
    exact Moment.wellBound_of_reaches h start hy
  · intro n text message payload hr
    have outcome : (Discipline.wellBound B).Outcomes (interpret host n text m).1 :=
      (Discipline.interpret_keeps (Discipline.lawful_wellBound h) Discipline.portable_wellBound trivial { bound with }
        fun _ => stmtsObey_free _).2
    rw [hr] at outcome
    exact outcome
  · have function := hv.isFunction_target hc
    have name : v.callableName?.isSome := v.callableName?_target ▸ Value.isSome_callableName? function
    exact ⟨name, hv.isObject_of_mem_receivers, Value.enters_of_isFunction function host n args⟩
  · exact (Calls.within host n).callValue_of_not_isCallable hc args

/-- A method is stored in the prototype of another object and looked up there : the method that this gives
passes the inner receiver first. -/
theorem methods_wellBound_nested :
    let text := "def f(self, other):\n    return other\np = \x7b\"f\": f\x7d\na = p\x7b\x7d\n" ++
      "q = \x7b\"g\": a->f\x7d\nb = q\x7b\x7d\nc = b->g\n"
    let m := (interpret Thermometer.host 9 text (.build .empty .default)).2
    let value := fun name => (m.root? name).getD .none
    Accepted text ∧ m.WellBound (fun _ => True) ∧
      (value "c").receivers.map Value.identity = [(value "a").identity, (value "b").identity] ∧
        (value "c").target.identity = (value "f").identity ∧
          ∀ args, (value "c").Enters Thermometer.host 8 args := by
  intro text m value
  have hh : Thermometer.host.Keeps Value.WellBound fun _ => True :=
    Thermometer.keeps trivial (fun _ => trivial) (fun _ => trivial) fun _ => trivial
  have hm : Hosted Thermometer.host (fun _ => True) m :=
    .interpret 9 text (.build Heap.wellBound_empty (by simp [Config.default]))
  obtain ⟨⟨bound, _⟩, calls⟩ := methods_wellBound hh hm
  have hv : (value "c").WellBound := by
    cases hroot : m.root? "c" with
    | none => simp [value, hroot, Value.WellBound]
    | some v =>
      have hv : v.WellBound := bound.heap.stores.frames _ _ _ hroot
      simpa [value, hroot] using hv
  have hc : (value "c").isCallable := by decide +kernel
  refine ⟨by decide +kernel, bound, by decide +kernel, by decide +kernel, fun args => ?_⟩
  exact ((calls (value "c") 8 args).1 hv hc).2.2

end DocScript
