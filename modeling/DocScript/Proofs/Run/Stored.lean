import DocScript.Host.Thermometer
import DocScript.Proofs.Run.Control

/-!
# What a machine stores

Values are stored in frames, in the globals and in docs, as keys and as entries, and boxes may
hold more of them in their states. `Machine.Stores P B` says that all stored values satisfy `P` and all
boxes `B`. What code takes out of a machine it can put in again, so the operations keep this as soon as
`P` is closed under what code makes by itself : plain values, the functions that the rules allow, and
methods (`Discipline.Closed`). If all docs are of `P` too, it is a discipline (`Discipline.Storable`).
-/

namespace DocScript

variable {σ : Type} {P : Value → Prop} {B : σ → Prop}

/-! ## Frames -/

/-- All frames bind names to values of `P` only. -/
def Frames.Stores (P : Value → Prop) (fs : Frames) : Prop :=
  ∀ i x v, fs.getLocal? i x = some v → P v

namespace Frames

variable {fs : Frames}

theorem Stores.push (h : fs.Stores P) (parent : Option FrameId) : (fs.push parent).Stores P := by
  intro i x v hv
  rw [getLocal?_push] at hv
  exact h i x v hv

theorem Stores.define (h : fs.Stores P) {v : Value} (hv : P v) (i : FrameId) (x : String) :
    (fs.define i x v).Stores P := by
  intro j y w hw
  rw [getLocal?_define] at hw
  split at hw
  · exact Option.some.inj hw ▸ hv
  · exact h j y w hw

theorem Stores.findSome? (h : fs.Stores P) {is : List FrameId} {x : String} {v : Value}
    (hv : is.findSome? (fs.getLocal? · x) = some v) : P v := by
  obtain ⟨i, _, hi⟩ := List.exists_of_findSome?_eq_some hv
  exact h i x v hi

theorem Stores.assignOuter? (h : fs.Stores P) {i : FrameId} {x : String} {v : Value} {fs' : Frames}
    (hv : P v) (hfs : fs.assignOuter? i x v = some fs') : fs'.Stores P := by
  obtain ⟨j, _, rfl⟩ := Option.map_eq_some_iff.1 hfs
  exact h.define hv j x

theorem Stores.bindParams (i : FrameId) : ∀ (ps : List String) {fs : Frames} {args : List Value},
    fs.Stores P → P .none → (∀ v ∈ args, P v) → (Calls.bindParams fs i ps args).Stores P
  | [], _, _, h, _, _ => h
  | p :: ps, fs, args, h, hn, ha => by
    have first := Value.first_of_forall hn ha
    exact Stores.bindParams i ps (h.define first i p) hn fun v hv => ha v (List.mem_of_mem_tail hv)

end Frames

/-- All names are bound to values of `P`. -/
def Bindings.Stores (P : Value → Prop) (bs : Bindings) : Prop := ∀ x v, bs.get? x = some v → P v

theorem Bindings.Stores.set {bs : Bindings} (h : bs.Stores P) {v : Value} (hv : P v) (x : String) :
    (Bindings.set x v bs).Stores P := by
  intro y w hw
  rw [Bindings.get?_set] at hw
  split at hw
  · exact Option.some.inj hw ▸ hv
  · exact h y w hw

/-! ## Docs -/

/-- All keys and entries of the doc satisfy `P`. The prototype need not : it is never a value, only
what is stored in it is. -/
def Doc.Stores (P : Value → Prop) (d : Doc) : Prop := ∀ e ∈ d.entries, P e.1.toValue ∧ P e.2

namespace Doc

theorem mem_of_getKey? {k : Key} {v : Value} : ∀ {es : List (Key × Value)},
    getKey? k es = some v → ∃ k', (k', v) ∈ es
  | [], h => by simp [getKey?] at h
  | (k', w) :: es, h => by
    rw [getKey?] at h
    split at h
    · simp at h
    · obtain rfl := Option.some.inj h
      exact ⟨k', by simp⟩
    · obtain ⟨k'', hk⟩ := mem_of_getKey? h
      exact ⟨k'', List.mem_cons_of_mem _ hk⟩

/-- Inserting under a key keeps all other entries, and the key itself if it is there already. -/
theorem mem_insertKey {k : Key} {v : Value} {e : Key × Value} : ∀ {es : List (Key × Value)},
    e ∈ insertKey k v es → e ∈ es ∨ e.2 = v ∧ (e.1 = k ∨ ∃ w, (e.1, w) ∈ es)
  | [], h => by
    rw [insertKey, List.mem_singleton] at h
    simp [h]
  | (k', w) :: es, h => by
    rw [insertKey] at h
    split at h
    · rcases List.mem_cons.1 h with rfl | h
      · simp
      · exact Or.inl h
    · rcases List.mem_cons.1 h with rfl | h
      · exact Or.inr ⟨rfl, Or.inr ⟨w, by simp⟩⟩
      · exact Or.inl (List.mem_cons_of_mem _ h)
    · rcases List.mem_cons.1 h with rfl | h
      · simp
      · rcases mem_insertKey h with h | ⟨hv, hk | ⟨w', hk⟩⟩
        · exact Or.inl (List.mem_cons_of_mem _ h)
        · exact Or.inr ⟨hv, Or.inl hk⟩
        · exact Or.inr ⟨hv, Or.inr ⟨w', List.mem_cons_of_mem _ hk⟩⟩

/-- A key gives back the value that it was made from, up to the sign of zero. -/
theorem toValue_ofValue (hn : ∀ n, P (.num n)) {v : Value} (hv : P v) : P (Key.ofValue v).toValue := by
  cases v with
  | num n => exact hn _
  | _ => exact hv

variable {d : Doc}

theorem Stores.get? (h : d.Stores P) {key v : Value} (hv : d.get? key = some v) : P v := by
  obtain ⟨k, hk⟩ := mem_of_getKey? hv
  exact (h _ hk).2

theorem Stores.insert (h : d.Stores P) (hn : ∀ n, P (.num n)) {key value : Value} (hk : P key)
    (hv : P value) : (d.insert key value).Stores P := by
  intro e he
  rcases mem_insertKey he with he | ⟨rfl, hek | ⟨w, he⟩⟩
  · exact h e he
  · exact ⟨hek ▸ toValue_ofValue hn hk, hv⟩
  · exact ⟨(h _ he).1, hv⟩

theorem Stores.insertMany (hn : ∀ n, P (.num n)) : ∀ (kvs : List (Value × Value)) {d : Doc},
    d.Stores P → (∀ e ∈ kvs, P e.1 ∧ P e.2) → (d.insertMany kvs).Stores P
  | [], _, h, _ => h
  | (k, v) :: kvs, d, h, hkv => by
    obtain ⟨⟨hk, hv⟩, hkvs⟩ := List.forall_mem_cons.1 hkv
    exact Stores.insertMany hn kvs (h.insert hn hk hv) hkvs

theorem stores_empty (proto : Option Value) : (⟨[], proto⟩ : Doc).Stores P := by simp [Stores]

theorem stores_arrayDoc (hn : ∀ n, P (.num n)) (proto : DocId) {items : List Value}
    (h : ∀ v ∈ items, P v) : (Machine.arrayDoc proto items).Stores P := by
  refine Stores.insertMany hn _ (stores_empty _) fun e he => ?_
  obtain ⟨⟨v, i⟩, hv, rfl⟩ := List.mem_map.1 he
  exact ⟨hn _, h v (List.fst_mem_of_mem_zipIdx hv)⟩

end Doc

/-- Docs and boxes : what can have a prototype. -/
def Value.isObject : Value → Bool
  | .doc _ | .box _ _ => true
  | _ => false

/-! ## Machines -/

/-- All that the heap stores satisfies `P`, and all boxes satisfy `B`. -/
structure Heap.Stores (P : Value → Prop) (B : σ → Prop) (h : Heap σ) : Prop where
  frames : h.frames.Stores P
  docs : ∀ (id : DocId) d, h.docs[id]? = some d → d.Stores P
  boxes : ∀ (id : BoxId) s, h.boxes[id]? = some s → B s

theorem Heap.stores_empty : (Heap.empty : Heap σ).Stores P B where
  frames := by simp [Frames.Stores, Frames.getLocal?, Heap.empty, Frames.empty]
  docs := by simp [Heap.empty]
  boxes := by simp [Heap.empty]

namespace Heap.Stores

variable {heap : Heap σ} (h : heap.Stores P B)

include h

theorem pushDoc {d : Doc} (hd : d.Stores P) :
    ({ heap with docs := heap.docs.push d } : Heap σ).Stores P B := by
  refine { h with docs := fun id d' hd' => ?_ }
  rw [Array.getElem?_push] at hd'
  split at hd'
  · exact Option.some.inj hd' ▸ hd
  · exact h.docs id d' hd'

theorem modifyDoc {id : DocId} {f : Doc → Doc} (hf : ∀ d, d.Stores P → (f d).Stores P) :
    ({ heap with docs := heap.docs.modify id f } : Heap σ).Stores P B := by
  refine { h with docs := fun i d hd => ?_ }
  rw [Array.getElem?_modify] at hd
  split at hd
  · obtain ⟨d', hd', rfl⟩ := Option.map_eq_some_iff.1 hd
    exact hf d' (h.docs i d' hd')
  · exact h.docs i d hd

theorem setBox {id : BoxId} {s : σ} (hs : B s) :
    ({ heap with boxes := heap.boxes.setIfInBounds id s } : Heap σ).Stores P B := by
  refine { h with boxes := fun i s' hs' => ?_ }
  rw [Array.getElem?_setIfInBounds] at hs'
  split at hs'
  · split at hs'
    · exact Option.some.inj hs' ▸ hs
    · simp at hs'
  · exact h.boxes i s' hs'

end Heap.Stores

/-- All that the machine stores satisfies `P`, and all boxes satisfy `B`. -/
structure Machine.Stores (P : Value → Prop) (B : σ → Prop) (m : Machine σ) : Prop where
  heap : m.heap.Stores P B
  globals : m.globals.Stores P

namespace Machine.Stores

variable {m : Machine σ} (h : m.Stores P B)

include h

theorem lookup? {v : Variable} {value : Value} (hv : m.lookup? v = some value) : P value := by
  unfold Machine.lookup? at hv
  split at hv
  · split at hv
    · next heq => exact Option.some.inj hv ▸ h.heap.frames.findSome? heq
    · exact h.globals _ _ hv
  · exact h.heap.frames _ _ _ hv
  · exact h.heap.frames.findSome? hv
  · exact h.globals _ _ hv

theorem withFrames {f : Frames → Frames} (hf : (f m.heap.frames).Stores P) :
    (m.withFrames f).Stores P B :=
  ⟨{ h.heap with frames := hf }, h.globals⟩

theorem enter {f : Closure} {args : List Value} (hn : P .none) (ha : ∀ v ∈ args, P v) :
    (Calls.enter f args m).Stores P B :=
  ⟨{ h.heap with frames := (h.heap.frames.push _).bindParams _ _ hn ha }, h.globals⟩

end Machine.Stores

theorem Bindings.Stores.foldl_set {bs : Bindings} (h : bs.Stores P) :
    ∀ (gs : List (String × Value)), (∀ g ∈ gs, P g.2) →
      (gs.foldl (fun bs g => Bindings.set g.1 g.2 bs) bs).Stores P := by
  intro gs
  induction gs generalizing bs with
  | nil => exact fun _ => h
  | cons g gs ih =>
    intro hg
    obtain ⟨hg, hgs⟩ := List.forall_mem_cons.1 hg
    exact ih (h.set hg g.1) hgs

/-- A new machine stores what the heap and the configuration have, the natives and the list of
arguments. -/
theorem Machine.stores_build_of_argv {heap : Heap σ} {c : Config} (hs : ∀ s, P (.str s))
    (hn : ∀ n, P (.num n)) (hd : P (.doc (heap.docs.size + 1)))
    (hf : ∀ id f, (∀ name, f ≠ .host name) → P (.native id f))
    (h : heap.Stores P B) (hg : ∀ g ∈ c.globals, P g.2) : (Machine.build heap c).Stores P B := by
  have proto : (arrayPrototype heap.nextId).Stores P := by
    refine Doc.Stores.insertMany hn _ (Doc.stores_empty _) fun e he => ?_
    simp only [List.mem_cons, List.not_mem_nil, or_false] at he
    rcases he with rfl | rfl
    · exact ⟨hs _, hf _ _ (by simp)⟩
    · exact ⟨hs _, hf _ _ (by simp)⟩
  have base : Bindings.Stores P [("println", .native (heap.nextId + 2) .println)] := by
    intro x v hv
    rw [Bindings.get?_cons] at hv
    split at hv
    · exact Option.some.inj hv ▸ hf _ _ (by simp)
    · simp [Bindings.get?_nil] at hv
  have standard : (standardGlobals (heap.nextId + 2)
      (c.argv.map fun _ => (heap.docs.push (arrayPrototype heap.nextId)).size)).Stores P := by
    cases c.argv with
    | none => exact base
    | some _ =>
      have argv : P (.doc (heap.docs.push (arrayPrototype heap.nextId)).size) := by rwa [Array.size_push]
      exact base.set argv _
  refine ⟨⟨h.frames.push _, ?_, h.boxes⟩, ?_⟩
  · intro id d hid
    rcases Array.mem_append.1 (Array.mem_of_getElem? hid) with hmem | hmem
    · rcases Array.mem_push.1 hmem with hmem | rfl
      · obtain ⟨i, hi⟩ := Array.getElem?_of_mem hmem
        exact h.docs i d hi
      · exact proto
    · obtain ⟨args, _, rfl⟩ : ∃ args, c.argv = some args ∧
          arrayDoc heap.docs.size (args.map .str) = d := by simpa using hmem
      refine Doc.stores_arrayDoc hn _ fun v hv => ?_
      obtain ⟨s, _, rfl⟩ := List.mem_map.1 hv
      exact hs s
  · refine Bindings.Stores.foldl_set ?_ c.globals hg
    rw [Option.map_map]
    exact standard

/-- The same where all docs are of `P`. -/
theorem Machine.stores_build {heap : Heap σ} {c : Config} (hs : ∀ s, P (.str s))
    (hn : ∀ n, P (.num n)) (hd : ∀ id, P (.doc id))
    (hf : ∀ id f, (∀ name, f ≠ .host name) → P (.native id f))
    (h : heap.Stores P B) (hg : ∀ g ∈ c.globals, P g.2) : (Machine.build heap c).Stores P B :=
  stores_build_of_argv hs hn (hd _) hf h hg

/-! ## The discipline -/

/-- The natives of the host hand out values of `P` only, and so do its boxes, which keep `B`. -/
structure Host.Keeps (P : Value → Prop) (B : σ → Prop) (host : Host σ) : Prop where
  native : ∀ {id name args}, P (.native id (.host name)) → (∀ v ∈ args, P v) →
    (host.native name args).Handles P
  index : ∀ {s key}, B s → P key → P (host.index s key)
  setIndex : ∀ {s key value}, B s → P key → P value →
    match host.setIndex s key value with
    | .ok s' => B s'
    | .error payload => P payload

namespace Discipline

/-- The discipline of machines that store values of `P` and boxes of `B`. -/
def stored (R : Rules) (P : Value → Prop) (B : σ → Prop) : Discipline σ :=
  { R with Good := P, Holds := Machine.Stores P B }

/-- `P` is closed under what code and the host make of values, docs apart. Methods are made of objects only. -/
structure Closed (R : Rules) (P : Value → Prop) (B : σ → Prop) (host : Host σ) : Prop
    extends host.Keeps P B where
  none : P .none
  bool : ∀ b, P (.bool b)
  num : ∀ n, P (.num n)
  str : ∀ s, P (.str s)
  newFunction : ∀ {f : Function Unit} (id env), R.Makes f → f.Obeys R →
    P (.func id ⟨f.name, f.params, f.body, env⟩)
  func : ∀ {id f}, P (.func id f) → f.body.Obeys R
  newMethod : ∀ {receiver callable : Value} (id), P receiver → P callable →
    receiver.isObject ∧ callable.isCallable → P (.method id receiver callable)
  method : ∀ {id receiver callable}, P (.method id receiver callable) → P receiver ∧ P callable

/-- `P` is closed under what code and the host make of values. -/
structure Storable (R : Rules) (P : Value → Prop) (B : σ → Prop) (host : Host σ) : Prop
    extends Closed R P B host where
  doc : ∀ id, P (.doc id)

variable {R : Rules} {host : Host σ}

namespace Closed

variable (h : Closed R P B host)

include h

theorem lookup (v : Variable) : (stored R P B).Keeps (Machine.lookup v) P := by
  intro m hm
  unfold After Machine.lookup
  cases hv : m.lookup? v with
  | none => exact ⟨hm, h.str _⟩
  | some value => exact ⟨hm, Machine.Stores.lookup? hm hv⟩

theorem assign (v : Variable) {value : Value} (hv : P value) :
    (stored R P B).Keeps (Machine.assign v value) fun _ => True := by
  intro m hm
  unfold After Machine.assign
  cases v.scope with
  | dynamic => exact ⟨Machine.Stores.withFrames hm (hm.heap.frames.define hv _ _), trivial⟩
  | local_ => exact ⟨Machine.Stores.withFrames hm (hm.heap.frames.define hv _ _), trivial⟩
  | nonlocal =>
    dsimp only
    cases hfs : m.heap.frames.assignOuter? m.env v.name value with
    | none => exact ⟨hm, h.str _⟩
    | some fs => exact ⟨Machine.Stores.withFrames hm (hm.heap.frames.assignOuter? hv hfs), trivial⟩
  | global_ => exact ⟨{ hm with globals := hm.globals.set hv _ }, trivial⟩

theorem bind (v : Variable) {value : Value} (hv : P value) :
    (stored R P B).Keeps (Machine.bind v value) fun _ => True := by
  unfold Machine.bind
  split
  · exact fun m hm => ⟨Machine.Stores.withFrames hm (hm.heap.frames.define hv _ _), trivial⟩
  · exact h.assign v hv

theorem newFunction_keeps {f : Function Unit} (hm : R.Makes f) (hf : f.Obeys R) :
    (stored R P B).Keeps (Machine.newFunction f) P := fun _ hs =>
  ⟨⟨{ hs.heap with }, hs.globals⟩, h.newFunction _ _ hm hf⟩

omit h in
theorem newDoc {d : Doc} (hd : d.Stores P) : (stored R P B).Keeps (Machine.newDoc d) fun _ => True :=
  fun _ hm => ⟨{ hm with heap := hm.heap.pushDoc hd }, trivial⟩

theorem newList {items : List Value} (hi : ∀ v ∈ items, P v) :
    (stored R P B).Keeps (Machine.newList items) fun _ => True := fun m hm =>
  newDoc (Doc.stores_arrayDoc h.num _ hi) m hm

theorem insertMany {proto : Option Value} {entries : List (Value × Value)} (he : ∀ e ∈ entries, P e.1 ∧ P e.2) :
    (Doc.insertMany ⟨[], proto⟩ entries).Stores P :=
  Doc.Stores.insertMany h.num _ (Doc.stores_empty _) he

theorem println (args : List Value) : (stored R P B).Keeps (Calls.println args) P := fun _ hm =>
  ⟨{ hm with }, h.none⟩

/-- What is found in an object is stored, whether the object is or not. -/
theorem index_keeps (object : Value) {key : Value} (hk : P key) :
    (stored R P B).Keeps (Machine.index host object key) P := by
  intro m hm
  cases object with
  | doc id =>
    refine ⟨hm, ?_⟩
    cases hv : (m.doc? id).bind (·.get? key) with
    | none => exact h.none
    | some v =>
      obtain ⟨d, hd, hv⟩ := Option.bind_eq_some_iff.1 hv
      exact (hm.heap.docs id d hd).get? hv
  | box id _ =>
    refine ⟨hm, ?_⟩
    cases hs : m.heap.boxes[id]? with
    | none => simpa [hs] using h.none
    | some s => simpa [hs] using h.index (hm.heap.boxes id s hs) hk
  | str s =>
    refine ⟨hm, ?_⟩
    unfold Machine.charAt
    split
    · split
      · exact h.str _
      · exact h.none
    · exact h.none
  | _ => exact ⟨hm, h.str _⟩

/-- Only an object can be asked for its prototype. -/
theorem prototype (object : Value) :
    (stored R P B).Keeps (Machine.prototype host object) fun _ => object.isObject := by
  intro m hm
  cases object with
  | doc _ | box _ _ => exact ⟨hm, rfl⟩
  | _ => exact ⟨hm, h.str _⟩

theorem arrow {object key : Value} (ho : P object) (hk : P key) :
    (stored R P B).Keeps (Machine.arrow host object key) P := by
  refine (h.prototype object).bind fun proto hobject => ?_
  cases proto with
  | none => exact maintains_pure h.none
  | some proto =>
    refine (h.index_keeps proto hk).bind fun found hf => ?_
    split
    · next hc => exact fun _ hm => ⟨⟨{ hm.heap with }, hm.globals⟩, h.newMethod _ ho hf ⟨hobject, hc⟩⟩
    · exact maintains_pure hf

theorem setIndex_keeps (object : Value) {key value : Value} (hk : P key) (hv : P value) :
    (stored R P B).Keeps (Machine.setIndex host object key value) fun _ => True := by
  intro m hm
  cases object with
  | doc id => exact ⟨{ hm with heap := hm.heap.modifyDoc fun d hd => hd.insert h.num hk hv }, trivial⟩
  | box id _ =>
    cases hs : m.heap.boxes[id]? with
    | none => simpa only [After, Machine.setIndex, hs, Option.map_none] using ⟨hm, trivial⟩
    | some s =>
      have answer := h.setIndex (hm.heap.boxes id s hs) hk hv
      simp only [After, Machine.setIndex, hs, Option.map_some]
      cases ha : host.setIndex s key value with
      | ok s' =>
        rw [ha] at answer
        exact ⟨{ hm with heap := hm.heap.setBox answer }, trivial⟩
      | error payload =>
        rw [ha] at answer
        exact ⟨hm, answer⟩
  | _ => exact ⟨hm, h.str _⟩

theorem pairs (iterable : Value) :
    (stored R P B).Keeps (Machine.pairs iterable) fun es => ∀ e ∈ es, P e.1 ∧ P e.2 := by
  intro m hm
  cases iterable with
  | doc id =>
    refine ⟨hm, fun e he => ?_⟩
    have stores : ((m.doc? id).getD .empty).Stores P := by
      cases hd : m.doc? id with
      | none => exact Doc.stores_empty _
      | some d => exact hm.heap.docs id d hd
    obtain ⟨⟨k, v⟩, hkv, rfl⟩ := List.mem_map.1 he
    obtain ⟨entry, hentry, heq⟩ := List.mem_map.1 hkv
    obtain ⟨rfl, rfl⟩ := Prod.mk.inj heq
    obtain ⟨hk, hv⟩ := stores entry hentry
    dsimp only
    split
    · exact ⟨hv, hk⟩
    · exact ⟨hk, hv⟩
  | str s =>
    refine ⟨hm, fun e he => ?_⟩
    obtain ⟨_, _, rfl⟩ := List.mem_map.1 he
    exact ⟨h.str _, h.num _⟩
  | _ => exact ⟨hm, h.str _⟩

theorem len (args : List Value) : (stored R P B).Keeps (Calls.len args) P := by
  intro m hm
  rcases args with _ | ⟨v, args⟩
  · exact ⟨hm, h.str _⟩
  · cases v with
    | doc _ | str _ => exact ⟨hm, h.num _⟩
    | _ => exact ⟨hm, h.str _⟩

theorem push {args : List Value} (ha : ∀ v ∈ args, P v) :
    (stored R P B).Keeps (Calls.push args) P := by
  intro m hm
  rcases args with _ | ⟨v, args⟩
  · exact ⟨hm, h.str _⟩
  · have pushed := Value.first_of_forall h.none fun w hw => ha w (List.mem_cons_of_mem _ hw)
    cases v with
    | doc _ =>
      exact ⟨{ hm with heap := hm.heap.modifyDoc fun d hd => hd.insert h.num (h.num _) pushed }, h.none⟩
    | _ => exact ⟨hm, h.str _⟩

end Closed

namespace Storable

variable (h : Storable R P B host)

include h

theorem lawful : (stored R P B).Lawful host where
  none := h.none
  bool := h.bool
  num := h.num
  str := h.str
  func := h.func
  method := h.method
  lookup := h.lookup
  assign _ hv := h.assign _ hv
  bind _ hv := h.bind _ hv
  newFunction := h.newFunction_keeps
  newDoc _ he := fun m hm => ⟨(Closed.newDoc (h.insertMany he) m hm).1, h.doc _⟩
  newList hi := fun m hm => ⟨(h.newList hi m hm).1, h.doc _⟩
  index _ hk := h.index_keeps _ hk
  arrow := h.arrow
  setIndex _ hk hv := h.setIndex_keeps _ hk hv
  pairs _ := h.pairs _
  println _ := h.println _
  len _ := h.len _
  push := h.push
  native := h.native

theorem portable : (stored R P B).Portable where
  enter hm _ ha := Machine.Stores.enter hm h.none ha
  leave _ hm _ := { hm with }

end Storable

end Discipline

/-- Thermometers and their natives hand out plain values and what they were given. -/
theorem Thermometer.keeps (hnone : P .none) (hbool : ∀ b, P (.bool b)) (hnum : ∀ n, P (.num n))
    (hstr : ∀ s, P (.str s)) : Thermometer.host.Keeps P fun _ => True where
  native {id name args} _ ha := by
    have first := Value.first_of_forall hnone ha
    have called : ∀ {next : List Value → Action},
        (∀ vs : List Value, (∀ v ∈ vs, P v) → (next vs).Handles P) →
          (Action.call (Value.first args) args.tail (passOn next)).Handles P :=
      fun hn => ⟨⟨first, fun v hv => ha v (List.mem_of_mem_tail hv)⟩, hn, fun _ hp => hp⟩
    change (Thermometer.native name args).Handles P
    unfold Thermometer.native
    dsimp only
    split
    · unfold double
      split
      · exact hnum _
      · exact hstr _
    · exact called fun vs hvs => Value.first_of_forall hnone hvs
    · exact called fun vs hvs => ⟨hvs, fun _ hv => hv⟩
    · exact first
    · change P (describe (Value.first args))
      unfold describe
      split
      · exact hstr _
      · exact hnone
    · exact hbool _
    · exact hnone
  index {s key} _ _ := by
    change P (Thermometer.index s key)
    unfold Thermometer.index
    split
    · exact hnum _
    · exact hnum _
    · exact hnone
  setIndex {s key value} _ _ _ := by
    split
    · trivial
    · next payload h =>
      change Thermometer.setIndex s key value = .error payload at h
      unfold Thermometer.setIndex at h
      split at h
      · simp at h
      · exact Except.error.inj h ▸ hstr _

end DocScript
