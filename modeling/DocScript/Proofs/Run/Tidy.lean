import DocScript.Proofs.Run.Growth
import DocScript.Proofs.Run.Sealed

/-!
# Docs stay in order

The entries of a doc are sorted by their keys, with each key once, and a key is the one that the value which
it was made from gives. All operations on docs keep this order (`Doc.Ordered`), so the entries of a doc, put
into a new one one after the other, make the same entries again (`Doc.Ordered.toList_insertMany`).

`Machine.Tidy` is this for all docs of a machine, together with the place of the module among the frames : its
frame is there, and no frame is around it. It is a discipline that all code obeys, so the machines of a
`Session`, in which a host builds a machine and uses it, are tidy (`Session.tidy`).
-/

namespace DocScript

variable {σ β : Type}

/-! ## Keys -/

/-- The key is the one that its value gives. -/
def Key.Normal (k : Key) : Prop := ofValue k.toValue = k

theorem Key.normal_ofValue (v : Value) : (ofValue v).Normal := by
  cases v with
  | num n =>
    have hzero : ((0 : Float) == 0) = true := by decide +kernel
    simp only [Normal, ofValue, toValue]
    by_cases h : (n == 0) = true <;> simp [h, hzero]
  | _ => rfl

/-! ## Docs -/

/-- The entries are sorted, and their keys are normal. -/
structure Doc.Ordered (d : Doc) : Prop where
  sorted : d.entries.Pairwise fun e e' => e.1.cmp e'.1 = .lt
  normal : ∀ e ∈ d.entries, e.1.Normal

namespace Doc

variable {k : Key} {v : Value} {es : List (Key × Value)} {d : Doc} {proto : Option Value}

theorem key_of_mem_insertKey {e : Key × Value} (h : e ∈ insertKey k v es) : e.1 = k ∨ ∃ e' ∈ es, e'.1 = e.1 := by
  rcases mem_insertKey h with h | ⟨-, h | ⟨w, h⟩⟩
  · exact .inr ⟨e, h, rfl⟩
  · exact .inl h
  · exact .inr ⟨(e.1, w), h, rfl⟩

theorem sorted_insertKey (h : es.Pairwise fun e e' => e.1.cmp e'.1 = .lt) :
    (insertKey k v es).Pairwise fun e e' => e.1.cmp e'.1 = .lt := by
  induction es with
  | nil => exact List.pairwise_singleton ..
  | cons e es ih =>
    obtain ⟨k', w⟩ := e
    obtain ⟨hfirst, hrest⟩ := List.pairwise_cons.1 h
    cases hk : k.cmp k' with
    | lt =>
      simp only [insertKey, hk]
      refine List.pairwise_cons.2 ⟨fun e he => ?_, h⟩
      rcases List.mem_cons.1 he with rfl | he
      · exact hk
      · exact Std.TransCmp.lt_trans hk (hfirst e he)
    | eq =>
      simp only [insertKey, hk]
      exact List.pairwise_cons.2 ⟨hfirst, hrest⟩
    | gt =>
      simp only [insertKey, hk]
      refine List.pairwise_cons.2 ⟨fun e he => ?_, ih hrest⟩
      rcases key_of_mem_insertKey he with he | ⟨e', he', heq⟩
      · rw [he]
        exact Std.OrientedCmp.gt_iff_lt.1 hk
      · rw [← heq]
        exact hfirst e' he'

theorem ordered_empty : Ordered ⟨[], proto⟩ := ⟨.nil, by simp⟩

theorem Ordered.insert (h : d.Ordered) (key value : Value) : (d.insert key value).Ordered where
  sorted := sorted_insertKey h.sorted
  normal e he := by
    rcases key_of_mem_insertKey he with hk | ⟨e', he', heq⟩
    · rw [hk]
      exact Key.normal_ofValue key
    · rw [← heq]
      exact h.normal e' he'

theorem Ordered.insertMany (h : d.Ordered) (kvs : List (Value × Value)) : (d.insertMany kvs).Ordered := by
  unfold Doc.insertMany
  induction kvs generalizing d with
  | nil => exact h
  | cons kv kvs ih => exact ih (h.insert kv.1 kv.2)

/-- An entry that belongs behind all others is put there. -/
theorem insertKey_eq_concat (h : ∀ e ∈ es, e.1.cmp k = .lt) : insertKey k v es = es ++ [(k, v)] := by
  induction es with
  | nil => rfl
  | cons e es ih =>
    have hgt : k.cmp e.1 = .gt := Std.OrientedCmp.gt_iff_lt.2 (h e (List.mem_cons_self ..))
    simp only [insertKey, hgt, List.cons_append]
    rw [ih fun e' he' => h e' (List.mem_cons_of_mem _ he')]

/-- The entries that values make. -/
def entriesOf (kvs : List (Value × Value)) : List (Key × Value) := kvs.map fun kv => (.ofValue kv.1, kv.2)

/-- Entries that come in order stay in it. -/
theorem insertMany_eq (kvs : List (Value × Value))
    (h : (es ++ entriesOf kvs).Pairwise fun e e' => e.1.cmp e'.1 = .lt) :
    (⟨es, proto⟩ : Doc).insertMany kvs = ⟨es ++ entriesOf kvs, proto⟩ := by
  induction kvs generalizing es with
  | nil => simp [Doc.insertMany, entriesOf]
  | cons kv kvs ih =>
    have hcons : es ++ entriesOf (kv :: kvs) = es ++ [(.ofValue kv.1, kv.2)] ++ entriesOf kvs := by
      simp [entriesOf]
    have hlast : (⟨es, proto⟩ : Doc).insert kv.1 kv.2 = ⟨es ++ [(.ofValue kv.1, kv.2)], proto⟩ := by
      rw [Doc.insert, insertKey_eq_concat]
      intro e he
      exact (List.pairwise_append.1 h).2.2 e he _ (List.mem_cons_self ..)
    rw [hcons] at h ⊢
    rw [← ih h, ← hlast]
    rfl

/-- New values under the keys of a doc make a doc with these entries. -/
theorem Ordered.toList_insertMany (h : d.Ordered) {kvs : List (Value × Value)}
    (hk : kvs.map Prod.fst = d.toList.map Prod.fst) :
    ((⟨[], proto⟩ : Doc).insertMany kvs).toList = kvs := by
  have hkeys : (entriesOf kvs).map Prod.fst = d.entries.map Prod.fst := by
    calc (entriesOf kvs).map Prod.fst = (kvs.map Prod.fst).map Key.ofValue := by simp [entriesOf]
      _ = d.entries.map fun e => Key.ofValue e.1.toValue := by simp [hk, toList]
      _ = d.entries.map Prod.fst := List.map_congr_left h.normal
  have hsorted : (entriesOf kvs).Pairwise fun e e' => e.1.cmp e'.1 = .lt := by
    have hs : (d.entries.map Prod.fst).Pairwise fun k k' => k.cmp k' = .lt := List.pairwise_map.2 h.sorted
    rw [← hkeys] at hs
    exact List.pairwise_map.1 hs
  have hvalues : ∀ kv ∈ kvs, (Key.ofValue kv.1).toValue = kv.1 := by
    intro kv hkv
    have hmem : kv.1 ∈ d.toList.map Prod.fst := hk ▸ List.mem_map_of_mem hkv
    simp only [toList, List.map_map, List.mem_map, Function.comp_apply] at hmem
    obtain ⟨e, he, heq⟩ := hmem
    rw [← heq, h.normal e he]
  have hinsert : (⟨[], proto⟩ : Doc).insertMany kvs = ⟨[] ++ entriesOf kvs, proto⟩ := insertMany_eq kvs hsorted
  rw [hinsert, toList, List.nil_append, entriesOf, List.map_map]
  refine (List.map_congr_left fun kv hkv => ?_).trans (List.map_id kvs)
  exact Prod.ext (hvalues kv hkv) rfl

end Doc

/-! ## Machines -/

/-- All docs are in order, and the module has a frame, around which there is no other. -/
structure Machine.Tidy (m : Machine σ) : Prop where
  docs : ∀ id d, m.doc? id = some d → d.Ordered
  root_lt : m.root < m.heap.frames.size
  outermost : m.heap.frames.parent? m.root = none

/-- Docs in order, the same module, and frames that only grow keep a machine tidy. -/
theorem Machine.Tidy.of_grows {m m' : Machine σ} (h : m.Tidy) (hr : m'.root = m.root)
    (hf : m.heap.frames.Grows m'.heap.frames) (hd : ∀ id d, m'.doc? id = some d → d.Ordered) : m'.Tidy where
  docs := hd
  root_lt := by
    rw [hr]
    exact Nat.lt_of_lt_of_le h.root_lt hf.size_le
  outermost := by
    rw [hr]
    exact (hf.parent _ h.root_lt).trans h.outermost

namespace Discipline

/-- The discipline of tidy machines. All code obeys it. -/
def tidy : Discipline σ := { Rules.free with Good := fun _ => True, Holds := Machine.Tidy }

theorem keeps_tidy {x : Eval σ β} {Q : β → Prop} (hs : Steady x) (hg : Growing x)
    (hd : ∀ m, m.Tidy → ∀ id d, (stateAfter x m).doc? id = some d → d.Ordered) (hQ : ∀ b, Q b) :
    (tidy : Discipline σ).Keeps x Q := by
  intro m hm
  have htidy : (stateAfter x m).Tidy :=
    hm.of_grows (congrArg Control.root (hs m).stateAfter) (hg m).frames (hd m hm)
  unfold After
  cases hx : x m with
  | ok b m' => exact ⟨stateAfter_of_ok hx ▸ htidy, hQ b⟩
  | error e m' => exact ⟨stateAfter_of_error hx ▸ htidy, by cases e <;> trivial⟩

/-- What leaves all docs alone keeps them in order. -/
theorem keeps_tidy_of_spares {x : Eval σ β} {Q : β → Prop} (hs : Steady x) (hu : Updating x)
    (hd : ∀ id, Spares id x) (hQ : ∀ b, Q b) : (tidy : Discipline σ).Keeps x Q := by
  refine keeps_tidy hs (fun m => (hu m).toGrows) (fun m hm id d h => ?_) hQ
  have hsame : (stateAfter x m).doc? id = m.doc? id :=
    After.stateAfter (P := fun m' : Machine σ => m'.doc? id = m.doc? id) (hd id m)
  exact hm.docs id d (hsame ▸ h)

theorem ordered_newDoc {d d' : Doc} {id : DocId} {m : Machine σ} (hm : m.Tidy) (hd : d.Ordered)
    (h : (stateAfter (Machine.newDoc d : Eval σ Value) m).doc? id = some d') : d'.Ordered := by
  have h : (m.heap.docs.push d)[id]? = some d' := h
  rw [Array.getElem?_push] at h
  split at h
  · exact Option.some.inj h ▸ hd
  · exact hm.docs id d' h

theorem ordered_modify {f : Doc → Doc} {d' : Doc} {id i : DocId} {m : Machine σ} (hm : m.Tidy)
    (hf : ∀ d : Doc, d.Ordered → (f d).Ordered)
    (h : Machine.doc? { m with heap := { m.heap with docs := m.heap.docs.modify i f } } id = some d') :
    d'.Ordered := by
  rw [Machine.doc?, Array.getElem?_modify] at h
  split at h
  · obtain ⟨d, hd, rfl⟩ := Option.map_eq_some_iff.1 h
    exact hf d (hm.docs id d hd)
  · exact hm.docs id d' h

theorem ordered_setIndex (host : Host σ) (object key value : Value) (m : Machine σ) (hm : m.Tidy) (id : DocId)
    (d : Doc) (h : (stateAfter (Machine.setIndex host object key value) m).doc? id = some d) : d.Ordered := by
  cases object with
  | doc i => exact ordered_modify hm (fun d hd => hd.insert key value) h
  | box i _ =>
    refine hm.docs id d (Eq.trans ?_ h)
    unfold stateAfter Machine.setIndex
    dsimp only
    rcases m.heap.boxes[i]?.map (host.setIndex · key value) with _ | _ | _ <;> rfl
  | _ => exact hm.docs id d h

theorem ordered_push (args : List Value) (m : Machine σ) (hm : m.Tidy) (id : DocId) (d : Doc)
    (h : (stateAfter (Calls.push args : Eval σ Value) m).doc? id = some d) : d.Ordered := by
  rcases args with _ | ⟨v, args⟩
  · exact hm.docs id d h
  · cases v with
    | doc i => exact ordered_modify hm (fun d hd => hd.insert _ _) h
    | _ => exact hm.docs id d h

theorem lawful_tidy (host : Host σ) : (tidy : Discipline σ).Lawful host where
  none := trivial
  bool _ := trivial
  num _ := trivial
  str _ := trivial
  func _ := Block.obeys_free _
  method _ := ⟨trivial, trivial⟩
  lookup v := keeps_tidy_of_spares (.lookup v) (.lookup v) (fun _ => .lookup v) fun _ => trivial
  assign _ _ := keeps_tidy_of_spares (.assign _ _) (.assign _ _) (fun _ => .assign _ _) fun _ => trivial
  bind _ _ :=
    keeps_tidy_of_spares (.bindVariable _ _) (.bindVariable _ _) (fun _ => .bindVariable _ _) fun _ => trivial
  newFunction _ _ :=
    keeps_tidy_of_spares (.newFunction _) (.newFunction _) (fun _ => .newFunction _) fun _ => trivial
  newDoc _ _ :=
    keeps_tidy (.newDoc _) (Machine.grows_newDoc _)
      (fun _ hm _ _ => ordered_newDoc hm (Doc.ordered_empty.insertMany _)) fun _ => trivial
  newList _ :=
    keeps_tidy (.newList _) (fun m => Machine.grows_newDoc _ m)
      (fun _ hm _ _ => ordered_newDoc hm (Doc.ordered_empty.insertMany _)) fun _ => trivial
  index _ _ := keeps_tidy_of_spares (.index _ _ _) (.index _ _ _) (fun _ => .index _ _ _) fun _ => trivial
  arrow _ _ := keeps_tidy_of_spares (.arrow _ _ _) (.arrow _ _ _) (fun _ => .arrow _ _ _) fun _ => trivial
  setIndex _ _ _ :=
    keeps_tidy (.setIndex _ _ _ _) (fun m => (Updating.setIndex _ _ _ _ m).toGrows) (ordered_setIndex _ _ _ _)
      fun _ => trivial
  pairs _ := keeps_tidy_of_spares (.pairs _) (.pairs _) (fun _ => .pairs _) fun _ _ _ => ⟨trivial, trivial⟩
  println _ := keeps_tidy_of_spares (.println _) (.println _) (fun _ => .println _) fun _ => trivial
  len _ := keeps_tidy_of_spares (.len _) (.len _) (fun _ => .len _) fun _ => trivial
  push _ := keeps_tidy (.push _) (fun m => (Updating.push _ m).toGrows) (ordered_push _) fun _ => trivial
  native _ _ := handles_true _

theorem portable_tidy : (tidy : Discipline σ).Portable where
  enter hm _ _ := hm.of_grows rfl (Machine.updates_enter _ _ _).frames hm.docs
  leave _ hm _ := hm.of_grows rfl (.refl _) hm.docs

theorem callsKeep_tidy (host : Host σ) (n : Nat) : (tidy : Discipline σ).CallsKeep (callWithin host n) :=
  callsKeep_of_under fun c => callWithin_keeps (lawful_tidy host) portable_tidy trivial n c

end Discipline

/-! ## Sessions -/

/-- All docs of the heap are in order. -/
def Heap.Ordered (heap : Heap σ) : Prop := ∀ (id : DocId) (d : Doc), heap.docs[id]? = some d → d.Ordered

theorem Machine.tidy_build {heap : Heap σ} (h : heap.Ordered) (c : Config) : (Machine.build heap c).Tidy where
  docs id d hd := by
    have hd : (heap.docs.push (arrayPrototype heap.nextId) ++
        (c.argv.map fun args => arrayDoc heap.docs.size (args.map .str)).toArray)[id]? = some d := hd
    rcases Array.mem_append.1 (Array.mem_of_getElem? hd) with hmem | hmem
    · rcases Array.mem_push.1 hmem with hmem | rfl
      · obtain ⟨i, hi⟩ := Array.mem_iff_getElem?.1 hmem
        exact h i d hi
      · exact Doc.ordered_empty.insertMany _
    · cases hargv : c.argv with
      | none => simp [hargv] at hmem
      | some args =>
        obtain rfl : d = arrayDoc heap.docs.size (args.map .str) := by simpa [hargv] using hmem
        exact Doc.ordered_empty.insertMany _
  root_lt := by
    change heap.frames.size < (heap.frames.push none).size
    rw [Frames.size_push]
    exact Nat.lt_succ_self _
  outermost := by
    change (heap.frames.push none).parent? heap.frames.size = none
    simp [Frames.parent?, Frames.push, Frames.size]

/-- The machines that a host gets to : it builds one on a heap, runs scripts, calls values and makes lists.
Between these steps it may do with the docs on the heap what docs allow, and frames may be added. -/
inductive Session (host : Host σ) : Machine σ → Prop
  | build {heap : Heap σ} (c : Config) : heap.Ordered → Session host (Machine.build heap c)
  | interpret (n : Nat) (text : String) {m : Machine σ} : Session host m →
    Session host (interpret host n text m).2
  | call (n : Nat) (callee : Value) (args : List Value) {m : Machine σ} : Session host m →
    Session host (stateAfter (callWithin host n callee args) m)
  | newList (items : List Value) {m : Machine σ} : Session host m →
    Session host (stateAfter (Machine.newList items : Eval σ Value) m)
  | supply {heap : Heap σ} {m : Machine σ} : heap.Ordered → m.heap.frames.Grows heap.frames →
    Session host m → Session host { m with heap := heap }

/-- Machines are tidy all the time. -/
theorem Session.tidy {host : Host σ} {m : Machine σ} (h : Session host m) : m.Tidy := by
  induction h with
  | build c hh => exact Machine.tidy_build hh c
  | @interpret n text m _ ih =>
    have entered : Machine.Tidy { m with env := m.root, depth := 0 } := ih.of_grows rfl (.refl _) ih.docs
    exact (Discipline.interpret_keeps (Discipline.lawful_tidy host) Discipline.portable_tidy trivial entered
      fun _ => stmtsObey_free _).1.1
  | call n callee args _ ih =>
    refine After.stateAfter ((Discipline.callsKeep_tidy host n callee args trivial (fun _ _ => trivial) _ ih).mono
      (fun _ _ h => h.1) fun _ _ h => h.1)
  | newList items _ ih => exact ((Discipline.lawful_tidy host).newList (fun _ _ => trivial) _ ih).1
  | supply hh hf _ ih => exact ih.of_grows rfl hf hh

end DocScript
