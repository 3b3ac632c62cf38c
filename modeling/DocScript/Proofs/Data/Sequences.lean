import DocScript.Host.Thermometer
import DocScript.Proofs.Data.Content
import DocScript.Proofs.Data.Keys
import DocScript.Proofs.Number.Counts
import DocScript.Proofs.Run.Lists
import DocScript.Proofs.Run.Tidy

/-!
# Lists as sequences

A list is a doc like any other, whose keys are the numbers from zero on. Below `2 ^ 53` these numbers are as many
keys, in the order of the counts (`Key.cmp_ofNat_lt`), and no other value is one of them (`Key.cmp_ofNat_eq_iff`). So
the doc that was made for the items `xs` behaves as the sequence `xs` (`Machine.get?_arrayDoc`,
`Machine.insert_arrayDoc_of_lt`, `Machine.push_arrayDoc`).

`ListRun` is what can be done with a list that leaves it one : pushing, reading, and writing at the index of an item or
right behind the last. The invariant of such a run is `Machine.HoldsList` : the doc is the one that a list of the items
would be if it were made now (`ListRun.holdsList`).

A push takes the number of entries for the next index, whatever the keys are. In a doc that was not used as a list this
number can be a key already, and then the value under it is replaced (`Doc.size_insert`, `Doc.gains_insert`).
-/

namespace DocScript

variable {σ : Type}

/-- The index that a value is, if it is one. -/
def Value.index? (key : Value) : Option Nat := key.num?.bind Machine.position?

theorem Value.index?_ofNat {i : Nat} (h : i < 2 ^ 53) : (num (Number.ofNat i)).index? = some i :=
  Machine.position?_ofNat h

/-! ## The keys of lists -/

namespace Key

variable {i j : Nat}

theorem cmp_num (x y : Float) : (num x).cmp (num y) = compare (Number.rank x) (Number.rank y) := by
  simp [cmp, compareLex, compareOn, sort, rank, text, identity]

theorem ofValue_ofNat (h : i < 2 ^ 53) : ofValue (.num (Number.ofNat i)) = num (Number.ofNat i) := by
  rw [ofValue, (Machine.position?_eq_some_iff h).1 (Machine.position?_ofNat h)]

/-- The keys of a list come in the order of the indices. -/
theorem cmp_ofNat_lt (h : i < j) (hj : j < 2 ^ 53) :
    (ofValue (.num (Number.ofNat i))).cmp (ofValue (.num (Number.ofNat j))) = .lt := by
  rw [ofValue_ofNat (h.trans hj), ofValue_ofNat hj, cmp_num, Std.compare_eq_lt]
  exact Number.rank_ofNat_lt h hj

/-- Only an index is the key of an item. -/
theorem cmp_ofNat_eq_iff {key : Value} (h : i < 2 ^ 53) :
    (ofValue key).cmp (ofValue (.num (Number.ofNat i))) = .eq ↔ key.index? = some i := by
  rw [ofValue_ofNat h]
  cases key with
  | num x =>
    rw [ofValue, cmp_num, Std.LawfulEqCmp.compare_eq_iff_eq, Value.index?, Value.num?, Option.bind_some,
      Machine.position?_eq_some_iff h]
    exact ⟨Number.eq_of_rank, congrArg _⟩
  | _ =>
    refine iff_of_false (fun he => ?_) (by simp [Value.index?, Value.num?])
    exact absurd (cmp_eq_eq.1 he).1 (by simp [ofValue, sort])

end Key

/-! ## Entries in order -/

namespace Doc

variable {k k' : Key} {v w : Value} {es : List (Key × Value)} {i : Nat}

/-- Under a key that no entry has nothing is found. -/
theorem getKey?_eq_none (h : ∀ e ∈ es, k.cmp e.1 ≠ .eq) : getKey? k es = none := by
  induction es with
  | nil => rfl
  | cons e es ih =>
    obtain ⟨he, hes⟩ := List.forall_mem_cons.1 h
    rw [getKey?, ih hes]
    cases hk : k.cmp e.1 with
    | eq => exact absurd hk he
    | lt | gt => rfl

/-- A lesser key is also less than one that compares equal to the greater. -/
theorem cmp_gt_of_lt {l : Key} (hk : k.cmp k' = .eq) (hl : l.cmp k' = .lt) : k.cmp l = .gt := by
  rw [Std.TransCmp.congr_left hk]
  exact Std.OrientedCmp.gt_iff_lt.2 hl

section Sorted

variable (hs : es.Pairwise fun e e' => e.1.cmp e'.1 = .lt) (hi : es[i]? = some (k', w)) (hk : k.cmp k' = .eq)

include hs hi hk

/-- The value of the entry that has the key is found. -/
theorem getKey?_of_getElem? : getKey? k es = some w := by
  induction es generalizing i with
  | nil => simp at hi
  | cons e es ih =>
    obtain ⟨hfirst, hrest⟩ := List.pairwise_cons.1 hs
    cases i with
    | zero =>
      obtain rfl : e = (k', w) := by simpa using hi
      simp [getKey?, hk]
    | succ i =>
      have hi' : es[i]? = some (k', w) := by simpa using hi
      have hgt : k.cmp e.1 = .gt := cmp_gt_of_lt hk (hfirst _ (List.mem_of_getElem? hi'))
      rw [getKey?, hgt]
      exact ih hrest hi'

/-- It is this value that is replaced. -/
theorem insertKey_of_getElem? (v : Value) : insertKey k v es = es.set i (k', v) := by
  induction es generalizing i with
  | nil => simp at hi
  | cons e es ih =>
    obtain ⟨hfirst, hrest⟩ := List.pairwise_cons.1 hs
    cases i with
    | zero =>
      obtain rfl : e = (k', w) := by simpa using hi
      simp [insertKey, hk]
    | succ i =>
      have hi' : es[i]? = some (k', w) := by simpa using hi
      have hgt : k.cmp e.1 = .gt := cmp_gt_of_lt hk (hfirst _ (List.mem_of_getElem? hi'))
      rw [insertKey, hgt, List.set_cons_succ, ← ih hrest hi']

end Sorted

end Doc

namespace Machine

open Doc

variable {p : DocId} {xs : List Value} {key v : Value} {i : Nat}

theorem getElem?_entriesOf_indexed (xs : List Value) (i : Nat) :
    (entriesOf (indexed xs))[i]? = xs[i]?.map fun v => (Key.ofValue (.num (Number.ofNat i)), v) := by
  simp [entriesOf, indexed, Function.comp_def]

theorem length_entriesOf_indexed (xs : List Value) : (entriesOf (indexed xs)).length = xs.length := by
  simp [entriesOf, indexed]

theorem sorted_indexed (h : xs.length ≤ 2 ^ 53) :
    (entriesOf (indexed xs)).Pairwise fun e e' => e.1.cmp e'.1 = .lt := by
  rw [List.pairwise_iff_getElem]
  intro i j hi hj hij
  rw [length_entriesOf_indexed] at hj
  simp only [entriesOf, indexed, List.getElem_map, List.getElem_zipIdx, Nat.zero_add]
  exact Key.cmp_ofNat_lt hij (by omega)

/-- The entries of a list. -/
theorem arrayDoc_eq (h : xs.length ≤ 2 ^ 53) :
    arrayDoc p xs = ⟨entriesOf (indexed xs), some (.doc p)⟩ :=
  insertMany_eq (indexed xs) (sorted_indexed h)

theorem size_arrayDoc (h : xs.length ≤ 2 ^ 53) : (arrayDoc p xs).size = xs.length := by
  rw [arrayDoc_eq h, size, length_entriesOf_indexed]

/-- The keys of a list are the indices, in order. -/
theorem toList_arrayDoc (h : xs.length ≤ 2 ^ 53) : (arrayDoc p xs).toList = indexed xs := by
  rw [arrayDoc_eq h, toList, entriesOf, List.map_map]
  refine (List.map_congr_left fun kv hkv => ?_).trans (List.map_id _)
  obtain ⟨⟨v, i⟩, hi, rfl⟩ := List.mem_map.1 hkv
  have hlt : i < 2 ^ 53 := Nat.lt_of_lt_of_le (List.snd_lt_of_mem_zipIdx hi) h
  simp [Key.ofValue_ofNat hlt, Key.toValue]

/-- Under an index there is the item, and under all other keys nothing. -/
theorem get?_arrayDoc (h : xs.length ≤ 2 ^ 53) : (arrayDoc p xs).get? key = key.index?.bind (xs[·]?) := by
  rw [arrayDoc_eq h, get?]
  cases hx : key.index?.bind (xs[·]?) with
  | some v =>
    obtain ⟨i, hkey, hi⟩ := Option.bind_eq_some_iff.1 hx
    have hlt : i < 2 ^ 53 := Nat.lt_of_lt_of_le (List.getElem?_eq_some_iff.1 hi).1 h
    have hget : (entriesOf (indexed xs))[i]? = some (Key.ofValue (.num (Number.ofNat i)), v) := by
      rw [getElem?_entriesOf_indexed, hi]
      rfl
    exact getKey?_of_getElem? (sorted_indexed h) hget ((Key.cmp_ofNat_eq_iff hlt).2 hkey)
  | none =>
    refine getKey?_eq_none fun e he hk => ?_
    obtain ⟨i, hi⟩ := List.mem_iff_getElem?.1 he
    rw [getElem?_entriesOf_indexed] at hi
    obtain ⟨v, hv, rfl⟩ := Option.map_eq_some_iff.1 hi
    have hlt : i < 2 ^ 53 := Nat.lt_of_lt_of_le (List.getElem?_eq_some_iff.1 hv).1 h
    rw [(Key.cmp_ofNat_eq_iff hlt).1 hk, Option.bind_some, hv] at hx
    contradiction

/-- A write under the index of an item replaces it. -/
theorem insert_arrayDoc_of_lt (h : xs.length ≤ 2 ^ 53) (hkey : key.index? = some i) (hi : i < xs.length) :
    (arrayDoc p xs).insert key v = arrayDoc p (xs.set i v) := by
  have hget : (entriesOf (indexed xs))[i]? = some (Key.ofValue (.num (Number.ofNat i)), xs[i]) := by
    rw [getElem?_entriesOf_indexed, List.getElem?_eq_getElem hi]
    rfl
  have hinsert := insertKey_of_getElem? (sorted_indexed h) hget
    ((Key.cmp_ofNat_eq_iff (Nat.lt_of_lt_of_le hi h)).2 hkey) v
  rw [arrayDoc_eq h, arrayDoc_eq (by rwa [List.length_set]), Doc.insert, hinsert, Doc.mk.injEq]
  refine ⟨List.ext_getElem? fun j => ?_, rfl⟩
  rw [List.getElem?_set, getElem?_entriesOf_indexed, getElem?_entriesOf_indexed, length_entriesOf_indexed,
    List.getElem?_set]
  split <;> simp_all

/-- A write under the index behind the last item is appended. -/
theorem insert_arrayDoc_end (h : xs.length < 2 ^ 53) (hkey : key.index? = some xs.length) :
    (arrayDoc p xs).insert key v = arrayDoc p (xs ++ [v]) := by
  have hkey : Key.ofValue key = Key.ofValue (.num (Number.ofNat xs.length)) := by
    obtain ⟨x, hx, hpos⟩ := Option.bind_eq_some_iff.1 hkey
    obtain rfl : key = .num x := by
      cases key <;> simp_all [Value.num?]
    rw [Key.ofValue_ofNat h, Key.ofValue, (position?_eq_some_iff h).1 hpos]
  have hbehind : ∀ e ∈ entriesOf (indexed xs), e.1.cmp (Key.ofValue key) = .lt := by
    intro e he
    obtain ⟨i, hi⟩ := List.mem_iff_getElem?.1 he
    rw [getElem?_entriesOf_indexed] at hi
    obtain ⟨w, hw, rfl⟩ := Option.map_eq_some_iff.1 hi
    rw [hkey]
    exact Key.cmp_ofNat_lt (List.getElem?_eq_some_iff.1 hw).1 h
  have hlast : entriesOf (indexed (xs ++ [v])) =
      entriesOf (indexed xs) ++ [(Key.ofValue (.num (Number.ofNat xs.length)), v)] := by
    simp [entriesOf, indexed, List.zipIdx_append]
  rw [arrayDoc_eq h.le, arrayDoc_eq (by simpa using h), Doc.insert, insertKey_eq_concat hbehind, hkey, hlast]

theorem push_arrayDoc (h : xs.length < 2 ^ 53) (v : Value) : (arrayDoc p xs).push v = arrayDoc p (xs ++ [v]) := by
  rw [push, nextIndex, size_arrayDoc h.le]
  exact insert_arrayDoc_end h (Value.index?_ofNat h)

end Machine

/-! ## Runs -/

/-- A call of the native `push` that puts `v` into the doc `id` : of the native itself, or as a method of the doc. -/
inductive PushCall (id : DocId) (v : Value) : (callee : Value) → (args : List Value) → Prop
  | native (n : Nat) : PushCall id v (.native n .push) [.doc id, v]
  | method (n n' : Nat) : PushCall id v (.method n (.doc id) (.native n' .push)) [v]

/-- The doc `id` was made as a list, and since then it was used as one; the items are now `xs`. What else is done on the
machine does not change the doc. -/
inductive ListRun (host : Host σ) (id : DocId) : Machine σ → List Value → Prop
  | newList {m : Machine σ} (items : List Value) (h : m.heap.docs.size = id) :
    ListRun host id (stateAfter (Machine.newList items : Eval σ Value) m) items
  | argv {heap : Heap σ} {c : Config} {args : List String} (h : c.argv = some args) (hid : heap.docs.size + 1 = id) :
    ListRun host id (Machine.build heap c) (args.map .str)
  | push {m : Machine σ} {xs : List Value} {callee v : Value} {args : List Value} (n : Nat)
    (h : PushCall id v callee args) : ListRun host id m xs →
    ListRun host id (stateAfter (callWithin host (n + 1) callee args) m) (xs ++ [v])
  | read {m : Machine σ} {xs : List Value} (key : Value) : ListRun host id m xs →
    ListRun host id (stateAfter (Machine.index host (.doc id) key) m) xs
  | write {m : Machine σ} {xs : List Value} {key : Value} {i : Nat} (v : Value) (h : key.index? = some i)
    (hi : i < xs.length) : ListRun host id m xs →
    ListRun host id (stateAfter (Machine.setIndex host (.doc id) key v) m) (xs.set i v)
  | append {m : Machine σ} {xs : List Value} {key : Value} (v : Value) (h : key.index? = some xs.length) :
    ListRun host id m xs → ListRun host id (stateAfter (Machine.setIndex host (.doc id) key v) m) (xs ++ [v])
  | other {m m' : Machine σ} {xs : List Value} (hd : m'.doc? id = m.doc? id) (hp : m'.arrayProto = m.arrayProto) :
    ListRun host id m xs → ListRun host id m' xs

namespace Machine

variable {host : Host σ} {m : Machine σ} {id : DocId} {d : Doc} {xs : List Value}

/-- The machine with a doc changed. -/
def withDoc (m : Machine σ) (id : DocId) (f : Doc → Doc) : Machine σ :=
  { m with heap := { m.heap with docs := m.heap.docs.modify id f } }

theorem doc?_withDoc (h : m.doc? id = some d) (f : Doc → Doc) : (m.withDoc id f).doc? id = some (f d) := by
  have h : m.heap.docs[id]? = some d := h
  simp [withDoc, doc?, Array.getElem?_modify, h]

theorem setIndex_doc (key v : Value) : setIndex host (.doc id) key v m = .ok () (m.withDoc id (·.insert key v)) := rfl

/-- The doc `id` is what a list of `xs` would be if it were made now. -/
def HoldsList (m : Machine σ) (id : DocId) (xs : List Value) : Prop := m.doc? id = some (arrayDoc m.arrayProto xs)

/-- A change of a list that leaves it one. -/
theorem HoldsList.withDoc {f : Doc → Doc} {ys : List Value} (h : m.HoldsList id xs)
    (hf : f (arrayDoc m.arrayProto xs) = arrayDoc m.arrayProto ys) : (m.withDoc id f).HoldsList id ys := by
  rw [HoldsList, doc?_withDoc h, hf]
  rfl

end Machine

open Machine in
theorem PushCall.call {host : Host σ} {m : Machine σ} {id : DocId} {callee v : Value} {args : List Value}
    (h : PushCall id v callee args) (n : Nat) :
    callWithin host (n + 1) callee args m = .ok [.none] (m.withDoc id (·.push v)) := by
  cases h <;> rfl

/-- Whatever is done with a list, the doc stays the list of the items. -/
theorem ListRun.holdsList {host : Host σ} {m : Machine σ} {id : DocId} {xs : List Value} (h : ListRun host id m xs)
    (hlen : xs.length < 2 ^ 53) : m.HoldsList id xs := by
  induction h with
  | newList items h =>
    subst h
    exact Array.getElem?_push_size
  | @argv heap c args h hid =>
    subst hid
    simp [Machine.HoldsList, Machine.build, Machine.doc?, h, Array.getElem_push]
  | @push m xs callee v args n h _ ih =>
    rw [List.length_append, List.length_singleton] at hlen
    rw [stateAfter_of_ok (h.call n)]
    exact (ih (by omega)).withDoc (Machine.push_arrayDoc (by omega) v)
  | read key _ ih => exact ih hlen
  | @write m xs key i v h hi _ ih =>
    rw [List.length_set] at hlen
    rw [stateAfter_of_ok (Machine.setIndex_doc key v)]
    exact (ih hlen).withDoc (Machine.insert_arrayDoc_of_lt hlen.le h hi)
  | @append m xs key v h _ ih =>
    rw [List.length_append, List.length_singleton] at hlen
    rw [stateAfter_of_ok (Machine.setIndex_doc key v)]
    exact (ih (by omega)).withDoc (Machine.insert_arrayDoc_end (by omega) h)
  | other hd hp _ ih => rw [Machine.HoldsList, hd, hp, ih hlen]

/-! ## What a list shows -/

namespace Machine

/-- Reading the doc `id` gives the items `xs` under their indices, and None under every other key. -/
def ReadsAs (host : Host σ) (m : Machine σ) (id : DocId) (xs : List Value) : Prop :=
  ∀ key, index host (.doc id) key m = .ok ((key.index?.bind (xs[·]?)).getD .none) m

/-- What a `for` loop goes through in a list. -/
def enumerated (xs : List Value) : List (Value × Value) := xs.zipIdx.map fun (v, i) => (v, .num (Number.ofNat i))

/-- The doc `id` behaves as the sequence `xs`. -/
structure ActsAs (host : Host σ) (m : Machine σ) (id : DocId) (xs : List Value) : Prop where
  /-- The keys are the indices. -/
  keys : ∃ d, m.doc? id = some d ∧ d.toList.map Prod.fst = (List.range xs.length).map fun i => .num (Number.ofNat i)
  len (n n' : Nat) : callWithin host (n + 1) (.native n' .len) [.doc id] m = .ok [.num (Number.ofNat xs.length)] m
  reads : ReadsAs host m id xs
  /-- A push appends, and other docs are as before. -/
  push {callee v : Value} {args : List Value} (n : Nat) : PushCall id v callee args →
    ∃ m', callWithin host (n + 1) callee args m = .ok [.none] m' ∧ ReadsAs host m' id (xs ++ [v]) ∧
      ∀ j ≠ id, m'.doc? j = m.doc? j
  /-- A write under the index of an item replaces it. -/
  write {key : Value} {i : Nat} (v : Value) : key.index? = some i → i < xs.length →
    ∃ m', setIndex host (.doc id) key v m = .ok () m' ∧ ReadsAs host m' id (xs.set i v) ∧
      ∀ j ≠ id, m'.doc? j = m.doc? j
  /-- A write behind the last item appends. -/
  append {key : Value} (v : Value) : key.index? = some xs.length →
    ∃ m', setIndex host (.doc id) key v m = .ok () m' ∧ ReadsAs host m' id (xs ++ [v]) ∧
      ∀ j ≠ id, m'.doc? j = m.doc? j
  loop (k : Calls σ) (vars : List Variable) {e : Expr Unit} (body : Block Unit) {m₀ : Machine σ} :
    k.eval e m₀ = .ok (.doc id) m →
    k.exec (.forLoop () vars e body) m₀ = Exec.forLoop vars (k.execBlock body) (enumerated xs) m
  display : m.display (.doc id) =
    "[" ++ String.intercalate ", " (xs.map (m.render m.heap.docs.size [id])) ++ "]"

variable {host : Host σ} {m : Machine σ} {id : DocId} {xs : List Value}

theorem HoldsList.readsAs (h : m.HoldsList id xs) (hlen : xs.length ≤ 2 ^ 53) : ReadsAs host m id xs := by
  intro key
  rw [index, h, Option.bind_some, get?_arrayDoc hlen]

/-- What is read behind a change of a list that leaves it one. -/
theorem HoldsList.readsAs_withDoc {f : Doc → Doc} {ys : List Value} (h : m.HoldsList id xs)
    (hf : f (arrayDoc m.arrayProto xs) = arrayDoc m.arrayProto ys) (hlen : ys.length ≤ 2 ^ 53) :
    ReadsAs host (m.withDoc id f) id ys ∧ ∀ j ≠ id, (m.withDoc id f).doc? j = m.doc? j :=
  ⟨(h.withDoc hf).readsAs hlen, fun _ hj => doc?_modify hj.symm f⟩

theorem keys_arrayDoc {p : DocId} (h : xs.length ≤ 2 ^ 53) : (arrayDoc p xs).toList.map Prod.fst =
    (List.range xs.length).map fun i => .num (Number.ofNat i) := by
  calc (arrayDoc p xs).toList.map Prod.fst = (xs.zipIdx.map Prod.snd).map fun i => Value.num (Number.ofNat i) := by
        rw [toList_arrayDoc h, indexed, List.map_map, List.map_map]
        rfl
    _ = _ := by rw [List.zipIdx_map_snd, ← List.range_eq_range']

theorem HoldsList.pairs (h : m.HoldsList id xs) (hlen : xs.length ≤ 2 ^ 53) :
    pairs (.doc id) m = .ok (enumerated xs) m := by
  rw [HoldsList] at h
  simp only [Machine.pairs, h, Option.getD_some, m.isArray_arrayDoc xs, if_true, toList_arrayDoc hlen, indexed, List.map_map]
  rfl

theorem HoldsList.display (h : m.HoldsList id xs) (hlen : xs.length ≤ 2 ^ 53) :
    m.display (.doc id) = "[" ++ String.intercalate ", " (xs.map (m.render m.heap.docs.size [id])) ++ "]" := by
  have hdisplay : m.display (.doc id) = m.render (m.heap.docs.size + 1) [] (.doc id) := rfl
  rw [hdisplay, render_doc (by simp) h, renderDoc, if_pos (m.isArray_arrayDoc xs), renderArray, toList_arrayDoc hlen,
    indexed, List.map_map]
  refine congrArg (fun items => "[" ++ String.intercalate ", " items ++ "]") ?_
  conv_rhs => rw [← List.zipIdx_map_fst 0 xs, List.map_map]
  rfl

end Machine

/-- Whatever was done with a list, as long as it was used as one, the doc behaves as the sequence of its items. -/
theorem ListRun.actsAs {host : Host σ} {m : Machine σ} {id : DocId} {xs : List Value} (h : ListRun host id m xs)
    (hlen : xs.length < 2 ^ 53) : m.ActsAs host id xs where
  keys := ⟨_, h.holdsList hlen, Machine.keys_arrayDoc hlen.le⟩
  len n n' := by
    have hcall : callWithin host (n + 1) (.native n' .len) [.doc id] m =
        .ok [.num (Number.ofNat (((m.doc? id).map Doc.size).getD 0))] m := rfl
    rw [hcall, h.holdsList hlen, Option.map_some, Option.getD_some, Machine.size_arrayDoc hlen.le]
  reads := (h.holdsList hlen).readsAs hlen.le
  push n hp := ⟨_, hp.call n,
    (h.holdsList hlen).readsAs_withDoc (Machine.push_arrayDoc hlen _) (by simpa using hlen)⟩
  write v hkey hi := ⟨_, Machine.setIndex_doc _ v,
    (h.holdsList hlen).readsAs_withDoc (Machine.insert_arrayDoc_of_lt hlen.le hkey hi) (by simpa using hlen.le)⟩
  append v hkey := ⟨_, Machine.setIndex_doc _ v,
    (h.holdsList hlen).readsAs_withDoc (Machine.insert_arrayDoc_end hlen hkey) (by simpa using hlen)⟩
  loop k vars e body m₀ he := by
    simp [Calls.exec, bind, EStateM.bind, Exec.lift, he, (h.holdsList hlen).pairs hlen.le]
  display := (h.holdsList hlen).display hlen.le

/-- The arguments of a script, one of them overwritten, and two items more, one by writing behind the last. -/
theorem ListRun.actsAs_argv :
    let start : Machine Thermometer := .build .empty { Config.default with argv := some ["x", "y"] }
    let written := stateAfter (Machine.setIndex Thermometer.host (.doc 1) (.num (Number.ofNat 0)) (.str "a")) start
    let appended := stateAfter (Machine.setIndex Thermometer.host (.doc 1) (.num (Number.ofNat 2)) (.doc 1)) written
    let m := stateAfter (callWithin Thermometer.host 1 (.method 0 (.doc 1) (.native 0 .push)) [.none]) appended
    let xs := [.str "a", .str "y", .doc 1, .none]
    ListRun Thermometer.host 1 m xs ∧ xs.length < 2 ^ 53 ∧ m.ActsAs Thermometer.host 1 xs := by
  intro start written appended m xs
  have hstart : ListRun Thermometer.host 1 start [.str "x", .str "y"] :=
    .argv (c := { Config.default with argv := some ["x", "y"] }) rfl (by rfl)
  have hwritten : ListRun Thermometer.host 1 written [.str "a", .str "y"] :=
    .write _ (Value.index?_ofNat (i := 0) (by decide)) (by decide) hstart
  have happended : ListRun Thermometer.host 1 appended [.str "a", .str "y", .doc 1] :=
    .append _ (Value.index?_ofNat (i := 2) (by decide)) hwritten
  have hrun : ListRun Thermometer.host 1 m xs := .push 0 (.method 0 0) happended
  have hlen : xs.length < 2 ^ 53 := by decide
  exact ⟨hrun, hlen, hrun.actsAs hlen⟩

/-! ## Pushing onto any doc -/

namespace Doc

variable {k : Key} {es : List (Key × Value)}

theorem length_insertKey_eq (v : Value) :
    (insertKey k v es).length = if (getKey? k es).isSome then es.length else es.length + 1 := by
  induction es with
  | nil => rfl
  | cons e es ih =>
    obtain ⟨k', w⟩ := e
    rw [insertKey, getKey?]
    cases k.cmp k' with
    | lt | eq => rfl
    | gt =>
      simp only [List.length_cons, ih]
      split <;> rfl

theorem size_insert (d : Doc) (key v : Value) :
    (d.insert key v).size = if (d.get? key).isSome then d.size else d.size + 1 :=
  length_insertKey_eq v

/-- Nothing of `d` is lost in `d'`, and there is one entry more, which holds `v`. -/
structure Gains (d d' : Doc) (v : Value) : Prop where
  kept {key w : Value} : d.get? key = some w → d'.get? key = some w
  size : d'.size = d.size + 1
  holds : ∃ key, d.get? key = none ∧ d'.get? key = some v

/-- A key that is not in use can be added. -/
theorem gains_insert {d : Doc} {key : Value} (h : d.get? key = none) (v : Value) : d.Gains (d.insert key v) v where
  kept {l w} hw := by
    have hne : (Key.ofValue key).cmp (.ofValue l) ≠ .eq := by
      intro hk
      rw [get?, ← getKey?_congr hk] at hw
      exact absurd (h.symm.trans hw) (by simp)
    exact (getKey?_insertKey_of_ne hne).trans hw
  size := by simp [size_insert, h]
  holds := ⟨key, h, d.get?_insert_self key v⟩

end Doc

/-- A push puts the value under the number of entries, and changes nothing else. It is a gain exactly if this number was
not in use as a key; if it was, the value that was there is replaced. -/
theorem PushCall.gains_iff {host : Host σ} {m : Machine σ} {id : DocId} {d : Doc} {callee v : Value} {args : List Value}
    (h : PushCall id v callee args) (hd : m.doc? id = some d) (n : Nat) :
    ∃ m' d', callWithin host (n + 1) callee args m = .ok [.none] m' ∧ m'.doc? id = some d' ∧
      (∀ j ≠ id, m'.doc? j = m.doc? j) ∧ d'.proto = d.proto ∧ d'.get? d.nextIndex = some v ∧
      (∀ key, (Key.ofValue d.nextIndex).cmp (.ofValue key) ≠ .eq → d'.get? key = d.get? key) ∧
      (d.Gains d' v ↔ d.get? d.nextIndex = none) ∧ (d.get? d.nextIndex ≠ none → d'.size = d.size) := by
  have hsize (hused : d.get? d.nextIndex ≠ none) : (d.push v).size = d.size := by
    rw [Doc.push, Doc.size_insert, if_pos (Option.isSome_iff_ne_none.2 hused)]
  refine ⟨_, d.push v, h.call n, Machine.doc?_withDoc hd _, fun j hj => Machine.doc?_modify hj.symm _, rfl,
    d.get?_insert_self _ v, fun key hk => Doc.getKey?_insertKey_of_ne hk, ⟨fun hgain => ?_, fun hfree => ?_⟩, hsize⟩
  · by_contra hused
    have hgrown := hgain.size
    rw [hsize hused] at hgrown
    omega
  · exact Doc.gains_insert hfree v

/-- A list that was also written to under a string still gains what is pushed. -/
theorem PushCall.gains_iff_text_key :
    let start : Machine Thermometer := stateAfter (Machine.newList [.str "a"]) (.build .empty .default)
    let m := stateAfter (Machine.setIndex Thermometer.host (.doc 1) (.str "name") (.str "b")) start
    ∃ d, m.doc? 1 = some d ∧ d.get? d.nextIndex = none ∧
      ∃ m' d', callWithin Thermometer.host 1 (.method 0 (.doc 1) (.native 0 .push)) [.str "c"] m = .ok [.none] m' ∧
        m'.doc? 1 = some d' ∧ d.Gains d' (.str "c") := by
  intro start m
  let d := (Machine.arrayDoc 0 [.str "a"]).insert (.str "name") (.str "b")
  have hd : m.doc? 1 = some d := rfl
  have hfree : d.get? d.nextIndex = none := by decide +kernel
  obtain ⟨m', d', hcall, hd', -, -, -, -, hgains, -⟩ := PushCall.gains_iff (.method 0 0) hd 0
  exact ⟨d, hd, hfree, m', d', hcall, hd', hgains.2 hfree⟩

/-- What was written under the index `1` of an empty list is lost with the next push. -/
theorem PushCall.loses_entry :
    let start : Machine Thermometer := stateAfter (Machine.newList []) (.build .empty .default)
    let m := stateAfter (Machine.setIndex Thermometer.host (.doc 1) (.num 1) (.str "a")) start
    ∃ d m' d', m.doc? 1 = some d ∧ d.get? (.num 1) = some (.str "a") ∧
      callWithin Thermometer.host 1 (.method 0 (.doc 1) (.native 0 .push)) [.str "b"] m = .ok [.none] m' ∧
      m'.doc? 1 = some d' ∧ d'.get? (.num 1) = some (.str "b") ∧ d'.size = 1 ∧ ¬ d.Gains d' (.str "b") := by
  intro start m
  have hone : Number.ofNat 1 = 1 := by decide +kernel
  let d := (Machine.arrayDoc 0 []).insert (.num 1) (.str "a")
  have hlost : (d.push (.str "b")).get? (.num 1) = some (.str "b") := by
    rw [← hone]
    exact Doc.get?_insert_self ..
  refine ⟨d, _, d.push (.str "b"), rfl, Doc.get?_insert_self .., rfl, rfl, hlost, by decide +kernel, fun hgain => ?_⟩
  have hkept := hgain.kept (Doc.get?_insert_self _ (.num 1) (.str "a"))
  rw [hlost] at hkept
  simp at hkept

end DocScript
