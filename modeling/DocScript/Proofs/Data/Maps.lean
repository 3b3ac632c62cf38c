import DocScript.Proofs.Data.Sequences
import DocScript.Proofs.Number.Order
import DocScript.Proofs.Text.Bytes

/-!
# Docs as ordered maps

`Value.Before` and `Value.SameKey` describe the order of keys in terms of the values : by sorts, then numbers by `<`,
strings by their bytes, and everything else by identity. Keys are compared in this order (`Key.cmp_ofValue_lt`,
`Key.cmp_ofValue_eq`), so it is total (`Value.totalKeyOrder`).

If `kvs` are put into a new doc one after the other, `lastUnder` says what should be found under each key, and
`keyCount` how many keys there are. The doc is this map (`Doc.isMapOf_insertMany`). Entries that are in order are
determined by what is found under each key (`Doc.entries_agree`), so they do not show in which order they were made
(`Doc.insertMany_eq_of_lastUnder`).
-/

namespace DocScript

variable {σ : Type}

/-! ## The order of keys -/

namespace Value

/-- The place of the sort of key that a value is : None, booleans, numbers, strings, and what has an identity. -/
def keySort : Value → Nat
  | none => 0
  | bool _ => 1
  | num _ => 2
  | str _ => 3
  | _ => 4

/-- Both values are the same key. -/
def SameKey : Value → Value → Prop
  | none, none => True
  | bool a, bool b => a = b
  | num x, num y => x = y ∨ (x == 0) = true ∧ (y == 0) = true
  | str s, str t => s = t
  | a, b => a.keySort = 4 ∧ b.keySort = 4 ∧ a.identity = b.identity

/-- Of two keys of one sort, the first one comes before the other. -/
def BeforeInSort : Value → Value → Prop
  | bool a, bool b => a = false ∧ b = true
  | num x, num y => x < y ∨ x.isNaN = false ∧ y.isNaN = true
  | str s, str t => bytes s < bytes t
  | a, b => a.identity.1 < b.identity.1 ∨ a.identity.1 = b.identity.1 ∧ a.identity.2 < b.identity.2

/-- The first key comes before the other. -/
def Before (a b : Value) : Prop := a.keySort < b.keySort ∨ a.keySort = b.keySort ∧ a.BeforeInSort b

/-- Two keys of one sort. -/
inductive Alike : Value → Value → Prop
  | none : Alike none none
  | bool (a b : Bool) : Alike (bool a) (bool b)
  | num (x y : Float) : Alike (num x) (num y)
  | str (s t : String) : Alike (str s) (str t)
  | ref {a b : Value} (ha : a.keySort = 4) (hb : b.keySort = 4) : Alike a b

theorem alike_of_keySort {a b : Value} (h : a.keySort = b.keySort) : Alike a b := by
  cases a <;> cases b <;> simp only [keySort, Nat.reduceEqDiff, reduceCtorEq] at h
  case none.none => exact .none
  case bool.bool => exact .bool ..
  case num.num => exact .num ..
  case str.str => exact .str ..
  all_goals exact .ref rfl rfl

theorem sameKey_of_ref {a b : Value} (ha : a.keySort = 4) (hb : b.keySort = 4) :
    a.SameKey b ↔ a.identity = b.identity := by
  cases a <;> simp only [keySort, Nat.reduceEqDiff, reduceCtorEq] at ha
  all_goals exact ⟨fun h => h.2.2, fun h => ⟨rfl, hb, h⟩⟩

theorem beforeInSort_of_ref {a b : Value} (ha : a.keySort = 4) : a.BeforeInSort b ↔
    a.identity.1 < b.identity.1 ∨ a.identity.1 = b.identity.1 ∧ a.identity.2 < b.identity.2 := by
  cases a <;> simp only [keySort, Nat.reduceEqDiff, reduceCtorEq] at ha
  all_goals rfl

/-- Only keys of one sort are the same. -/
theorem SameKey.keySort_eq {a b : Value} (h : a.SameKey b) : a.keySort = b.keySort := by
  cases a <;> cases b <;> simp_all [SameKey, keySort]

end Value

namespace Key

theorem cmp_eq_lt {k l : Key} : k.cmp l = .lt ↔
    k.sort < l.sort ∨ k.sort = l.sort ∧ (k.rank < l.rank ∨ k.rank = l.rank ∧ (k.text < l.text ∨ k.text = l.text ∧
      (k.identity.1 < l.identity.1 ∨ k.identity.1 = l.identity.1 ∧ k.identity.2 < l.identity.2))) := by
  have htext : compare k.text l.text = .lt ↔ k.text < l.text := compareOfLessAndEq_eq_lt
  simp only [cmp, compareLex, compareOn, Ordering.then_eq_lt, Std.compare_eq_lt, htext,
    Std.LawfulEqCmp.compare_eq_iff_eq]

theorem sort_ofValue (a : Value) : (ofValue a).sort = a.keySort := by
  cases a <;> rfl

/-- What has an identity is a key by itself. -/
theorem ofValue_of_ref {a : Value} (h : a.keySort = 4) : ofValue a = ref a := by
  cases a <;> simp only [Value.keySort, Nat.reduceEqDiff, reduceCtorEq] at h
  all_goals rfl

/-- Keys are in the order that is described. -/
theorem cmp_ofValue_lt {a b : Value} : (ofValue a).cmp (ofValue b) = .lt ↔ a.Before b := by
  rw [cmp_eq_lt, sort_ofValue, sort_ofValue, Value.Before]
  refine or_congr_right (and_congr_right fun hsort => ?_)
  cases Value.alike_of_keySort hsort with
  | none => simp [Value.BeforeInSort]
  | bool a b => cases a <;> cases b <;> simp [Value.BeforeInSort, ofValue, rank, text, identity]
  | num x y => simp [Value.BeforeInSort, ofValue, rank, text, identity, Number.rank_lt_iff]
  | str s t => simp [Value.BeforeInSort, ofValue, rank, text, identity, bytes_lt_iff]
  | ref ha hb => simp [Value.beforeInSort_of_ref ha, ofValue_of_ref ha, ofValue_of_ref hb, rank, text, identity]

/-- Numbers make the same key if they are the same, or both are zeros. -/
theorem normal_eq_iff {x y : Float} :
    (if x == 0 then 0 else x) = (if y == 0 then 0 else y) ↔ x = y ∨ (x == 0) = true ∧ (y == 0) = true := by
  have hzero : ((0 : Float) == 0) = true := by decide +kernel
  constructor
  · intro h
    by_cases hx : (x == 0) = true <;> by_cases hy : (y == 0) = true
    · exact .inr ⟨hx, hy⟩
    · rw [if_pos hx, if_neg hy] at h
      exact absurd (h ▸ hzero) hy
    · rw [if_neg hx, if_pos hy] at h
      exact absurd (h ▸ hzero) hx
    · rw [if_neg hx, if_neg hy] at h
      exact .inl h
  · rintro (rfl | ⟨hx, hy⟩)
    · rfl
    · rw [if_pos hx, if_pos hy]

/-- Keys that compare equal are the same key. -/
theorem cmp_ofValue_eq {a b : Value} : (ofValue a).cmp (ofValue b) = .eq ↔ a.SameKey b := by
  rw [cmp_eq_eq, sort_ofValue, sort_ofValue]
  by_cases hsort : a.keySort = b.keySort
  · rw [and_iff_right hsort]
    cases Value.alike_of_keySort hsort with
    | none => simp [Value.SameKey]
    | bool a b => cases a <;> cases b <;> simp [Value.SameKey, ofValue, rank, text, identity]
    | num x y =>
      simp only [Value.SameKey, ofValue, rank, text, identity, and_self, and_true]
      exact ⟨fun h => normal_eq_iff.1 (Number.eq_of_rank h), fun h => congrArg _ (normal_eq_iff.2 h)⟩
    | str s t => simp [Value.SameKey, ofValue, rank, text, identity]
    | ref ha hb => simp [Value.sameKey_of_ref ha hb, ofValue_of_ref ha, ofValue_of_ref hb, rank, text, identity]
  · exact iff_of_false (fun h => hsort h.1) fun h => hsort h.keySort_eq

end Key

namespace Value

variable {a b c : Value}

instance : DecidableRel SameKey := fun _ _ => decidable_of_iff _ Key.cmp_ofValue_eq

/-- A strict order of keys that is total, where keys that are the same take one place. -/
structure TotalKeyOrder (same before : Value → Value → Prop) : Prop where
  equivalence : Equivalence same
  irrefl {a b : Value} : same a b → ¬before a b
  trans {a b c : Value} : before a b → before b c → before a c
  total (a b : Value) : before a b ∨ same a b ∨ before b a

theorem totalKeyOrder : TotalKeyOrder SameKey Before where
  equivalence := {
    refl := fun a => Key.cmp_ofValue_eq.1 Std.ReflCmp.compare_self
    symm := fun h => Key.cmp_ofValue_eq.1 (Std.OrientedCmp.eq_symm (Key.cmp_ofValue_eq.2 h))
    trans := fun h h' => Key.cmp_ofValue_eq.1 (Std.TransCmp.eq_trans (Key.cmp_ofValue_eq.2 h) (Key.cmp_ofValue_eq.2 h')) }
  irrefl h h' := by
    rw [← Key.cmp_ofValue_eq] at h
    rw [← Key.cmp_ofValue_lt, h] at h'
    contradiction
  trans h h' := Key.cmp_ofValue_lt.1 (Std.TransCmp.lt_trans (Key.cmp_ofValue_lt.2 h) (Key.cmp_ofValue_lt.2 h'))
  total a b := by
    cases h : (Key.ofValue a).cmp (Key.ofValue b) with
    | lt => exact .inl (Key.cmp_ofValue_lt.1 h)
    | eq => exact .inr (.inl (Key.cmp_ofValue_eq.1 h))
    | gt => exact .inr (.inr (Key.cmp_ofValue_lt.1 (Std.OrientedCmp.gt_iff_lt.1 h)))

/-- Values as keys : those that are the same key are one. -/
def keySetoid : Setoid Value := ⟨SameKey, totalKeyOrder.equivalence⟩

instance : DecidableEq (Quotient keySetoid) :=
  @Quotient.decidableEq Value keySetoid fun a b => inferInstanceAs (Decidable (a.SameKey b))

theorem mk_eq_mk : Quotient.mk keySetoid a = Quotient.mk keySetoid b ↔ a.SameKey b :=
  ⟨Quotient.exact, fun h => Quotient.sound h⟩

end Value

/-! ## What was put in -/

/-- The value that came last under the key `key`. -/
def lastUnder (key : Value) (kvs : List (Value × Value)) : Option Value :=
  (kvs.reverse.find? fun kv => kv.1.SameKey key).map Prod.snd

/-- How many different keys there are. -/
def keyCount (kvs : List (Value × Value)) : Nat :=
  (kvs.map fun kv => Quotient.mk Value.keySetoid kv.1).dedup.length

theorem lastUnder_cons (key : Value) (kv : Value × Value) (kvs : List (Value × Value)) :
    lastUnder key (kv :: kvs) = (lastUnder key kvs).or (if kv.1.SameKey key then some kv.2 else none) := by
  simp only [lastUnder, List.reverse_cons, List.find?_append, Option.map_or]
  congr 1
  by_cases h : kv.1.SameKey key <;> simp [h]

/-- Something came under a key if one of the keys is the same. -/
theorem isSome_lastUnder {key : Value} {kvs : List (Value × Value)} :
    (lastUnder key kvs).isSome = true ↔ ∃ kv ∈ kvs, kv.1.SameKey key := by
  simp [lastUnder]

namespace Doc

variable {d d' : Doc} {kvs kvs' : List (Value × Value)} {key v : Value} {proto : Option Value}

theorem get?_insert (d : Doc) (a key v : Value) :
    (d.insert a v).get? key = if a.SameKey key then some v else d.get? key := by
  by_cases h : a.SameKey key
  · rw [if_pos h, get?, ← getKey?_congr (Key.cmp_ofValue_eq.2 h)]
    exact get?_insert_self d a v
  · rw [if_neg h]
    exact getKey?_insertKey_of_ne fun hk => h (Key.cmp_ofValue_eq.1 hk)

/-- Under each key there is what came last, or what was there before. -/
theorem get?_insertMany (d : Doc) (kvs : List (Value × Value)) (key : Value) :
    (d.insertMany kvs).get? key = (lastUnder key kvs).or (d.get? key) := by
  induction kvs generalizing d with
  | nil => rfl
  | cons kv kvs ih =>
    have hcons : d.insertMany (kv :: kvs) = (d.insert kv.1 kv.2).insertMany kvs := rfl
    rw [hcons, ih, get?_insert, lastUnder_cons, Option.or_assoc]
    split <;> rfl

/-! ## Entries -/

theorem Ordered.ofValue_toValue {e : Key × Value} (h : d.Ordered) (he : e ∈ d.entries) :
    Key.ofValue e.1.toValue = e.1 :=
  h.normal e he

theorem Ordered.get?_of_mem {kv : Value × Value} (h : d.Ordered) (hkv : kv ∈ d.toList) : d.get? kv.1 = some kv.2 := by
  obtain ⟨e, he, rfl⟩ := List.mem_map.1 hkv
  obtain ⟨i, hi⟩ := List.mem_iff_getElem?.1 he
  rw [get?, h.ofValue_toValue he]
  exact getKey?_of_getElem? h.sorted hi Std.ReflCmp.compare_self

/-- What is found is the value of an entry. -/
theorem Ordered.mem_of_get? (h : d.Ordered) (hkey : d.get? key = some v) : ∃ k, (k, v) ∈ d.toList ∧ k.SameKey key := by
  obtain ⟨e, he, hk⟩ : ∃ e ∈ d.entries, (Key.ofValue key).cmp e.1 = .eq := by
    by_contra! hno
    rw [get?, getKey?_eq_none hno] at hkey
    contradiction
  have hsame : e.1.toValue.SameKey key := by
    rw [← Key.cmp_ofValue_eq, h.ofValue_toValue he]
    exact Std.OrientedCmp.eq_symm hk
  have hmem : (e.1.toValue, e.2) ∈ d.toList := List.mem_map_of_mem he
  have hv : some e.2 = some v := by
    rw [← hkey, ← h.get?_of_mem hmem]
    exact getKey?_congr (Key.cmp_ofValue_eq.2 hsame)
  exact ⟨_, Option.some.inj hv ▸ hmem, hsame⟩

/-- The keys come in their order. -/
theorem Ordered.ascending (h : d.Ordered) : (d.toList.map Prod.fst).Pairwise Value.Before := by
  rw [toList, List.map_map, List.pairwise_map]
  refine h.sorted.imp_of_mem fun {e e'} he he' hlt => ?_
  rw [← h.ofValue_toValue he, ← h.ofValue_toValue he'] at hlt
  exact Key.cmp_ofValue_lt.1 hlt

theorem Ordered.isSome_get? (h : d.Ordered) : (d.get? key).isSome = true ↔ ∃ kv ∈ d.toList, kv.1.SameKey key := by
  constructor
  · intro hsome
    obtain ⟨v, hv⟩ := Option.isSome_iff_exists.1 hsome
    obtain ⟨k, hk, hsame⟩ := h.mem_of_get? hv
    exact ⟨_, hk, hsame⟩
  · rintro ⟨kv, hkv, hsame⟩
    rw [get?, ← getKey?_congr (Key.cmp_ofValue_eq.2 hsame), ← get?, h.get?_of_mem hkv]
    rfl

/-- No two entries have the same key. -/
theorem Ordered.nodup_keys (h : d.Ordered) : (d.toList.map fun kv => Quotient.mk Value.keySetoid kv.1).Nodup := by
  refine List.pairwise_map.2 ((List.pairwise_map.1 h.ascending).imp fun hlt heq => ?_)
  exact Value.totalKeyOrder.irrefl (Value.mk_eq_mk.1 heq) hlt

/-- There are as many entries as different keys among `kvs`, if these are the keys of the doc. -/
theorem Ordered.size_eq (h : d.Ordered) (hkeys : ∀ key, (d.get? key).isSome = true ↔ ∃ kv ∈ kvs, kv.1.SameKey key) :
    d.size = keyCount kvs := by
  have hlength : d.size = (d.toList.map fun kv => Quotient.mk Value.keySetoid kv.1).length := by simp [size, toList]
  rw [hlength, keyCount]
  refine ((List.perm_ext_iff_of_nodup h.nodup_keys (List.nodup_dedup _)).2 fun k => ?_).length_eq
  obtain ⟨key, rfl⟩ := Quotient.exists_rep k
  simp only [List.mem_dedup, List.mem_map, Value.mk_eq_mk]
  rw [← h.isSome_get?, hkeys key]

/-! ## Docs with the same entries -/

section Sorted

variable {k : Key} {e e' : Key × Value} {es es' : List (Key × Value)}

/-- What is found behind the first entry. -/
theorem getKey?_tail (hs : (e :: es).Pairwise fun e e' => e.1.cmp e'.1 = .lt) (k : Key) :
    getKey? k es = if k.cmp e.1 = .gt then getKey? k (e :: es) else none := by
  obtain ⟨hfirst, -⟩ := List.pairwise_cons.1 hs
  cases hk : k.cmp e.1 with
  | gt => simp [getKey?, hk]
  | lt =>
    refine getKey?_eq_none fun e' he' => ?_
    rw [Std.TransCmp.lt_trans hk (hfirst e' he')]
    simp
  | eq =>
    refine getKey?_eq_none fun e' he' => ?_
    rw [Std.TransCmp.congr_left hk, hfirst e' he']
    simp

theorem getKey?_head (h : k.cmp e.1 = .eq) : getKey? k (e :: es) = some e.2 := by
  simp [getKey?, h]

/-- Entries in order, in which the same is found under each key, agree one by one. -/
theorem entries_agree (hs : es.Pairwise fun e e' => e.1.cmp e'.1 = .lt) (hs' : es'.Pairwise fun e e' => e.1.cmp e'.1 = .lt)
    (h : ∀ e ∈ es ++ es', getKey? e.1 es = getKey? e.1 es') :
    List.Forall₂ (fun e e' => e.1.cmp e'.1 = .eq ∧ e.2 = e'.2) es es' := by
  induction es generalizing es' with
  | nil =>
    cases es' with
    | nil => exact .nil
    | cons e' es' =>
      have hget := h e' (by simp)
      rw [getKey?_head Std.ReflCmp.compare_self] at hget
      contradiction
  | cons e es ih =>
    have hget := h e (by simp)
    rw [getKey?_head Std.ReflCmp.compare_self] at hget
    cases es' with
    | nil => contradiction
    | cons e' es' =>
      have hget' := h e' (by simp)
      rw [getKey?_head (k := e'.1) (e := e') Std.ReflCmp.compare_self] at hget'
      -- neither first key comes before the other one
      have hk : e.1.cmp e'.1 = .eq := by
        cases hk : e.1.cmp e'.1 with
        | eq => rfl
        | lt => simp [getKey?, hk] at hget
        | gt => simp [getKey?, Std.OrientedCmp.gt_iff_lt.1 hk] at hget'
      rw [getKey?_head hk] at hget
      refine .cons ⟨hk, Option.some.inj hget⟩ (ih hs.of_cons hs'.of_cons fun e₂ he₂ => ?_)
      have hmem : e₂ ∈ e :: es ++ e' :: es' := by
        rcases List.mem_append.1 he₂ with he₂ | he₂ <;> simp [he₂]
      rw [getKey?_tail hs, getKey?_tail hs', h e₂ hmem, Std.TransCmp.congr_right hk]

end Sorted

/-- Docs in which the same is found agree entry by entry, in all that follows from the same key and the same value. -/
theorem Ordered.agree {R : Key × Value → Key × Value → Prop} (h : d.Ordered) (h' : d'.Ordered)
    (hget : ∀ key, d.get? key = d'.get? key)
    (hR : ∀ e ∈ d.entries, ∀ e' ∈ d'.entries, e.1.cmp e'.1 = .eq → e.2 = e'.2 → R e e') :
    List.Forall₂ R d.entries d'.entries := by
  have hagree := entries_agree h.sorted h'.sorted fun e he => by
    rw [← (List.mem_append.1 he).elim h.ofValue_toValue h'.ofValue_toValue]
    exact hget e.1.toValue
  obtain ⟨hlength, hzip⟩ := List.forall₂_iff_zip.1 hagree
  refine List.forall₂_iff_zip.2 ⟨hlength, fun {e e'} hmem => ?_⟩
  obtain ⟨he, he'⟩ := List.of_mem_zip hmem
  obtain ⟨hk, hv⟩ := hzip hmem
  exact hR e he e' he' hk hv

theorem Ordered.toList_agree (h : d.Ordered) (h' : d'.Ordered) (hget : ∀ key, d.get? key = d'.get? key) :
    List.Forall₂ (fun kv kv' => kv.1.SameKey kv'.1 ∧ kv.2 = kv'.2) d.toList d'.toList := by
  rw [toList, toList, List.forall₂_map_left_iff, List.forall₂_map_right_iff]
  refine h.agree h' hget fun e he e' he' hk hv => ⟨?_, hv⟩
  rw [← h.ofValue_toValue he, ← h'.ofValue_toValue he'] at hk
  exact Key.cmp_ofValue_eq.1 hk

/-- The keys of the entries are those that were put in. -/
theorem key_of_mem_insertMany {e : Key × Value} (he : e ∈ (d.insertMany kvs).entries) :
    (∃ e' ∈ d.entries, e'.1 = e.1) ∨ ∃ kv ∈ kvs, Key.ofValue kv.1 = e.1 := by
  induction kvs generalizing d with
  | nil => exact .inl ⟨e, he, rfl⟩
  | cons kv kvs ih =>
    rcases ih (d := d.insert kv.1 kv.2) he with ⟨e', he', hk⟩ | ⟨kv', hkv', hk⟩
    · rcases key_of_mem_insertKey he' with hkey | ⟨e₀, he₀, hkey⟩
      · exact .inr ⟨kv, by simp, by rw [← hk, hkey]⟩
      · exact .inl ⟨e₀, he₀, by rw [hkey, hk]⟩
    · exact .inr ⟨kv', by simp [hkv'], hk⟩

end Doc

/-- Values with the same identity are the same. -/
def Value.Coherent (vs : List Value) : Prop :=
  ∀ a ∈ vs, ∀ b ∈ vs, a.keySort = 4 → b.keySort = 4 → a.identity = b.identity → a = b

/-- The same key is made from values that are the same key. -/
theorem Key.ofValue_eq_of_sameKey {a b : Value} {vs : List Value} (hvs : Value.Coherent vs) (ha : a ∈ vs) (hb : b ∈ vs)
    (h : a.SameKey b) : ofValue a = ofValue b := by
  cases Value.alike_of_keySort h.keySort_eq with
  | none => rfl
  | bool x y =>
    obtain rfl : x = y := h
    rfl
  | num x y => exact congrArg num (normal_eq_iff.2 h)
  | str s t =>
    obtain rfl : s = t := h
    rfl
  | ref hra hrb => rw [hvs a ha b hb hra hrb ((Value.sameKey_of_ref hra hrb).1 h)]

namespace Doc

variable {d d' : Doc} {kvs kvs' : List (Value × Value)} {proto : Option Value}

theorem get?_insertMany_new (proto : Option Value) (kvs : List (Value × Value)) (key : Value) :
    ((⟨[], proto⟩ : Doc).insertMany kvs).get? key = lastUnder key kvs := by
  rw [get?_insertMany]
  exact Option.or_none

/-- A doc does not show in which order its entries were made. -/
theorem insertMany_eq_of_lastUnder (h : ∀ key, lastUnder key kvs = lastUnder key kvs')
    (hkeys : Value.Coherent (kvs.map Prod.fst ++ kvs'.map Prod.fst)) :
    (⟨[], proto⟩ : Doc).insertMany kvs = (⟨[], proto⟩ : Doc).insertMany kvs' := by
  have hget (key : Value) : ((⟨[], proto⟩ : Doc).insertMany kvs).get? key =
      ((⟨[], proto⟩ : Doc).insertMany kvs').get? key := by
    rw [get?_insertMany_new, get?_insertMany_new, h]
  have hentries : ((⟨[], proto⟩ : Doc).insertMany kvs).entries = ((⟨[], proto⟩ : Doc).insertMany kvs').entries := by
    rw [← List.forall₂_eq_eq_eq]
    refine (ordered_empty.insertMany kvs).agree (ordered_empty.insertMany kvs') hget fun e he e' he' hk hv => ?_
    obtain ⟨kv, hkv, hkey⟩ := (key_of_mem_insertMany he).resolve_left (by simp)
    obtain ⟨kv', hkv', hkey'⟩ := (key_of_mem_insertMany he').resolve_left (by simp)
    refine Prod.ext ?_ hv
    rw [← hkey, ← hkey'] at hk ⊢
    exact Key.ofValue_eq_of_sameKey hkeys (List.mem_append_left _ (List.mem_map_of_mem hkv))
      (List.mem_append_right _ (List.mem_map_of_mem hkv')) (Key.cmp_ofValue_eq.1 hk)
  have hproto := (proto_insertMany ⟨[], proto⟩ kvs).trans (proto_insertMany ⟨[], proto⟩ kvs').symm
  exact (Doc.mk.injEq ..).mpr ⟨hentries, hproto⟩

/-- The doc is the map that `kvs`, put into it one after the other, make. -/
structure IsMapOf (d : Doc) (kvs : List (Value × Value)) : Prop where
  get (key : Value) : d.get? key = lastUnder key kvs
  size : d.size = keyCount kvs
  ascending : (d.toList.map Prod.fst).Pairwise Value.Before
  entry : ∀ kv ∈ d.toList, lastUnder kv.1 kvs = some kv.2
  covered : ∀ kv ∈ kvs, ∃ kv' ∈ d.toList, kv'.1.SameKey kv.1

theorem isMapOf_insertMany (proto : Option Value) (kvs : List (Value × Value)) :
    ((⟨[], proto⟩ : Doc).insertMany kvs).IsMapOf kvs := by
  have hordered : ((⟨[], proto⟩ : Doc).insertMany kvs).Ordered := ordered_empty.insertMany kvs
  have hget := get?_insertMany_new proto kvs
  refine ⟨hget, hordered.size_eq fun key => ?_, hordered.ascending, fun kv hkv => ?_, fun kv hkv => ?_⟩
  · rw [hget, isSome_lastUnder]
  · rw [← hget]
    exact hordered.get?_of_mem hkv
  · rw [← hordered.isSome_get?, hget, isSome_lastUnder]
    exact ⟨kv, hkv, Value.totalKeyOrder.equivalence.refl kv.1⟩

end Doc

/-! ## Assignments -/

namespace Machine

/-- `object[key] = value` for several keys, one after the other. -/
def setIndexEach (host : Host σ) (object : Value) (kvs : List (Value × Value)) : Eval σ Unit :=
  kvs.forM fun kv => setIndex host object kv.1 kv.2

theorem withDoc_withDoc (m : Machine σ) (id : DocId) (f g : Doc → Doc) :
    (m.withDoc id f).withDoc id g = m.withDoc id (g ∘ f) := by
  have hdocs : (m.heap.docs.modify id f).modify id g = m.heap.docs.modify id (g ∘ f) := by
    refine Array.ext_getElem? fun i => ?_
    rw [Array.getElem?_modify, Array.getElem?_modify, Array.getElem?_modify]
    split <;> simp
  simp only [withDoc, hdocs]

theorem withDoc_id (m : Machine σ) (id : DocId) : m.withDoc id (fun d => d) = m := by
  have hdocs : m.heap.docs.modify id (fun d => d) = m.heap.docs := by
    refine Array.ext_getElem? fun i => ?_
    rw [Array.getElem?_modify]
    split <;> simp
  simp only [withDoc, hdocs]

theorem withDoc_congr {m : Machine σ} {id : DocId} {d : Doc} {f g : Doc → Doc} (h : m.doc? id = some d)
    (hfg : f d = g d) : m.withDoc id f = m.withDoc id g := by
  have hdocs : m.heap.docs.modify id f = m.heap.docs.modify id g := by
    refine Array.ext_getElem? fun i => ?_
    rw [Array.getElem?_modify, Array.getElem?_modify]
    split
    · next hi =>
      subst hi
      have h : m.heap.docs[id]? = some d := h
      rw [h, Option.map_some, Option.map_some, hfg]
    · rfl
  simp only [withDoc, hdocs]

theorem setIndexEach_doc (host : Host σ) (m : Machine σ) (id : DocId) (kvs : List (Value × Value)) :
    setIndexEach host (.doc id) kvs m = .ok () (m.withDoc id (·.insertMany kvs)) := by
  induction kvs generalizing m with
  | nil => exact congrArg (EStateM.Result.ok ()) (m.withDoc_id id).symm
  | cons kv kvs ih =>
    calc setIndexEach host (.doc id) (kv :: kvs) m
        = setIndexEach host (.doc id) kvs (m.withDoc id (·.insert kv.1 kv.2)) := rfl
      _ = .ok () (m.withDoc id (·.insertMany (kv :: kvs))) := by
          rw [ih, withDoc_withDoc]
          rfl

end Machine

end DocScript
