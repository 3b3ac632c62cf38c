import DocScript.Doc
import DocScript.Proofs.Number.Equality

/-!
# Equal values as keys

Scripts compare values with `Value.equal`, and docs find them by the order `Key.cmp` of their keys : two relations
over nine sorts of values. They agree on all of them but one (`Key.cmp_ofValue`). Plain values are keys by
their content, where both zeros are one key; docs, functions, natives and boxes are equal, and the same key, by
identity. A method is equal to another one by its parts, but it is a key by identity, so that two methods made
from the same parts are equal and yet two keys.

Keys that compare equal cannot be told apart by a doc (`Doc.getKey?_congr`, `Doc.insertKey_insertKey`), and a key does not
see what is put under another one (`Doc.getKey?_insertKey_of_ne`).
-/

namespace DocScript

/-- The number under which a method was made. -/
def Value.methodId? : Value → Option Nat
  | .method id _ _ => some id
  | _ => Option.none

/-! ## The order of keys -/

namespace Key

/-- Keys compare equal if they are of one sort and nothing distinguishes them there. -/
theorem cmp_eq_eq {k l : Key} : k.cmp l = .eq ↔
    k.sort = l.sort ∧ k.rank = l.rank ∧ k.text = l.text ∧ k.identity = l.identity := by
  simp only [cmp, compareLex_eq_eq, compareOn, Std.LawfulEqCmp.compare_eq_iff_eq, Prod.ext_iff]

/-- Both zeros are one key, and so are equal numbers. -/
theorem num_normal {x y : Float} (h : (x == y) = true) : (if x == 0 then 0 else x) = if y == 0 then 0 else y := by
  rcases Number.eq_or_zero_of_beq h with rfl | ⟨hx, hy⟩
  · rfl
  · rw [if_pos hx, if_pos hy]

/-- Equal values are the same key, unless they are methods that were made apart. -/
theorem cmp_ofValue {a b : Value} (h : a.equal b = true) :
    (ofValue a).cmp (ofValue b) = .eq ↔ a.methodId? = b.methodId? := by
  rw [cmp_eq_eq]
  cases a <;> cases b <;> simp only [Value.equal, Bool.false_eq_true, beq_iff_eq] at h
  case none.none => simp [Value.methodId?]
  case num.num x y => simp [ofValue, num_normal h, Value.methodId?]
  case method.method => simp [ofValue, sort, rank, text, identity, Value.identity, Value.methodId?]
  all_goals simp [ofValue, sort, rank, text, identity, Value.identity, Value.methodId?, h]

end Key

/-! ## Docs -/

namespace Doc

variable {k l : Key} {v w : Value} {es : List (Key × Value)}

/-- What is found does not depend on which of two keys that compare equal is looked for. -/
theorem getKey?_congr (h : k.cmp l = .eq) : getKey? k es = getKey? l es := by
  induction es with
  | nil => rfl
  | cons e es ih =>
    obtain ⟨k', w⟩ := e
    rw [getKey?, getKey?, Std.TransCmp.congr_left h, ih]

/-- A value that is put under a key replaces what was put under a key that compares equal. -/
theorem insertKey_insertKey (h : k.cmp l = .eq) : insertKey l w (insertKey k v es) = insertKey k w es := by
  have hl : l.cmp k = .eq := Std.OrientedCmp.eq_symm h
  induction es with
  | nil => simp only [insertKey, hl]
  | cons e es ih =>
    obtain ⟨k', u⟩ := e
    have hk' : l.cmp k' = k.cmp k' := Std.TransCmp.congr_left hl
    cases hk : k.cmp k' with
    | lt => simp only [insertKey, hk, hl]
    | eq => simp only [insertKey, hk, hk']
    | gt => simp only [insertKey, hk, hk', ih]

/-- What is found under a key does not change when a value is put under another one, in whatever order the
entries are. -/
theorem getKey?_insertKey_of_ne (h : k.cmp l ≠ .eq) : getKey? l (insertKey k v es) = getKey? l es := by
  have hl : l.cmp k ≠ .eq := fun hl => h (Std.OrientedCmp.eq_symm hl)
  induction es with
  | nil =>
    simp only [insertKey, getKey?]
    cases hk : l.cmp k with
    | eq => exact absurd hk hl
    | lt | gt => rfl
  | cons e es ih =>
    obtain ⟨k', u⟩ := e
    rw [insertKey]
    cases hk : k.cmp k' with
    | lt =>
      simp only [getKey?]
      cases hlk : l.cmp k with
      | lt => rw [Std.TransCmp.lt_trans hlk hk]
      | eq => exact absurd hlk hl
      | gt => rfl
    | eq =>
      simp only [getKey?]
      cases hlk : l.cmp k' with
      | eq => exact absurd (Std.TransCmp.eq_trans hlk (Std.OrientedCmp.eq_symm hk)) hl
      | lt | gt => rfl
    | gt => simp only [getKey?, ih]

/-- How many entries there are does not depend on the value that is put in. -/
theorem length_insertKey : (insertKey k v es).length = (insertKey k w es).length := by
  induction es with
  | nil => rfl
  | cons e es ih =>
    obtain ⟨k', u⟩ := e
    rw [insertKey, insertKey]
    cases k.cmp k' with
    | lt | eq => rfl
    | gt => exact congrArg (· + 1) ih

/-- Equal values are the same key of every doc : what is put under one of them is found under the other one, and
values put under both leave one entry. The only exception are methods that were made apart, which are always
different keys. -/
theorem equal_values_one_key (d : Doc) {a b : Value} (h : a.equal b = true) (v w : Value) :
    (a.methodId? = b.methodId? → (d.insert a v).get? b = some v ∧ (d.insert a v).insert b w = d.insert a w ∧
      ((d.insert a v).insert b w).size = (d.insert a v).size) ∧
    (a.methodId? ≠ b.methodId? → (d.insert a v).get? b = d.get? b) := by
  refine ⟨fun hid => ?_, fun hid => ?_⟩
  · have hk : (Key.ofValue a).cmp (.ofValue b) = .eq := (Key.cmp_ofValue h).2 hid
    have hget : (d.insert a v).get? b = some v := by
      rw [get?, ← getKey?_congr hk]
      exact get?_insert_self d a v
    have hinsert : (d.insert a v).insert b w = d.insert a w := by
      simp only [insert, insertKey_insertKey hk]
    refine ⟨hget, hinsert, ?_⟩
    rw [hinsert]
    exact length_insertKey
  · exact getKey?_insertKey_of_ne fun hk => hid ((Key.cmp_ofValue h).1 hk)

/-- The two zeros in an empty doc. -/
theorem equal_values_one_key_zeros :
    (Value.num 0).equal (.num (-0)) = true ∧ Value.methodId? (.num 0) = Value.methodId? (.num (-0)) ∧
      (empty.insert (.num 0) (.str "a")).get? (.num (-0)) = some (.str "a") ∧
      ((empty.insert (.num 0) (.str "a")).insert (.num (-0)) (.str "b")).size = 1 :=
  have h : (Value.num 0).equal (.num (-0)) = true := by decide +kernel
  have hone := (equal_values_one_key empty h (.str "a") (.str "b")).1 rfl
  ⟨h, rfl, hone.1, hone.2.2⟩

/-- Two methods of one object and one callable are equal, but two keys. -/
theorem equal_methods_two_keys :
    let a := Value.method 0 (.doc 0) (.native 0 .len)
    let b := Value.method 1 (.doc 0) (.native 0 .len)
    a.equal b = true ∧ (empty.insert a (.num 1)).get? b = none ∧
      ((empty.insert a (.num 1)).insert b (.num 2)).size = 2 := by
  refine ⟨by decide, rfl, rfl⟩

end Doc

end DocScript
