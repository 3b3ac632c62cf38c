import DocScript.Proofs.Data.Maps
import DocScript.Proofs.Run.Live

/-!
# Loops, indexing and `len`

A loop over a doc or a string goes through pairs that are made at its beginning (`Machine.pairs`). Indexing
(`Machine.index`) and the native `len` are other code : a doc is looked up by the key that a value is, and a string by a
number that is made a position. `Machine.Mirrors` says that a list of keys and values is all that they show of an
object : under each key there is its value, and under what is none of the keys nothing. The pairs of a loop are such a
list, for docs (`Machine.mirrors_doc`) and for strings (`Machine.mirrors_str`). Docs have to be in order for this, as
they are in all machines that are live.
-/

namespace DocScript

variable {σ : Type}

/-! ## Keys -/

/-- Each key of a doc is in one entry. -/
theorem Doc.Ordered.countP_sameKey {d : Doc} {key : Value} (h : d.Ordered) (hkey : (d.get? key).isSome = true) :
    d.toList.countP (fun kv => decide (kv.1.SameKey key)) = 1 := by
  obtain ⟨kv, hkv, hsame⟩ := h.isSome_get?.1 hkey
  have hmem : Quotient.mk Value.keySetoid key ∈ d.toList.map fun kv => Quotient.mk Value.keySetoid kv.1 :=
    List.mem_map.2 ⟨kv, hkv, Value.mk_eq_mk.2 hsame⟩
  rw [← List.count_eq_one_of_mem h.nodup_keys hmem, List.count, List.countP_map]
  exact List.countP_congr fun kv _ => by simp [Value.mk_eq_mk]

/-- A value is equal to a count if it has the count as its index. -/
theorem Value.equal_ofNat_iff {key : Value} {i : Nat} (h : i < 2 ^ 53) :
    (Value.num (Number.ofNat i)).equal key = true ↔ key.index? = some i := by
  cases key with
  | num x =>
    have hnormal := (Machine.position?_eq_some_iff h).1 (Machine.position?_ofNat h)
    have hbeq : (Number.ofNat i == x) = true ↔ x = Number.ofNat i ∨ (x == 0) = true ∧ (Number.ofNat i == 0) = true := by
      constructor
      · intro hx
        exact (Number.eq_or_zero_of_beq hx).imp Eq.symm And.symm
      · rintro (rfl | ⟨hx, hi⟩)
        · obtain ⟨m, e, hparts, -⟩ := Number.parts_ofNat h
          exact Parts.beq_self_of_finite hparts
        · rcases Number.eq_zero_of_beq hi with hi | hi <;> rcases Number.eq_zero_of_beq hx with hx | hx <;>
            rw [hi, hx] <;> decide +kernel
    calc (num (Number.ofNat i)).equal (num x) = true
        ↔ x = Number.ofNat i ∨ (x == 0) = true ∧ (Number.ofNat i == 0) = true := hbeq
      _ ↔ (if x == 0 then 0 else x) = if Number.ofNat i == 0 then 0 else Number.ofNat i := Key.normal_eq_iff.symm
      _ ↔ (if x == 0 then 0 else x) = Number.ofNat i := by rw [hnormal]
      _ ↔ (num x).index? = some i := (Machine.position?_eq_some_iff h).symm
  | _ => simp [Value.equal, Value.index?, Value.num?]

/-! ## Objects and their pairs -/

namespace Machine

/-- The keys and values `kvs` are what the object shows. `has` are the values that it has something under, and `same`
says which values are one key. -/
structure Mirrors (host : Host σ) (m : Machine σ) (object : Value) (has : Value → Prop) (same : Value → Value → Bool)
    (kvs : List (Value × Value)) : Prop where
  index : ∀ kv ∈ kvs, Machine.index host object kv.1 m = .ok kv.2 m
  len (n n' : Nat) : callWithin host (n + 1) (.native n' .len) [object] m = .ok [.num (Number.ofNat kvs.length)] m
  /-- Each key is in one pair. -/
  once (key : Value) : has key → kvs.countP (fun kv => same kv.1 key) = 1
  /-- No pair has another key. -/
  own : ∀ kv ∈ kvs, has kv.1
  rest (key : Value) : (∀ kv ∈ kvs, same kv.1 key = false) → Machine.index host object key m = .ok .none m

variable {host : Host σ} {m : Machine σ} {id : DocId}

/-- The doc, or an empty one if it is not on the heap. -/
def docAt (m : Machine σ) (id : DocId) : Doc := (m.doc? id).getD .empty

theorem index_docAt (key : Value) : index host (.doc id) key m = .ok (((m.docAt id).get? key).getD .none) m := by
  rw [index, docAt]
  cases m.doc? id <;> rfl

theorem Tidy.ordered_docAt (h : m.Tidy) (id : DocId) : (m.docAt id).Ordered := by
  rw [docAt]
  cases hd : m.doc? id with
  | none => exact Doc.ordered_empty
  | some d => exact h.docs id d hd

theorem mirrors_doc (h : m.Tidy) : m.Mirrors host (.doc id) (fun key => ((m.docAt id).get? key).isSome = true)
    (fun a b => decide (a.SameKey b)) (m.docAt id).toList where
  index kv hkv := by
    rw [index_docAt, (h.ordered_docAt id).get?_of_mem hkv]
    rfl
  len n n' := by
    have hcall : callWithin host (n + 1) (.native n' .len) [.doc id] m =
        .ok [.num (Number.ofNat (((m.doc? id).map Doc.size).getD 0))] m := rfl
    have hsize : ((m.doc? id).map Doc.size).getD 0 = (m.docAt id).toList.length := by
      rw [docAt]
      cases m.doc? id <;> simp [Doc.size, Doc.toList, Doc.empty]
    rw [hcall, hsize]
  once key hkey := (h.ordered_docAt id).countP_sameKey hkey
  own kv hkv := by
    rw [(h.ordered_docAt id).get?_of_mem hkv]
    rfl
  rest key hkey := by
    have hnone : (m.docAt id).get? key = none := by
      rw [← Option.not_isSome_iff_eq_none, (h.ordered_docAt id).isSome_get?]
      rintro ⟨kv, hkv, hsame⟩
      exact of_decide_eq_false (hkey kv hkv) hsame
    rw [index_docAt, hnone]
    rfl

/-! ## Strings -/

/-- The positions of a string and the characters there. -/
def positions (s : String) : List (Value × Value) :=
  s.toList.zipIdx.map fun ci => (.num (Number.ofNat ci.2), .str ci.1.toString)

theorem mem_positions {s : String} {kv : Value × Value} : kv ∈ positions s ↔
    ∃ i c, s.toList[i]? = some c ∧ kv = (.num (Number.ofNat i), .str c.toString) := by
  simp only [positions, List.mem_map, Prod.exists, List.mk_mem_zipIdx_iff_getElem?]
  constructor
  · rintro ⟨c, i, hi, rfl⟩
    exact ⟨i, c, hi, rfl⟩
  · rintro ⟨i, c, hi, rfl⟩
    exact ⟨c, i, hi, rfl⟩

/-- A character that is there is at a position that is a number. -/
theorem position_lt {s : String} {i : Nat} {c : Char} (hs : s.length < 2 ^ 53) (hi : s.toList[i]? = some c) :
    i < 2 ^ 53 := by
  have hlt : i < s.toList.length := (List.getElem?_eq_some_iff.1 hi).1
  rw [String.length_toList] at hlt
  omega

theorem charAt_eq (s : String) (key : Value) :
    charAt s key = ((key.index?.bind (s.toList[·]?)).map fun c => Value.str c.toString).getD .none := by
  rw [charAt, Value.index?]
  cases key.num?.bind position? with
  | none => rfl
  | some i => cases h : s.toList[i]? <;> simp [h]

/-- Each position is in one pair. -/
theorem countP_positions {s : String} {key : Value} {i : Nat} (hs : s.length < 2 ^ 53) (hi : i < s.length)
    (hkey : (Value.num (Number.ofNat i)).equal key = true) :
    (positions s).countP (fun kv => kv.1.equal key) = 1 := by
  have hindex : key.index? = some i := (Value.equal_ofNat_iff (hi.trans hs)).1 hkey
  have hpositions : s.toList.zipIdx.map Prod.snd = List.range s.length := by
    rw [List.zipIdx_map_snd, String.length_toList, List.range_eq_range']
  have hone : (s.toList.zipIdx.map Prod.snd).count i = 1 := by
    rw [hpositions]
    exact List.count_eq_one_of_mem List.nodup_range (List.mem_range.2 hi)
  rw [← hone, positions, List.countP_map, List.count, List.countP_map]
  refine List.countP_congr fun ci hci => ?_
  have hlt : ci.2 < 2 ^ 53 := position_lt hs (List.mk_mem_zipIdx_iff_getElem?.1 hci)
  rw [Function.comp_apply, Value.equal_ofNat_iff hlt, hindex, Option.some.injEq, Function.comp_apply, beq_iff_eq]
  exact eq_comm

theorem mirrors_str {s : String} (hs : s.length < 2 ^ 53) : m.Mirrors host (.str s)
    (fun key => ∃ i < s.length, (Value.num (Number.ofNat i)).equal key = true) Value.equal (positions s) where
  index kv hkv := by
    obtain ⟨i, c, hi, rfl⟩ := mem_positions.1 hkv
    have hchar : index host (.str s) (.num (Number.ofNat i)) m = .ok (charAt s (.num (Number.ofNat i))) m := rfl
    rw [hchar, charAt_eq, Value.index?_ofNat (position_lt hs hi), Option.bind_some, hi]
    rfl
  len n n' := by
    have hcall : callWithin host (n + 1) (.native n' .len) [.str s] m = .ok [.num (Number.ofNat s.length)] m := rfl
    rw [hcall, positions, List.length_map, List.length_zipIdx, String.length_toList]
  once key := by
    rintro ⟨i, hi, hkey⟩
    exact countP_positions hs hi hkey
  own kv hkv := by
    obtain ⟨i, c, hi, rfl⟩ := mem_positions.1 hkv
    exact ⟨i, String.length_toList ▸ (List.getElem?_eq_some_iff.1 hi).1,
      (Value.equal_ofNat_iff (position_lt hs hi)).2 (Value.index?_ofNat (position_lt hs hi))⟩
  rest key hkey := by
    have hchar : index host (.str s) key m = .ok (charAt s key) m := rfl
    have hnone : key.index?.bind (s.toList[·]?) = none := by
      rw [Option.eq_none_iff_forall_not_mem]
      intro c hc
      obtain ⟨i, hindex, hi⟩ := Option.bind_eq_some_iff.1 hc
      have hequal := (Value.equal_ofNat_iff (position_lt hs hi)).2 hindex
      rw [hkey _ (mem_positions.2 ⟨i, c, hi, rfl⟩)] at hequal
      contradiction
    rw [hchar, charAt_eq, hnone]
    rfl

/-! ## Loops -/

theorem pairs_doc (m : Machine σ) (id : DocId) : pairs (.doc id) m =
    .ok (if m.isArray (m.docAt id) then (m.docAt id).toList.map Prod.swap else (m.docAt id).toList) m := by
  rw [pairs, ← docAt]
  cases m.isArray (m.docAt id) with
  | true => rfl
  | false => exact congrArg (EStateM.Result.ok · m) (List.map_id _)

theorem pairs_str (m : Machine σ) (s : String) : pairs (.str s) m = .ok ((positions s).map Prod.swap) m := by
  rw [pairs, positions, List.map_map]
  rfl

end Machine

/-- A loop goes through the pairs of what it loops over, as they are when it begins. -/
theorem Calls.exec_forLoop (k : Calls σ) (vars : List Variable) {e : Expr Unit} (body : Block Unit) {m₀ m : Machine σ}
    {object : Value} {ps : List (Value × Value)} (he : k.eval e m₀ = .ok object m)
    (hp : Machine.pairs object m = .ok ps m) :
    k.exec (.forLoop () vars e body) m₀ = Exec.forLoop vars (k.execBlock body) ps m := by
  simp [exec, bind, EStateM.bind, Exec.lift, he, hp]

/-- Loops agree with indexing and `len`, in every machine of a session and at every moment of a run. A loop over a doc
goes through all its keys and values, the values first if it is a list; one over a string goes through all its
characters and their positions. -/
theorem Machine.loop_pairs_faithful {host : Host σ} {m : Machine σ} (h : m.Live host) :
    (∀ id, ∃ kvs, m.Mirrors host (.doc id) (fun key => ((m.docAt id).get? key).isSome = true)
        (fun a b => decide (a.SameKey b)) kvs ∧
      pairs (.doc id) m = .ok (if m.isArray (m.docAt id) then kvs.map Prod.swap else kvs) m) ∧
    (∀ s : String, s.length < 2 ^ 53 → ∃ kvs, m.Mirrors host (.str s)
        (fun key => ∃ i < s.length, (Value.num (Number.ofNat i)).equal key = true) Value.equal kvs ∧
      pairs (.str s) m = .ok (kvs.map Prod.swap) m) ∧
    ∀ (k : Calls σ) (vars : List Variable) (e : Expr Unit) (body : Block Unit) (m₀ : Machine σ) (object : Value)
      (ps : List (Value × Value)), k.eval e m₀ = .ok object m → pairs object m = .ok ps m →
      k.exec (.forLoop () vars e body) m₀ = Exec.forLoop vars (k.execBlock body) ps m := by
  refine ⟨fun id => ⟨_, mirrors_doc h.tidy, pairs_doc m id⟩, fun s hs => ⟨_, mirrors_str hs, pairs_str m s⟩, ?_⟩
  intro k vars e body m₀ object ps he hp
  exact k.exec_forLoop vars body he hp

/-- A doc that has itself, NaN, None and a boolean as keys, and a string with a character of two bytes. -/
theorem Machine.loop_pairs_faithful_mixed :
    let d := Doc.empty.insertMany [(.doc 0, .doc 0), (.num (0 / 0), .str "a"), (.none, .num 1), (.bool true, .none)]
    let m : Machine Thermometer := .build { Heap.empty with docs := #[d] } Config.default
    m.Live Thermometer.host ∧ m.doc? 0 = some d ∧ "é!".length < 2 ^ 53 ∧
      (∃ kvs, m.Mirrors Thermometer.host (.doc 0) (fun key => ((m.docAt 0).get? key).isSome = true)
          (fun a b => decide (a.SameKey b)) kvs ∧
        pairs (.doc 0) m = .ok (if m.isArray (m.docAt 0) then kvs.map Prod.swap else kvs) m) ∧
      ∃ kvs, m.Mirrors Thermometer.host (.str "é!")
          (fun key => ∃ i < "é!".length, (Value.num (Number.ofNat i)).equal key = true) Value.equal kvs ∧
        pairs (.str "é!") m = .ok (kvs.map Prod.swap) m := by
  intro d m
  have hordered : Heap.Ordered { (Heap.empty : Heap Thermometer) with docs := #[d] } := by
    intro id d' hd
    obtain rfl : d' = d := by simpa using Array.mem_of_getElem? hd
    exact Doc.ordered_empty.insertMany _
  have hlive : m.Live Thermometer.host := .idle (.build Config.default hordered)
  have hlen : "é!".length < 2 ^ 53 := by decide
  obtain ⟨hdocs, hstrs, -⟩ := loop_pairs_faithful hlive
  exact ⟨hlive, rfl, hlen, hdocs 0, hstrs _ hlen⟩

end DocScript
