import DocScript.Proofs.Display
import DocScript.Proofs.Number.Sign
import DocScript.Proofs.Print.Legible

/-!
# Data and their texts

A `Datum` is the content of a value that consists of data : None, booleans, numbers, strings, lists, and dicts whose
keys are no references. `Machine.Holds` says that a value on a machine has some content. It is defined along the
datum, which is finite, so no doc with a content encloses itself.

Every datum is the value of an expression (`Datum.expr`), which is made of literals alone. A value is displayed as
the text of that expression (`Machine.display_eq`).
-/

namespace DocScript

variable {σ : Type}

/-- The content of a value. -/
inductive Datum where
  | none
  | bool (b : Bool)
  | num (n : Float)
  | str (s : String)
  | list (items : List Datum)
  | dict (entries : List (Key × Datum))

/-! ## Contents of values -/

/-- The keys of a list of `n` items. -/
def indexKeys (n : Nat) : List Key := (List.range n).map fun i => .ofValue (.num (Number.ofNat i))

namespace Machine

mutual

/-- The value has the given content; numbers are compared by `eq`. -/
def Holds (m : Machine σ) (eq : Float → Float → Prop) : Datum → Value → Prop
  | .none, v => v = .none
  | .bool b, v => v = .bool b
  | .num a, v => ∃ b, v = .num b ∧ eq a b
  | .str s, v => v = .str s
  | .list items, v => ∃ id d, v = .doc id ∧ m.doc? id = some d ∧ m.isArray d = true ∧
      d.entries.map Prod.fst = indexKeys items.length ∧ m.HoldsEach eq items (d.entries.map Prod.snd)
  | .dict entries, v => ∃ id d, v = .doc id ∧ m.doc? id = some d ∧ d.proto = none ∧
      m.HoldsEntries eq entries d.entries

def HoldsEach (m : Machine σ) (eq : Float → Float → Prop) : List Datum → List Value → Prop
  | [], vs => vs = []
  | x :: xs, vs => ∃ v rest, vs = v :: rest ∧ m.Holds eq x v ∧ m.HoldsEach eq xs rest

def HoldsEntries (m : Machine σ) (eq : Float → Float → Prop) : List (Key × Datum) → List (Key × Value) → Prop
  | [], es => es = []
  | (k, x) :: xs, es => ∃ v rest, es = (k, v) :: rest ∧ m.Holds eq x v ∧ m.HoldsEntries eq xs rest

end

end Machine

/-- Found again by its content. -/
def Key.Plain : Key → Prop
  | .none | .bool _ | .str _ => True
  | .num n => Check.isFinite n = true
  | .ref _ => False

mutual

/-- All numbers are finite, and no key is a reference. -/
def Datum.Plain : Datum → Prop
  | .none | .bool _ | .str _ => True
  | .num n => Check.isFinite n = true
  | .list items => DataPlain items
  | .dict entries => EntriesPlain entries

def DataPlain : List Datum → Prop
  | [] => True
  | x :: xs => x.Plain ∧ DataPlain xs

def EntriesPlain : List (Key × Datum) → Prop
  | [] => True
  | (k, x) :: xs => (k.Plain ∧ x.Plain) ∧ EntriesPlain xs

end

/-! ## Literals -/

/-- A number as an expression. Zero has no sign, and a negative number is a negation. -/
def Number.literal (n : Float) : Expr Unit :=
  match Parts.ofFloat n with
  | .finite _ 0 _ => .number () 0
  | .finite true _ _ => .unary () .neg (.number () (-n))
  | _ => .number () n

/-- A key as an expression. -/
def Key.literal : Key → Expr Unit
  | .none => .none ()
  | .bool b => .bool () b
  | .num n => Number.literal n
  | .str s => .str () s
  | .ref _ => .none ()

mutual

/-- The expression that has the datum as its value. -/
def Datum.expr : Datum → Expr Unit
  | .none => .none ()
  | .bool b => .bool () b
  | .num n => Number.literal n
  | .str s => .str () s
  | .list items => .list () (itemExprs items)
  | .dict entries => .dict () (entryExprs entries)

def itemExprs : List Datum → List (Expr Unit)
  | [] => []
  | x :: xs => x.expr :: itemExprs xs

def entryExprs : List (Key × Datum) → List (Expr Unit × Expr Unit)
  | [] => []
  | (k, x) :: xs => (k.literal, x.expr) :: entryExprs xs

end

namespace Number

theorem exists_finite {n : Float} (h : Check.isFinite n = true) : ∃ s m e, Parts.ofFloat n = .finite s m e := by
  unfold Check.isFinite at h
  split at h
  · next s m e hn => exact ⟨s, m, e, hn⟩
  · contradiction

/-- A finite number is zero, positive or negative. -/
theorem literal_cases {n : Float} (h : Check.isFinite n = true) :
    ((n = 0 ∨ n = -0) ∧ literal n = .number () 0) ∨
    (∃ m e, Parts.ofFloat n = .finite false m e ∧ 0 < m ∧ literal n = .number () n) ∨
    ∃ m e, Parts.ofFloat n = .finite true m e ∧ 0 < m ∧ literal n = .unary () .neg (.number () (-n)) := by
  obtain ⟨s, m, e, hn⟩ := exists_finite h
  rcases Nat.eq_zero_or_pos m with rfl | hm
  · exact .inl ⟨Parts.eq_zero_of_finite hn, by simp [literal, hn]⟩
  · obtain ⟨m, rfl⟩ := Nat.exists_eq_succ_of_ne_zero (Nat.ne_of_gt hm)
    cases s with
    | false => exact .inr (.inl ⟨_, e, hn, hm, by simp [literal, hn]⟩)
    | true => exact .inr (.inr ⟨_, e, hn, hm, by simp [literal, hn]⟩)

theorem print_literal {n : Float} (h : Check.isFinite n = true) : (literal n).print = text n := by
  rcases literal_cases h with ⟨hn, hl⟩ | ⟨m, e, hn, hm, hl⟩ | ⟨m, e, hn, hm, hl⟩
  · rw [hl, Expr.print]
    rcases hn with rfl | rfl
    · rfl
    · decide +kernel
  · rw [hl, Expr.print]
  · rw [hl, Expr.print, Expr.print, text_neg hn hm]
    rfl

end Number

theorem Key.print_literal {k : Key} (h : k.Plain) : k.literal.print = k.toValue.plain := by
  cases k with
  | none => rfl
  | bool b => cases b <;> rfl
  | num n => exact Number.print_literal h
  | str s => rfl
  | ref v => exact h.elim

theorem Datum.sizeOf_lt_list {x : Datum} {items : List Datum} (h : x ∈ items) : sizeOf x < sizeOf (list items) := by
  have hlt := List.sizeOf_lt_of_mem h
  rw [list.sizeOf_spec]
  omega

theorem Datum.sizeOf_lt_dict {x : Key × Datum} {entries : List (Key × Datum)} (h : x ∈ entries) :
    sizeOf x.2 < sizeOf (dict entries) := by
  have hlt := List.sizeOf_lt_of_mem h
  obtain ⟨k, x⟩ := x
  rw [Prod.mk.sizeOf_spec] at hlt
  rw [dict.sizeOf_spec]
  dsimp only
  omega

/-! ## Displayed values -/

namespace Machine

variable {m : Machine σ}

theorem isArray_eq_false {d : Doc} (h : d.proto = none) : m.isArray d = false := by
  simp [isArray, h]

mutual

/-- A value has one content. -/
theorem Holds.unique : ∀ {x y : Datum} {v : Value}, m.Holds Eq x v → m.Holds Eq y v → x = y
  | .none, y, v, h, h' => by
    obtain rfl : v = .none := h
    cases y <;> simp_all [Holds]
  | .bool b, y, v, h, h' => by
    obtain rfl : v = .bool b := h
    cases y <;> simp_all [Holds]
  | .num a, y, v, h, h' => by
    obtain ⟨_, rfl, rfl⟩ := h
    cases y <;> simp_all [Holds]
  | .str s, y, v, h, h' => by
    obtain rfl : v = .str s := h
    cases y <;> simp_all [Holds]
  | .list items, y, v, h, h' => by
    obtain ⟨id, d, rfl, hd, ha, -, hv⟩ := h
    cases y with
    | list items' =>
      obtain ⟨_, d', hid, hd', -, -, hv'⟩ := h'
      cases hid
      obtain rfl : d = d' := Option.some.inj (hd.symm.trans hd')
      rw [HoldsEach.unique hv hv']
    | dict entries =>
      obtain ⟨_, d', hid, hd', hp, -⟩ := h'
      cases hid
      obtain rfl : d = d' := Option.some.inj (hd.symm.trans hd')
      rw [isArray_eq_false hp] at ha
      nomatch ha
    | _ => simp [Holds] at h'
  | .dict entries, y, v, h, h' => by
    obtain ⟨id, d, rfl, hd, hp, hv⟩ := h
    cases y with
    | list items' =>
      obtain ⟨_, d', hid, hd', ha, -⟩ := h'
      cases hid
      obtain rfl : d = d' := Option.some.inj (hd.symm.trans hd')
      rw [isArray_eq_false hp] at ha
      nomatch ha
    | dict entries' =>
      obtain ⟨_, d', hid, hd', -, hv'⟩ := h'
      cases hid
      obtain rfl : d = d' := Option.some.inj (hd.symm.trans hd')
      rw [HoldsEntries.unique hv hv']
    | _ => simp [Holds] at h'

theorem HoldsEach.unique : ∀ {xs ys : List Datum} {vs : List Value}, m.HoldsEach Eq xs vs → m.HoldsEach Eq ys vs →
    xs = ys
  | [], ys, vs, h, h' => by
    obtain rfl : vs = [] := h
    cases ys <;> simp_all [HoldsEach]
  | x :: xs, ys, vs, h, h' => by
    obtain ⟨v, rest, rfl, hx, hxs⟩ := h
    cases ys with
    | nil => simp [HoldsEach] at h'
    | cons y ys =>
      obtain ⟨_, _, hvs, hy, hys⟩ := h'
      cases hvs
      rw [Holds.unique hx hy, HoldsEach.unique hxs hys]

theorem HoldsEntries.unique : ∀ {xs ys : List (Key × Datum)} {es : List (Key × Value)},
    m.HoldsEntries Eq xs es → m.HoldsEntries Eq ys es → xs = ys
  | [], ys, es, h, h' => by
    obtain rfl : es = [] := h
    cases ys <;> simp_all [HoldsEntries]
  | (k, x) :: xs, ys, es, h, h' => by
    obtain ⟨v, rest, rfl, hx, hxs⟩ := h
    cases ys with
    | nil => simp [HoldsEntries] at h'
    | cons y ys =>
      obtain ⟨_, _, hes, hy, hys⟩ := h'
      cases hes
      rw [Holds.unique hx hy, HoldsEntries.unique hxs hys]

end

/-- The docs in `opened` are around a value with the content `x` : their contents are larger. -/
def Encloses (m : Machine σ) (opened : List DocId) (x : Datum) : Prop :=
  ∀ i ∈ opened, ∃ y, m.Holds Eq y (.doc i) ∧ sizeOf x < sizeOf y

namespace Encloses

variable {opened : List DocId} {x y : Datum} {id : DocId}

/-- A doc is not inside itself. -/
theorem not_mem (h : m.Encloses opened x) (hx : m.Holds Eq x (.doc id)) : id ∉ opened := by
  intro hid
  obtain ⟨y, hy, hlt⟩ := h id hid
  rw [hx.unique hy] at hlt
  exact Nat.lt_irrefl _ hlt

theorem cons (h : m.Encloses opened x) (hx : m.Holds Eq x (.doc id)) (hlt : sizeOf y < sizeOf x) :
    m.Encloses (id :: opened) y := by
  refine List.forall_mem_cons.2 ⟨⟨x, hx, hlt⟩, fun i hi => ?_⟩
  obtain ⟨z, hz, hz'⟩ := h i hi
  exact ⟨z, hz, Nat.lt_trans hlt hz'⟩

end Encloses

theorem render_plain {v : Value} (h : ∀ id, v ≠ .doc id) (n : Nat) (opened : List DocId) :
    m.render n opened v = v.plain := by
  cases v with
  | doc id => exact absurd rfl (h id)
  | _ => cases n <;> rfl

theorem render_key {k : Key} (h : k.Plain) (n : Nat) (opened : List DocId) :
    m.render n opened k.toValue = k.literal.print := by
  rw [Key.print_literal h]
  refine render_plain ?_ n opened
  cases k with
  | ref v => exact h.elim
  | _ => exact nofun

/-- A doc that is not open yet is rendered with one unit of fuel less for what it encloses. -/
theorem render_doc {n : Nat} {opened : List DocId} {id : DocId} {d : Doc} (hid : id ∉ opened)
    (hd : m.doc? id = some d) : m.render (n + 1) opened (.doc id) = m.renderDoc (m.render n (id :: opened)) d := by
  rw [render, if_neg hid, hd]

mutual

/-- As much fuel as there is in the content is enough. -/
theorem render_datum : ∀ {x : Datum} {v : Value} {n : Nat} {opened : List DocId}, m.Holds Eq x v → x.Plain →
    m.Encloses opened x → sizeOf x ≤ n → m.render n opened v = x.expr.print
  | .none, v, n, opened, h, _, _, _ => by
    obtain rfl : v = .none := h
    rw [render_plain (v := .none) nofun]
    rfl
  | .bool b, v, n, opened, h, _, _, _ => by
    obtain rfl : v = .bool b := h
    rw [render_plain (v := .bool b) nofun]
    cases b <;> rfl
  | .num a, v, n, opened, h, hp, _, _ => by
    obtain ⟨_, rfl, rfl⟩ := h
    rw [render_plain (v := .num a) nofun, Datum.expr, Number.print_literal hp]
    rfl
  | .str s, v, n, opened, h, _, _, _ => by
    obtain rfl : v = .str s := h
    rw [render_plain (v := .str s) nofun]
    rfl
  | .list items, v, n, opened, h, hp, he, hn => by
    have hx := h
    obtain ⟨id, d, rfl, hd, ha, -, hv⟩ := h
    obtain ⟨n, rfl⟩ : ∃ k, n = k + 1 := ⟨n - 1, by rw [Datum.list.sizeOf_spec] at hn; omega⟩
    have hitems := renderEach_data hv hp fun y hy =>
      ⟨he.cons hx (Datum.sizeOf_lt_list hy), Nat.le_of_lt_succ (Nat.lt_of_lt_of_le (Datum.sizeOf_lt_list hy) hn)⟩
    rw [render_doc (he.not_mem hx) hd, renderDoc, if_pos ha, renderArray, Datum.expr, Expr.print, ← hitems,
      Doc.toList, List.map_map, List.map_map]
    rfl
  | .dict entries, v, n, opened, h, hp, he, hn => by
    have hx := h
    obtain ⟨id, d, rfl, hd, hproto, hv⟩ := h
    obtain ⟨n, rfl⟩ : ∃ k, n = k + 1 := ⟨n - 1, by rw [Datum.dict.sizeOf_spec] at hn; omega⟩
    have hentries := renderEntries_data hv hp fun y hy =>
      ⟨he.cons hx (Datum.sizeOf_lt_dict hy), Nat.le_of_lt_succ (Nat.lt_of_lt_of_le (Datum.sizeOf_lt_dict hy) hn)⟩
    rw [render_doc (he.not_mem hx) hd, renderDoc, isArray_eq_false hproto, if_neg (by decide), renderDict, Datum.expr,
      Expr.print, ← hentries, Doc.toList, List.map_map]
    rfl

theorem renderEach_data : ∀ {xs : List Datum} {vs : List Value} {n : Nat} {opened : List DocId},
    m.HoldsEach Eq xs vs → DataPlain xs → (∀ x ∈ xs, m.Encloses opened x ∧ sizeOf x ≤ n) →
      vs.map (m.render n opened) = printExprs (itemExprs xs)
  | [], vs, n, opened, h, _, _ => by
    obtain rfl : vs = [] := h
    rfl
  | x :: xs, vs, n, opened, h, hp, he => by
    obtain ⟨v, rest, rfl, hx, hxs⟩ := h
    obtain ⟨hex, hexs⟩ := List.forall_mem_cons.1 he
    rw [List.map_cons, render_datum hx hp.1 hex.1 hex.2, renderEach_data hxs hp.2 hexs]
    rfl

theorem renderEntries_data : ∀ {xs : List (Key × Datum)} {es : List (Key × Value)} {n : Nat} {opened : List DocId},
    m.HoldsEntries Eq xs es → EntriesPlain xs → (∀ x ∈ xs, m.Encloses opened x.2 ∧ sizeOf x.2 ≤ n) →
      es.map (fun e => m.render n opened e.1.toValue ++ ": " ++ m.render n opened e.2) = printEntries (entryExprs xs)
  | [], es, n, opened, h, _, _ => by
    obtain rfl : es = [] := h
    rfl
  | (k, x) :: xs, es, n, opened, h, hp, he => by
    obtain ⟨v, rest, rfl, hx, hxs⟩ := h
    obtain ⟨hex, hexs⟩ := List.forall_mem_cons.1 he
    rw [List.map_cons, render_key hp.1.1, render_datum hx hp.1.2 hex.1 hex.2, renderEntries_data hxs hp.2 hexs]
    rfl

end

/-- A value other than a string is displayed as the text of the expression of its content. -/
theorem display_eq {x : Datum} {v : Value} (h : m.Holds Eq x v) (hp : x.Plain) (hs : ∀ s, x ≠ .str s) :
    m.display v = x.expr.print := by
  have hv : ∀ s, v ≠ .str s := by
    rintro s rfl
    exact hs s (h.unique rfl)
  have hrender : m.render (m.heap.docs.size + 1) [] v = x.expr.print := by
    rw [← render_eq_of_size_lt (show m.heap.docs.size < m.heap.docs.size + 1 + sizeOf x by omega)]
    exact render_datum h hp (by simp [Encloses]) (Nat.le_add_left _ _)
  cases v with
  | str s => exact absurd rfl (hv s)
  | _ => exact hrender

end Machine

end DocScript
