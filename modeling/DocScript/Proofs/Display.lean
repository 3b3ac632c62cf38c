import DocScript.Machine.Display
import Mathlib.Data.List.Perm.Subperm

/-!
# Displaying goes as deep as it needs to

Docs can enclose each other in cycles, so displaying goes with a list of the docs that are open, and
with a bound on how many can be inside each other. The open docs are all different, so there are no more
of them than docs on the heap. The bound is therefore never reached : a larger one gives the same text
(`Machine.render_eq_of_size_lt`).
-/

namespace DocScript

variable {σ : Type}

namespace Machine

/-- The docs that are open while a value is displayed : each is there once, and on the heap. -/
structure Opened (m : Machine σ) (opened : List DocId) : Prop where
  nodup : opened.Nodup
  lt_size : ∀ id ∈ opened, id < m.heap.docs.size

variable {m : Machine σ} {opened : List DocId}

theorem opened_nil : m.Opened [] := ⟨List.nodup_nil, by simp⟩

theorem Opened.cons (h : m.Opened opened) {id : DocId} {d : Doc} (hid : id ∉ opened)
    (hd : m.doc? id = some d) : m.Opened (id :: opened) where
  nodup := List.nodup_cons.2 ⟨hid, h.nodup⟩
  lt_size := List.forall_mem_cons.2 ⟨(Array.getElem?_eq_some_iff.1 hd).1, h.lt_size⟩

theorem Opened.length_le (h : m.Opened opened) : opened.length ≤ m.heap.docs.size := by
  have hsub : opened ⊆ List.range m.heap.docs.size := fun id hid => List.mem_range.2 (h.lt_size id hid)
  simpa using (List.subperm_of_subset h.nodup hsub).length_le

/-- Two bounds that leave room for all docs which are not open yet give the same text. -/
theorem render_eq : ∀ {n n' : Nat} {opened : List DocId}, m.Opened opened →
    m.heap.docs.size < opened.length + n → m.heap.docs.size < opened.length + n' →
      m.render n opened = m.render n' opened
  | 0, _, _, h, hn, _ => absurd h.length_le (by omega)
  | _, 0, _, h, _, hn' => absurd h.length_le (by omega)
  | n + 1, n' + 1, opened, h, hn, hn' => by
    funext v
    cases v with
    | doc id =>
      rw [render, render]
      split
      · rfl
      · next hid =>
        cases hd : m.doc? id with
        | none => rfl
        | some d =>
          have hlen : (id :: opened).length = opened.length + 1 := rfl
          have inner : m.render n (id :: opened) = m.render n' (id :: opened) :=
            render_eq (h.cons hid hd) (by omega) (by omega)
          simp only [inner]
    | _ => rfl

/-- The bound that `display` uses is never reached. -/
theorem render_eq_of_size_lt {n : Nat} (hn : m.heap.docs.size < n) (v : Value) :
    m.render n [] v = m.render (m.heap.docs.size + 1) [] v :=
  congrFun (render_eq opened_nil (by simpa using hn) (by simp)) v

end Machine

end DocScript
