import DocScript.Text.Source
import Mathlib.Data.List.Induction
import Mathlib.Order.Basic

/-!
# Positions and offsets

The positions of a text are in linear order, and characters lead from one to the next. A position is also a number of
bytes : `Source.lineIndex` says at which offset each line begins, and `Source.Places` that a position is the place
between two parts of the text, with the line and the offset that belong to it.
-/

namespace DocScript

namespace Pos

instance : LT Pos := ⟨fun a b => a.line < b.line ∨ a.line = b.line ∧ a.col < b.col⟩

theorem le_def {a b : Pos} : a ≤ b ↔ a.line < b.line ∨ a.line = b.line ∧ a.col ≤ b.col := Iff.rfl

theorem lt_def {a b : Pos} : a < b ↔ a.line < b.line ∨ a.line = b.line ∧ a.col < b.col := Iff.rfl

instance : LinearOrder Pos where
  lt_iff_le_not_ge a b := by
    simp only [le_def, lt_def]
    omega
  le_refl a := .inr ⟨rfl, Nat.le_refl _⟩
  le_trans a b c hab hbc := by
    simp only [le_def] at *
    omega
  le_antisymm a b hab hba := by
    obtain ⟨l, c⟩ := a
    obtain ⟨l', c'⟩ := b
    simp only [le_def] at hab hba
    rw [Pos.mk.injEq]
    omega
  le_total a b := by
    simp only [le_def]
    omega
  toDecidableLE := inferInstance
  toDecidableEq := inferInstance
  min_def _ _ := rfl
  max_def _ _ := rfl

theorem line_le {a b : Pos} (h : a ≤ b) : a.line ≤ b.line := by
  rw [le_def] at h
  omega

theorem lt_after (p : Pos) (c : Char) : p < p.after c := by
  have hc := c.utf8Size_pos
  rw [lt_def, after]
  split
  · exact .inl (Nat.lt_succ_self _)
  · exact .inr ⟨rfl, by dsimp only; omega⟩

theorem le_advance (p : Pos) (cs : List Char) : p ≤ p.advance cs := by
  induction cs generalizing p with
  | nil => exact le_refl p
  | cons c cs ih => exact (p.lt_after c).le.trans (ih (p.after c))

theorem lt_advance (p : Pos) {cs : List Char} (h : cs ≠ []) : p < p.advance cs := by
  cases cs with
  | nil => exact absurd rfl h
  | cons c cs => exact lt_of_lt_of_le (p.lt_after c) ((p.after c).le_advance cs)

theorem line_lt_advance (p : Pos) {cs : List Char} (h : '\n' ∈ cs) : p.line < (p.advance cs).line := by
  induction cs generalizing p with
  | nil => simp at h
  | cons c cs ih =>
    rw [advance_cons]
    rcases List.mem_cons.1 h with rfl | h
    · exact line_le ((p.after '\n').le_advance cs)
    · exact Nat.lt_of_le_of_lt (line_le (p.lt_after c).le) (ih _ h)

theorem col_pos_after {p : Pos} (h : 1 ≤ p.col) (c : Char) : 1 ≤ (p.after c).col := by
  unfold after
  split
  · exact Nat.le_refl 1
  · exact Nat.le_trans h (Nat.le_add_right _ _)

theorem col_pos_advance {p : Pos} (h : 1 ≤ p.col) (cs : List Char) : 1 ≤ (p.advance cs).col := by
  induction cs generalizing p with
  | nil => exact h
  | cons c cs ih => exact ih (col_pos_after h c)

/-- Behind a character that is no line feed there is a column before. -/
theorem one_lt_col_advance {p : Pos} (h : 1 ≤ p.col) {cs : List Char} {c : Char} (hl : cs.getLast? = some c)
    (hc : c ≠ '\n') : 1 < (p.advance cs).col := by
  obtain ⟨ds, rfl⟩ := List.getLast?_eq_some_iff.1 hl
  have hcol := col_pos_advance h ds
  have hsize := c.utf8Size_pos
  rw [advance_append, advance_cons, advance_nil, after, if_neg hc]
  dsimp only
  omega

theorem le_lastOf {p q : Pos} (h : p < q) : p ≤ q.lastOf := by
  rw [lt_def] at h
  simp only [le_def, lastOf]
  omega

theorem lastOf_le {p : Pos} (h : 1 ≤ p.col) : p.lastOf ≤ p :=
  .inr ⟨rfl, Nat.max_le.2 ⟨Nat.sub_le _ _, h⟩⟩

theorem lastOf_lt {p : Pos} (h : 1 < p.col) : p.lastOf < p :=
  .inr ⟨rfl, Nat.max_lt.2 ⟨Nat.sub_lt (Nat.lt_of_succ_lt h) Nat.one_pos, h⟩⟩

end Pos

/-! ## Offsets -/

/-- How many bytes a text has. -/
def byteSize (cs : List Char) : Nat := (String.ofList cs).utf8ByteSize

@[simp] theorem byteSize_nil : byteSize [] = 0 := by simp [byteSize]

@[simp] theorem byteSize_append (as bs : List Char) : byteSize (as ++ bs) = byteSize as + byteSize bs := by
  simp [byteSize]

@[simp] theorem byteSize_singleton (c : Char) : byteSize [c] = c.utf8Size := by
  simp [byteSize]

/-- The offsets behind the line feeds of a text that begins at the offset `o`. -/
def lineIndexFrom (o : Nat) : List Char → List Nat
  | [] => []
  | c :: cs => if c = '\n' then (o + 1) :: lineIndexFrom (o + 1) cs else lineIndexFrom (o + c.utf8Size) cs

theorem lineIndexFrom_append (o : Nat) (as bs : List Char) :
    lineIndexFrom o (as ++ bs) = lineIndexFrom o as ++ lineIndexFrom (o + byteSize as) bs := by
  induction as generalizing o with
  | nil => simp [lineIndexFrom]
  | cons c as ih =>
    have hsize : byteSize (c :: as) = c.utf8Size + byteSize as := by
      rw [← List.singleton_append, byteSize_append, byteSize_singleton]
    simp only [List.cons_append, lineIndexFrom, hsize]
    split
    · next hc =>
      have hone : c.utf8Size = 1 := by rw [hc]; rfl
      rw [ih, hone, Nat.add_assoc, List.cons_append]
    · rw [ih, Nat.add_assoc]

namespace Source

/-- The offsets at which the lines begin. -/
def lineIndex (s : Source) : List Nat := 0 :: lineIndexFrom 0 s.text.toList

/-- The last line of a text begins at the offset that its position says. -/
theorem exists_lineIndex (front : List Char) :
    ∃ is o, 0 :: lineIndexFrom 0 front = is ++ [o] ∧ (Pos.start.advance front).line = is.length + 1 ∧
      o + ((Pos.start.advance front).col - 1) = byteSize front := by
  induction front using List.reverseRecOn with
  | nil => exact ⟨[], 0, rfl, rfl, by simp [Pos.advance_nil, Pos.start]⟩
  | append_singleton front c ih =>
    obtain ⟨is, o, hi, hl, ho⟩ := ih
    have hcol := Pos.col_pos_advance (p := .start) (Nat.le_refl 1) front
    rw [lineIndexFrom_append, ← List.cons_append, hi, Pos.advance_append, Pos.advance_cons, Pos.advance_nil,
      byteSize_append, byteSize_singleton, Nat.zero_add]
    by_cases hc : c = '\n'
    · refine ⟨is ++ [o], byteSize front + 1, ?_, ?_, ?_⟩
      · simp [lineIndexFrom, hc]
      · simp [Pos.after, hc, hl]
      · have hone : c.utf8Size = 1 := by rw [hc]; rfl
        simp [Pos.after, hc, ← hone]
    · refine ⟨is, o, ?_, ?_, ?_⟩
      · simp [lineIndexFrom, hc]
      · simp [Pos.after, hc, hl]
      · simp only [Pos.after, if_neg hc]
        omega

/-! ## Lines -/

theorem splitLines_cons (c : Char) (cs : List Char) :
    splitLines (c :: cs) = if c = '\n' then [] :: splitLines cs else consLine c (splitLines cs) := rfl

/-- The first line of a text. -/
theorem exists_splitLines (rest : List Char) : ∃ ms, splitLines rest = rest.takeWhile (· ≠ '\n') :: ms := by
  induction rest with
  | nil => exact ⟨[], rfl⟩
  | cons c rest ih =>
    obtain ⟨ms, hm⟩ := ih
    rw [splitLines_cons, hm]
    by_cases hc : c = '\n'
    · exact ⟨rest.takeWhile (· ≠ '\n') :: ms, by simp [hc]⟩
    · exact ⟨ms, by simp [hc, consLine]⟩

/-- The last line of a text, and that it goes on with the first line of what follows. -/
theorem exists_splitLines_append (front : List Char) : ∃ ls l, splitLines front = ls ++ [l] ∧
    front = ls.flatMap (· ++ ['\n']) ++ l ∧
    ∀ rest m ms, splitLines rest = m :: ms → splitLines (front ++ rest) = ls ++ (l ++ m) :: ms := by
  induction front with
  | nil => exact ⟨[], [], rfl, rfl, fun _ _ _ h => h⟩
  | cons c front ih =>
    obtain ⟨ls, l, hf, ht, hr⟩ := ih
    by_cases hc : c = '\n'
    · refine ⟨[] :: ls, l, ?_, ?_, fun rest m ms h => ?_⟩
      · rw [splitLines_cons, if_pos hc, hf, List.cons_append]
      · simp [hc, ← ht]
      · rw [List.cons_append, splitLines_cons, if_pos hc, hr rest m ms h, List.cons_append]
    · cases ls with
      | nil =>
        refine ⟨[], c :: l, ?_, congrArg (c :: ·) ht, fun rest m ms h => ?_⟩
        · rw [splitLines_cons, if_neg hc, hf]
          rfl
        · rw [List.cons_append, splitLines_cons, if_neg hc, hr rest m ms h]
          rfl
      | cons k ls =>
        refine ⟨(c :: k) :: ls, l, ?_, congrArg (c :: ·) ht, fun rest m ms h => ?_⟩
        · rw [splitLines_cons, if_neg hc, hf]
          rfl
        · rw [List.cons_append, splitLines_cons, if_neg hc, hr rest m ms h]
          rfl

/-- The last line of a text ends at its position. -/
theorem advance_splitLines {front : List Char} {ls : List (List Char)} {l : List Char}
    (h : splitLines front = ls ++ [l]) : Pos.start.advance front = ⟨ls.length + 1, byteSize l + 1⟩ := by
  induction front using List.reverseRecOn generalizing ls l with
  | nil =>
    obtain ⟨rfl, hl⟩ := List.append_inj' (show [] ++ [[]] = ls ++ [l] from h) rfl
    obtain rfl := List.singleton_inj.1 hl
    simp [Pos.advance_nil, Pos.start]
  | append_singleton front c ih =>
    obtain ⟨ks, k, hf, -, hr⟩ := exists_splitLines_append front
    rw [Pos.advance_append, ih hf, Pos.advance_cons, Pos.advance_nil]
    by_cases hc : c = '\n'
    · rw [hr [c] [] [[]] (by simp [splitLines, hc]), List.append_nil, List.append_cons] at h
      obtain ⟨rfl, hl⟩ := List.append_inj' h rfl
      obtain rfl := List.singleton_inj.1 hl
      simp [Pos.after, hc]
    · rw [hr [c] [c] [] (by simp [splitLines, consLine, hc])] at h
      obtain ⟨rfl, hl⟩ := List.append_inj' h rfl
      obtain rfl := List.singleton_inj.1 hl
      simp [Pos.after, hc, Nat.add_right_comm]

theorem length_lineIndex (s : Source) : s.lineIndex.length = s.lineCount := by
  obtain ⟨is, o, hi, hline, -⟩ := exists_lineIndex s.text.toList
  obtain ⟨ls, l, hf, -⟩ := exists_splitLines_append s.text.toList
  rw [advance_splitLines hf] at hline
  rw [lineIndex, hi, lineCount, lines, hf, List.length_append, List.length_append, Nat.succ.inj hline]
  rfl

/-- The position `p` is the place between the parts `front` and `rest` of the text : it is on an existing line, at the
offset where `rest` begins, and the line goes on with the first line of `rest` there. -/
structure Places (s : Source) (p : Pos) (front rest : List Char) : Prop where
  text : s.text.toList = front ++ rest
  line_pos : 1 ≤ p.line
  line_le : p.line ≤ s.lineCount
  col_pos : 1 ≤ p.col
  offset : ∃ o, s.lineIndex[p.line - 1]? = some o ∧ o + (p.col - 1) = byteSize front
  line : ∃ before, before <:+ front ∧ byteSize before = p.col - 1 ∧
    s.lines[p.line - 1]? = some (before ++ rest.takeWhile (· ≠ '\n'))

theorem places_advance (s : Source) {front rest : List Char} (h : s.text.toList = front ++ rest) :
    s.Places (Pos.start.advance front) front rest := by
  obtain ⟨is, o, hi, hline, ho⟩ := exists_lineIndex front
  obtain ⟨ls, l, hf, ht, hr⟩ := exists_splitLines_append front
  obtain ⟨ms, hm⟩ := exists_splitLines rest
  have hlines : s.lines = _ := (congrArg splitLines h).trans (hr rest _ _ hm)
  have hindex : s.lineIndex = is ++ [o] ++ lineIndexFrom (0 + byteSize front) rest := by
    rw [lineIndex, h, lineIndexFrom_append, ← List.cons_append, hi]
  have hp := advance_splitLines hf
  have hlen : ls.length = is.length := by
    rw [hp] at hline
    exact Nat.succ.inj hline
  refine ⟨h, ?_, ?_, ?_, ⟨o, ?_, ho⟩, l, ⟨_, ht.symm⟩, ?_, ?_⟩
  · rw [hp]
    exact Nat.le_add_left 1 _
  · rw [hp, lineCount, hlines, List.length_append]
    exact Nat.add_le_add_left (by simp) _
  · rw [hp]
    exact Nat.le_add_left 1 _
  · simp [hline, hindex]
  · simp [hp]
  · simp [hp, hlines]

end Source

end DocScript
