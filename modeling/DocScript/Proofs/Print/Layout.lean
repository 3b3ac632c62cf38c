import DocScript.Proofs.Print.Outline

/-!
# The layout of printed lines

Printed code is indented by four blanks for each block that it stands in, and every line of it can end. So
the line structure is in one of two states between its pieces : at the start of a line of depth `d`
(`Layout.Fresh d`), or behind a lexeme that can end a line, with `d` blocks open (`Layout.Open d`).

The marks that close a line, and the blocks that end with it, are written in front of the next line, when
its depth is known. `Emits ps ks d` takes account of this : the pieces `ps` of code of depth `d` have the tokens
`ks`, of which those that close the last line and its blocks are still due. Code is put together by
`Emits.next`, one line below the other, and by `Emits.block`, a head with an indented block below it.
-/

namespace DocScript

/-- The widths of the blocks that are open in code of depth `d`. -/
def levelsAt : Nat → List Nat
  | 0 => [0]
  | d + 1 => 4 * (d + 1) :: levelsAt d

theorem headD_levelsAt (d : Nat) : (levelsAt d).headD 0 = 4 * d := by
  cases d <;> rfl

namespace Layout

/-- Behind a lexeme that can end a line of printed code, with `d` blocks open. -/
structure Open (d : Nat) (l : Layout) : Prop where
  levels : l.levels = levelsAt d
  style : l.style ≠ some .tabs
  lineOpen : l.lineOpen = true
  depth : l.depth = 0

/-- At the start of a line of printed code of depth `d`, behind its blanks. -/
structure Fresh (d : Nat) (l : Layout) : Prop where
  levels : l.levels = levelsAt d
  style : l.style ≠ some .tabs
  lineOpen : l.lineOpen = false
  lineStart : l.lineStart = true
  depth : l.depth = 0

theorem fresh_start : Fresh 0 .start := ⟨rfl, nofun, rfl, rfl, rfl⟩

/-! ## Marks -/

theorem settle_self (d : Nat) : settle (4 * d) (levelsAt d) = [] := by
  cases d <;> simp [levelsAt, settle]

theorem settle_deeper (d : Nat) : settle (4 * (d + 1)) (levelsAt d) = [(.indent, levelsAt (d + 1))] := by
  cases d with
  | zero => rfl
  | succ d =>
    rw [levelsAt, settle, if_neg (by omega), if_pos (by omega)]
    rfl

/-- Falling back by `j` blocks closes them one after the other. -/
theorem settle_back (d : Nat) : ∀ j, (settle (4 * d) (levelsAt (d + j))).map Prod.fst = List.replicate j .dedent ∧
    ((settle (4 * d) (levelsAt (d + j))).getLast?.map Prod.snd).getD (levelsAt (d + j)) = levelsAt d
  | 0 => by
    rw [Nat.add_zero, settle_self]
    exact ⟨rfl, rfl⟩
  | j + 1 => by
    obtain ⟨hk, hl⟩ := settle_back d j
    have hs : settle (4 * d) (levelsAt (d + (j + 1))) =
        (.dedent, levelsAt (d + j)) :: settle (4 * d) (levelsAt (d + j)) := by
      rw [← Nat.add_assoc, levelsAt, settle, if_pos (by omega), headD_levelsAt, if_neg (by omega)]
    rw [hs, List.map_cons, hk, List.replicate_succ]
    refine ⟨rfl, ?_⟩
    cases hm : settle (4 * d) (levelsAt (d + j)) with
    | nil => simpa [hm] using hl
    | cons m marks =>
      rw [hm, List.getLast?_eq_some_getLast (by simp)] at hl
      rw [List.getLast?_cons_cons, List.getLast?_eq_some_getLast (by simp)]
      exact hl

theorem adopt_spaced {style : Option IndentStyle} (h : style ≠ some .tabs) (w : Nat) :
    ∃ style', adopt style (.spaced w) = .ok style' ∧ style' ≠ some .tabs := by
  unfold adopt styleOf
  by_cases hw : w = 0
  · exact ⟨style, by simp [Leading.spaced, hw], h⟩
  · cases style with
    | none => exact ⟨some .spaces, by simp [Leading.spaced, hw], by decide⟩
    | some st =>
      cases st with
      | spaces => exact ⟨some .spaces, by simp [Leading.spaced, hw], by decide⟩
      | tabs => exact absurd rfl h

/-- The marks in front of the next line, or in front of the end of the text. -/
theorem Open.enter_eq {l : Layout} {d : Nat} (h : l.Open d) {entered : Option Leading} {atEnd : Bool} {w : Nat}
    (he : entered = some (.spaced w) ∨ entered = none ∧ atEnd = true ∧ w = 0) :
    ∃ style, style ≠ some .tabs ∧ l.enter entered atEnd =
      ((.newline, l.endLine) :: { l.endLine with style }.blocks (if atEnd then 0 else w),
        { l.endLine with style }.behind ({ l.endLine with style }.blocks (if atEnd then 0 else w))) := by
  rcases he with rfl | ⟨rfl, rfl, rfl⟩
  · obtain ⟨style, hs, hst⟩ := adopt_spaced h.style w
    have hends : l.ends (some (.spaced w)) atEnd = true := by simp [ends, h.lineOpen, h.depth]
    have hmeas : l.measured (some (.spaced w)) = some (.spaced w) := by simp [measured, h.lineOpen, h.depth]
    refine ⟨style, hst, ?_⟩
    rw [enter]
    simp only [hends, if_true, hmeas, hs]
    rfl
  · have hends : l.ends none true = true := by simp [ends, h.lineOpen, h.depth]
    refine ⟨l.style, h.style, ?_⟩
    rw [enter]
    simp only [hends, if_true, measured]
    simp [endLine]

theorem map_fst_blocks (l : Layout) (w : Nat) : (l.blocks w).map Prod.fst = (settle w l.levels).map Prod.fst := by
  simp [blocks, Function.comp_def]

/-- The next line, if its blanks lead to the depth `d`. -/
theorem Open.enter_line {l : Layout} {d₀ d w : Nat} (h : l.Open d₀)
    (hd : ((settle w (levelsAt d₀)).getLast?.map Prod.snd).getD (levelsAt d₀) = levelsAt d) :
    (l.enter (some (.spaced w)) false).1.map Prod.fst = .newline :: (settle w (levelsAt d₀)).map Prod.fst ∧
      (l.enter (some (.spaced w)) false).2.Fresh d := by
  obtain ⟨style, hst, he⟩ := @Open.enter_eq l d₀ h (some (.spaced w)) false w (.inl rfl)
  have hlevels : ({ l.endLine with style } : Layout).levels = levelsAt d₀ := h.levels
  simp only [Bool.false_eq_true, if_false] at he
  rw [he, List.map_cons, map_fst_blocks, hlevels, behind_blocks]
  refine ⟨rfl, ?_, hst, rfl, rfl, h.depth⟩
  change (Layout.behind _ _).levels = _
  rw [levels_behind_blocks]
  exact hd

/-- At the end of the text all blocks are closed. -/
theorem Open.enter_end {l : Layout} {d : Nat} (h : l.Open d) :
    (l.enter none true).1.map Prod.fst = .newline :: List.replicate d .dedent := by
  obtain ⟨style, -, he⟩ := @Open.enter_eq l d h none true 0 (.inr ⟨rfl, rfl, rfl⟩)
  have hlevels : ({ l.endLine with style } : Layout).levels = levelsAt d := h.levels
  simp only [if_true] at he
  have hk := (settle_back 0 d).1
  rw [Nat.zero_add] at hk
  rw [he, List.map_cons, map_fst_blocks, hlevels, hk]

/-! ## Lexemes -/

/-- Inside a line, and behind the blanks of its start, no marks are due. -/
theorem enter_none {l : Layout} (h : l.levels ≠ []) : l.enter none false = ([], l) := by
  obtain ⟨level, outer, hl⟩ := List.exists_cons_of_ne_nil h
  have hends : l.ends none false = false := by simp [ends]
  rw [enter]
  simp [hends, measured, blocks, top, hl, settle_top, behind]

/-- The state behind several lexemes. -/
def afterAll (l : Layout) (ks : List TokenKind) : Layout := ks.foldl after l

end Layout

/-- Tokens that can be read, with as many brackets closed as opened. -/
structure Balanced (ks : List TokenKind) : Prop where
  sound : ∀ k ∈ ks, k.isError = false
  bracket : ∀ depth, ks.foldl Layout.bracket depth = depth

/-- The last of the tokens can end a line. -/
def EndsLine (ks : List TokenKind) : Prop := ks.getLast?.any TokenKind.canEndLine = true

namespace Balanced

variable {ks ks' : List TokenKind}

theorem nil : Balanced [] := ⟨nofun, fun _ => rfl⟩

theorem append (h : Balanced ks) (h' : Balanced ks') : Balanced (ks ++ ks') where
  sound k hk := (List.mem_append.1 hk).elim (h.sound k) (h'.sound k)
  bracket depth := by rw [List.foldl_append, h.bracket, h'.bracket]

/-- A token that is no bracket. -/
theorem cons {k : TokenKind} (hk : k.isError = false) (hb : ∀ depth, Layout.bracket depth k = depth)
    (h : Balanced ks) : Balanced (k :: ks) where
  sound := List.forall_mem_cons.2 ⟨hk, h.sound⟩
  bracket depth := by rw [List.foldl_cons, hb, h.bracket]

/-- Tokens between two brackets. -/
theorem enclosed {k k' : TokenKind} (hk : k.isError = false) (hk' : k'.isError = false)
    (hb : ∀ depth, Layout.bracket depth k = depth + 1) (hb' : ∀ depth, Layout.bracket (depth + 1) k' = depth)
    (h : Balanced ks) : Balanced (k :: (ks ++ [k'])) where
  sound := List.forall_mem_cons.2 ⟨hk, fun x hx => by
    rcases List.mem_append.1 hx with hx | hx
    · exact h.sound x hx
    · obtain rfl : x = k' := by simpa using hx
      exact hk'⟩
  bracket depth := by
    rw [List.foldl_cons, hb, List.foldl_append, h.bracket]
    exact hb' depth

end Balanced

theorem EndsLine.append {ks' : List TokenKind} (ks : List TokenKind) (h : EndsLine ks') : EndsLine (ks ++ ks') := by
  unfold EndsLine at h ⊢
  rw [List.getLast?_append]
  cases hl : ks'.getLast? with
  | none => simp [hl] at h
  | some k => simpa [hl] using h

theorem EndsLine.cons {ks : List TokenKind} (k : TokenKind) (h : EndsLine ks) : EndsLine (k :: ks) := h.append [k]

namespace Layout

theorem levels_afterAll (l : Layout) (ks : List TokenKind) : (l.afterAll ks).levels = l.levels := by
  induction ks generalizing l with
  | nil => rfl
  | cons k ks ih => exact (ih (l.after k)).trans (levels_after l k)

theorem after_sound {k : TokenKind} (h : k.isError = false) (l : Layout) :
    l.after k = { l with depth := bracket l.depth k, lineOpen := k.canEndLine, lineStart := false } := by
  simp [after, h]

theorem afterAll_sound {ks : List TokenKind} (h : ∀ k ∈ ks, k.isError = false) (l : Layout) :
    (l.afterAll ks).style = l.style ∧ (l.afterAll ks).depth = ks.foldl bracket l.depth ∧
      (EndsLine ks → (l.afterAll ks).lineOpen = true) := by
  induction ks generalizing l with
  | nil => exact ⟨rfl, rfl, nofun⟩
  | cons k ks ih =>
    obtain ⟨hk, hks⟩ := List.forall_mem_cons.1 h
    obtain ⟨hs, hd, ho⟩ := ih hks (l.after k)
    rw [after_sound hk] at hs hd ho
    have hall : l.afterAll (k :: ks) =
        afterAll { l with depth := bracket l.depth k, lineOpen := k.canEndLine, lineStart := false } ks := by
      rw [afterAll, List.foldl_cons, after_sound hk]
      rfl
    rw [hall]
    refine ⟨hs, hd, fun he => ?_⟩
    cases ks with
    | nil => simpa [EndsLine, afterAll] using he
    | cons k' ks => exact ho (by simpa [EndsLine] using he)

/-- A line that was written can end. -/
theorem Fresh.written {l : Layout} {d : Nat} {ks : List TokenKind} (h : l.Fresh d) (hb : Balanced ks)
    (he : EndsLine ks) : (l.afterAll ks).Open d := by
  obtain ⟨hs, hd, ho⟩ := afterAll_sound hb.sound l
  refine ⟨(l.levels_afterAll ks).trans h.levels, hs ▸ h.style, ho he, ?_⟩
  rw [hd, hb.bracket]
  exact h.depth

theorem Fresh.levels_ne_nil {l : Layout} {d : Nat} (h : l.Fresh d) : l.levels ≠ [] := by
  rw [h.levels]
  cases d <;> exact List.cons_ne_nil _ _

end Layout

theorem kindsFrom_words {l : Layout} (h : l.levels ≠ []) (ks : List TokenKind) (ps : List Piece) :
    kindsFrom l none (words ks ++ ps) = ks ++ kindsFrom (l.afterAll ks) none ps := by
  induction ks generalizing l with
  | nil => rfl
  | cons k ks ih =>
    rw [words_cons, List.cons_append, kindsFrom, Layout.enter_none h, ih (Layout.levels_after l k ▸ h)]
    rfl

/-- In front of a lexeme, the marks of its line can be split off. -/
theorem kindsFrom_line {l : Layout} {d : Nat} {blanks : Leading} (h : (l.enter (some blanks) false).2.Fresh d)
    (k : TokenKind) (ps : List Piece) :
    kindsFrom l none (.line blanks :: .word k :: ps) =
      (l.enter (some blanks) false).1.map Prod.fst ++
        kindsFrom (l.enter (some blanks) false).2 none (.word k :: ps) := by
  rw [kindsFrom, kindsFrom, kindsFrom, Layout.enter_none h.levels_ne_nil]
  rfl

/-! ## Code of a depth -/

/-- The pieces `ps` of code of depth `d` have the tokens `ks`. Those at the end of `ks` that close the last line
and the blocks that it stands in are still due behind the pieces. -/
structure Emits (ps : List Piece) (ks : List TokenKind) (d : Nat) : Prop where
  starts : ∃ k qs, ps = .word k :: qs
  sound : ∀ k ∈ ks, k.isError = false
  run : ∀ l : Layout, l.Fresh d → ∃ core j l', l'.Open (d + j) ∧
    ks = core ++ .newline :: List.replicate j .dedent ∧
      ∀ qs, kindsFrom l none (ps ++ qs) = core ++ kindsFrom l' none qs

namespace Emits

variable {ps qs : List Piece} {hs ks ks' : List TokenKind} {d : Nat}

/-- A single line. -/
theorem line (hb : Balanced ks) (he : EndsLine ks) : Emits (words ks) (ks ++ [.newline]) d where
  starts := by
    cases ks with
    | nil => nomatch he
    | cons k ks => exact ⟨k, words ks, rfl⟩
  sound := List.forall_mem_append.2 ⟨hb.sound, by simp [TokenKind.isError]⟩
  run l hl := ⟨ks, 0, l.afterAll ks, hl.written hb he, rfl, kindsFrom_words hl.levels_ne_nil ks⟩

/-- Code below other code of the same depth. -/
theorem next (h : Emits ps ks d) (h' : Emits qs ks' d) :
    Emits (ps ++ .line (.spaced (4 * d)) :: qs) (ks ++ ks') d where
  starts := by
    obtain ⟨k, ps', rfl⟩ := h.starts
    exact ⟨k, _, rfl⟩
  sound := List.forall_mem_append.2 ⟨h.sound, h'.sound⟩
  run l hl := by
    obtain ⟨core, j, l₁, hl₁, rfl, hrun⟩ := h.run l hl
    obtain ⟨hmarks, hfresh⟩ := hl₁.enter_line (Layout.settle_back d j).2
    obtain ⟨core', j', l₂, hl₂, rfl, hrun'⟩ := h'.run _ hfresh
    refine ⟨core ++ .newline :: List.replicate j .dedent ++ core', j', l₂, hl₂, by simp, fun rest => ?_⟩
    obtain ⟨k, qs, rfl⟩ := h'.starts
    rw [List.append_assoc, hrun, List.cons_append, List.cons_append, kindsFrom_line hfresh, hmarks,
      (Layout.settle_back d j).1, ← List.cons_append, hrun']
    simp

/-- A head with an indented block below it. -/
theorem block (hb : Balanced hs) (he : EndsLine hs) (h : Emits ps ks (d + 1)) :
    Emits (words hs ++ .line (.spaced (4 * (d + 1))) :: ps)
      (hs ++ .newline :: .indent :: (ks ++ [.dedent])) d where
  starts := by
    cases hs with
    | nil => nomatch he
    | cons k hs => exact ⟨k, _, rfl⟩
  sound := by
    refine List.forall_mem_append.2 ⟨hb.sound, ?_⟩
    refine List.forall_mem_cons.2 ⟨rfl, List.forall_mem_cons.2 ⟨rfl, List.forall_mem_append.2 ⟨h.sound, ?_⟩⟩⟩
    simp [TokenKind.isError]
  run l hl := by
    have hl₁ := hl.written hb he
    obtain ⟨hmarks, hfresh⟩ := hl₁.enter_line (w := 4 * (d + 1)) (d := d + 1) (by rw [Layout.settle_deeper]; rfl)
    obtain ⟨core, j, l₂, hl₂, rfl, hrun⟩ := h.run _ hfresh
    refine ⟨hs ++ .newline :: .indent :: core, j + 1, l₂, ?_, ?_, fun rest => ?_⟩
    · rwa [Nat.add_right_comm, Nat.add_assoc] at hl₂
    · simp [List.replicate_succ']
    · obtain ⟨k, ps, rfl⟩ := h.starts
      rw [List.append_assoc, kindsFrom_words hl.levels_ne_nil, List.cons_append, List.cons_append,
        kindsFrom_line hfresh, hmarks, Layout.settle_deeper, ← List.cons_append, hrun]
      simp

/-- The tokens of a whole text. -/
theorem kinds_eq (h : Emits ps ks 0) : kindsFrom .start none ps = ks ++ [.endOfFile] := by
  obtain ⟨core, j, l', hl', rfl, hrun⟩ := h.run _ Layout.fresh_start
  rw [Nat.zero_add] at hl'
  have := hrun []
  rw [List.append_nil] at this
  rw [this, kindsFrom, hl'.enter_end]
  simp

end Emits

end DocScript
