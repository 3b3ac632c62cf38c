import DocScript.Proofs.Token.BlankLines

/-!
# Texts joined by a line feed

The tokens of a text tell how far its line structure has come : how many blocks and brackets are open, and whether a
line has begun and can end (`Stance`). Where a text ends between lines, its end closes all blocks, and so does the
first line of another text that is not indented. So if no token of either is an error, and all lines are
indented with spaces, the kinds of the tokens of the joined text are those of the first, without the end of the text,
and those of the second (`Source.kinds_joined`).
-/

namespace DocScript

/-! ## Stances -/

/-- What the tokens so far tell about the line structure. -/
structure Stance where
  /-- How many blocks are open. -/
  blocks : Nat
  /-- How many brackets are open. -/
  depth : Nat
  /-- The logical line has a lexeme. -/
  within : Bool
  /-- The line can end here. -/
  canEnd : Bool
  deriving DecidableEq, Repr

namespace Stance

/-- Between lines, with `n` blocks open. -/
def between (n : Nat) : Stance := ⟨n, 0, false, false⟩

/-- The stance behind a token of the given kind. -/
def pass (s : Stance) : TokenKind → Stance
  | .newline => { s with within := false, canEnd := false }
  | .indent => { s with blocks := s.blocks + 1 }
  | .dedent => { s with blocks := s.blocks - 1 }
  | .error _ | .endOfFile => s
  | k => { s with depth := Layout.bracket s.depth k, within := true, canEnd := k.canEndLine }

theorem pass_of_isLexeme (s : Stance) {k : TokenKind} (h : k.isLexeme = true) :
    s.pass k = { s with depth := Layout.bracket s.depth k, within := true, canEnd := k.canEndLine } := by
  cases k <;> first | rfl | contradiction

end Stance

theorem TokenKind.isLexeme_of_not_mark {k : TokenKind} (hm : k.isMark = false) (he : k.isError = false) :
    k.isLexeme = true := by
  cases k <;> first | rfl | contradiction

namespace Layout

/-- The stance that the tokens up to here give. -/
def stance (l : Layout) : Stance := ⟨l.levels.length - 1, l.depth, !l.lineStart, l.lineOpen⟩

theorem stance_after (l : Layout) {k : TokenKind} (h : k.isLexeme = true) : (l.after k).stance = l.stance.pass k := by
  have he : k.isError = false := by
    cases k <;> first | rfl | contradiction
  rw [Stance.pass_of_isLexeme _ h]
  simp [after, he, stance]

theorem Step.stance {ended : Prop} {l l' : Layout} {k : TokenKind} (h : l.Step ended k l') (hl : Nested l.levels)
    (hk : k.isError = false) : l'.stance = l.stance.pass k := by
  cases h with
  | newline => rfl
  | mixed => contradiction
  | indent style hs ho hw =>
    obtain ⟨level, outer, hlevels⟩ := List.exists_cons_of_ne_nil hl.ne_nil
    simp [Layout.stance, Stance.pass, hlevels]
  | dedent style hs ho he hne => simp [Layout.stance, Stance.pass, he]
  | badDedent => contradiction
  | lexeme style hm => exact l.stance_after (TokenKind.isLexeme_of_not_mark hm hk)
  | finish => rfl

theorem Steps.stance {ended : Prop} {l : Layout} {marks : List (TokenKind × Layout)} (h : Steps ended l marks)
    (hl : Nested l.levels) (hk : ∀ k ∈ marks.map Prod.fst, k.isError = false) :
    (l.behind marks).stance = (marks.map Prod.fst).foldl .pass l.stance := by
  induction marks generalizing l with
  | nil => rfl
  | cons x marks ih =>
    obtain ⟨k, l'⟩ := x
    obtain ⟨⟨hstep, -⟩, hmarks⟩ := h
    obtain ⟨hk₀, hk⟩ := List.forall_mem_cons.1 hk
    rw [behind_cons, List.map_cons, List.foldl_cons, ih hmarks (hstep.nested hl) hk, hstep.stance hl hk₀]

theorem stance_enter {l : Layout} (hl : Nested l.levels) (entered : Option Leading) (atEnd : Bool)
    (hk : ∀ k ∈ (l.enter entered atEnd).1.map Prod.fst, k.isError = false) :
    (l.enter entered atEnd).2.stance = ((l.enter entered atEnd).1.map Prod.fst).foldl .pass l.stance := by
  obtain ⟨hsteps, ⟨style, hs⟩, -⟩ := steps_enter hl entered atEnd
  rw [← hsteps.stance hl hk, hs]
  rfl

theorem nested_enter {l : Layout} (hl : Nested l.levels) (entered : Option Leading) (atEnd : Bool) :
    Nested (l.enter entered atEnd).2.levels := by
  obtain ⟨hsteps, ⟨style, hs⟩, -⟩ := steps_enter hl entered atEnd
  rw [hs]
  exact hsteps.nested hl

end Layout

/-! ## Kinds of tokens -/

/-- The kinds of the tokens of a script. -/
def Source.kinds (s : Source) : List TokenKind := s.tokens.map Token.kind

theorem Source.kinds_eq (s : Source) : s.kinds = s.contents.map Prod.fst := by
  rw [kinds, contents, List.map_map]
  rfl

theorem kinds_markContents (next : List Char) (marks : List (TokenKind × Layout)) :
    (markContents next marks).map Prod.fst = marks.map Prod.fst := by
  simp only [markContents, List.map_map]
  exact List.map_congr_left fun m _ => Token.kind_ofMark ..

theorem kinds_ending (l : Layout) (last : Option Leading) :
    (ending l last).map Prod.fst = (l.enter last true).1.map Prod.fst ++ [.endOfFile] := by
  rw [ending, List.map_append, kinds_markContents]
  rfl

/-- What is shown up to the last lexeme. -/
def frontContents (l : Layout) : List (Option Leading × Lexeme) → List (TokenKind × String)
  | [] => []
  | x :: xs => markContents x.2.text (l.enter x.1 false).1 ++
      (Token.ofLexeme .start x.2).content :: frontContents (l.pass x) xs

/-- The kinds of what is shown up to the last lexeme. -/
def frontKinds (l : Layout) (xs : List (Option Leading × Lexeme)) : List TokenKind := (frontContents l xs).map Prod.fst

theorem frontKinds_cons (l : Layout) (x : Option Leading × Lexeme) (xs : List (Option Leading × Lexeme)) :
    frontKinds l (x :: xs) = (l.enter x.1 false).1.map Prod.fst ++ x.2.kind :: frontKinds (l.pass x) xs := by
  rw [frontKinds, frontContents, List.map_append, kinds_markContents]
  rfl

theorem contentsFrom_append (l : Layout) (last : Option Leading) (xs ys : List (Option Leading × Lexeme)) :
    contentsFrom l last (xs ++ ys) = frontContents l xs ++ contentsFrom (xs.foldl Layout.pass l) last ys := by
  induction xs generalizing l with
  | nil => rfl
  | cons x xs ih =>
    rw [List.cons_append, contentsFrom, ih, frontContents, List.append_assoc]
    rfl

theorem mem_frontKinds {x : Option Leading × Lexeme} : ∀ {l : Layout} {xs : List (Option Leading × Lexeme)},
    x ∈ xs → x.2.kind ∈ frontKinds l xs
  | l, y :: ys, h => by
    rw [frontKinds_cons]
    rcases List.mem_cons.1 h with rfl | h
    · simp
    · exact List.mem_append_right _ (List.mem_cons_of_mem _ (mem_frontKinds h))

/-- The stance behind the last lexeme is the one that the tokens up to there give. -/
theorem stance_foldl_pass {l : Layout} {xs : List (Option Leading × Lexeme)} (hl : Layout.Nested l.levels)
    (hx : ∀ x ∈ xs, x.2.kind.isMark = false) (hk : ∀ k ∈ frontKinds l xs, k.isError = false) :
    (xs.foldl Layout.pass l).stance = (frontKinds l xs).foldl .pass l.stance ∧
      Layout.Nested (xs.foldl Layout.pass l).levels := by
  induction xs generalizing l with
  | nil => exact ⟨rfl, hl⟩
  | cons x xs ih =>
    obtain ⟨hx₀, hx⟩ := List.forall_mem_cons.1 hx
    rw [frontKinds_cons] at hk ⊢
    obtain ⟨hmarks, hrest⟩ := List.forall_mem_append.1 hk
    obtain ⟨hk₀, hk⟩ := List.forall_mem_cons.1 hrest
    have hnested : Layout.Nested (l.pass x).levels := by
      rw [Layout.pass, Layout.levels_after]
      exact Layout.nested_enter hl x.1 false
    obtain ⟨hstance, hlast⟩ := ih hnested hx hk
    refine ⟨?_, hlast⟩
    rw [List.foldl_cons, hstance, Layout.pass, Layout.stance_after _ (TokenKind.isLexeme_of_not_mark hx₀ hk₀),
      Layout.stance_enter hl x.1 false hmarks, List.foldl_append, List.foldl_cons]

theorem isMark_sketch (cs : List Char) : ∀ x ∈ (sketch cs).1, x.2.kind.isMark = false := by
  intro x hx
  obtain ⟨s, hs, rfl⟩ := List.mem_map.1 hx
  exact Segmentation.isMark_ofText cs s hs

namespace Source

/-- The tokens up to the last lexeme, and those at the end. -/
theorem kinds_eq_append (s : Source) : s.kinds = frontKinds .start (sketch s.text.toList).1 ++
    ((layoutBehind s.text).enter (enteredLast s.text) true).1.map Prod.fst ++ [.endOfFile] := by
  rw [kinds_eq, contents_eq s.name s.text, ← List.append_nil (sketch s.text.toList).1, contentsFrom_append,
    List.map_append, contentsFrom, kinds_ending, List.append_nil, ← List.append_assoc]
  rfl

/-- The stance in front of the end of the text. -/
def lastStance (s : Source) : Stance := s.kinds.dropLast.foldl .pass (.between 0)

/-- All tokens could be read. -/
def Sound (s : Source) : Prop := ∀ k ∈ s.kinds, k.isError = false

variable {s : Source}

/-- The state behind the last lexeme, and the one behind the end of the text. -/
theorem Sound.stance (h : s.Sound) : Layout.Nested (layoutBehind s.text).levels ∧
    ((layoutBehind s.text).enter (enteredLast s.text) true).2.stance = s.lastStance := by
  rw [Sound, s.kinds_eq_append] at h
  obtain ⟨hall, -⟩ := List.forall_mem_append.1 h
  obtain ⟨hfront, hend⟩ := List.forall_mem_append.1 hall
  obtain ⟨hstance, hnested⟩ := stance_foldl_pass ⟨by simp [Layout.start], rfl⟩ (isMark_sketch s.text.toList) hfront
  change (layoutBehind s.text).stance = _ at hstance
  change Layout.Nested (layoutBehind s.text).levels at hnested
  refine ⟨hnested, ?_⟩
  rw [Layout.stance_enter hnested _ _ hend, lastStance, s.kinds_eq_append, List.dropLast_concat, List.foldl_append, hstance]
  rfl

/-- A text ends outside of all blocks, and not where a line could end. -/
theorem Sound.level (h : s.Sound) :
    s.lastStance.blocks = 0 ∧ (s.lastStance.canEnd = true → s.lastStance.depth ≠ 0) := by
  obtain ⟨hnested, hstance⟩ := h.stance
  obtain ⟨-, -, hend⟩ := Layout.steps_enter hnested (enteredLast s.text) true
  obtain ⟨hlevels, hquiet⟩ := hend rfl
  rw [← hstance]
  exact ⟨by simp [Layout.stance, hlevels], hquiet⟩

end Source

/-! ## Blanks without tabs -/

/-- The line that was entered, if any, has no tabs in front. -/
def Tabless (entered : Option Leading) : Prop := ∀ leading ∈ entered, leading.tabs = false

theorem Trivia.tabless_lineBreak {t : Trivia} (c : Char) (hb : t.blanks.tabs = false) (he : Tabless t.entered) :
    Tabless (t.lineBreak c).entered := by
  intro leading hl
  obtain rfl : t.entered.getD t.blanks = leading := Option.some.inj hl
  cases ht : t.entered with
  | none => exact hb
  | some leading => exact he leading ht

theorem Trivia.tabless_skipFrom (comment : Bool) {cs : List Char} (h : '\t' ∉ cs) :
    (skipFrom comment cs).1.blanks.tabs = false ∧ Tabless (skipFrom comment cs).1.entered := by
  fun_induction skipFrom comment cs with
  | case1 => exact ⟨rfl, by simp [Tabless, Trivia.empty]⟩
  | case2 comment cs t rest hs ih =>
    rw [hs] at ih
    obtain ⟨hb, he⟩ := ih (mt (List.mem_cons_of_mem _) h)
    exact ⟨rfl, tabless_lineBreak _ hb he⟩
  | case3 c cs hc t rest hs ih =>
    rw [hs] at ih
    exact ih (mt (List.mem_cons_of_mem _) h)
  | case4 comment cs hcomment t rest hs h₁ ih =>
    rw [hs] at ih
    exact ih (mt (List.mem_cons_of_mem _) h)
  | case5 => exact absurd List.mem_cons_self h
  | case6 comment cs hcomment t rest hs h₁ h₂ h₃ ih =>
    rw [hs] at ih
    exact ih (mt (List.mem_cons_of_mem _) h)
  | case7 comment c cs h₁ hcomment h₂ h₃ h₄ hslash t rest hs ih =>
    rw [hs] at ih
    exact ih (mt (List.mem_cons_of_mem _) h)
  | case8 => exact ⟨rfl, by simp [Tabless, Trivia.empty]⟩

theorem tabless_sketch {cs : List Char} (h : '\t' ∉ cs) :
    (∀ x ∈ (sketch cs).1, Tabless x.1) ∧ Tabless (sketch cs).2 := by
  unfold sketch
  fun_induction Segmentation.ofText cs with
  | case1 cs t hs =>
    have ht := (Trivia.tabless_skipFrom false h).2
    rw [← Trivia.skip, hs] at ht
    exact ⟨by simp, ht⟩
  | case2 cs t c rest hs ih =>
    have ht := (Trivia.tabless_skipFrom false h).2
    rw [← Trivia.skip, hs] at ht
    obtain ⟨u, hu, hrest⟩ := Lexeme.scan_split c rest
    have hsplit := Trivia.skip_split cs
    rw [hs] at hsplit
    obtain ⟨hall, hlast⟩ := ih fun hm => h (by rw [← hsplit, ← hrest]; simp [hm])
    exact ⟨List.forall_mem_cons.2 ⟨ht, hall⟩, hlast⟩

namespace Layout

theorem adopt_spaces {style : Option IndentStyle} {leading : Leading} (hs : style ≠ some .tabs)
    (hl : leading.tabs = false) : ∃ style', adopt style leading = .ok style' ∧ style' ≠ some .tabs := by
  by_cases hw : leading.width = 0
  · exact ⟨style, by simp [adopt, styleOf, hw], hs⟩
  · refine ⟨some .spaces, ?_, by simp⟩
    cases style with
    | none => simp [adopt, styleOf, hw, hl]
    | some old =>
      cases old with
      | spaces => simp [adopt, styleOf, hw, hl]
      | tabs => exact absurd rfl hs

/-- The indentation that the next lexeme settles, or the end of the text. -/
def aim (l : Layout) (entered : Option Leading) (atEnd : Bool) : Nat :=
  if atEnd then 0 else ((l.measured entered).map Leading.width).getD l.top

/-- The state behind the end of the line, if it ends. -/
def closed (l : Layout) (entered : Option Leading) (atEnd : Bool) : Layout :=
  if l.ends entered atEnd then l.endLine else l

theorem closed_eq (l : Layout) (entered : Option Leading) (atEnd : Bool) :
    (if l.ends entered atEnd then ([(.newline, l.endLine)], l.endLine) else ([], l) :
      List (TokenKind × Layout) × Layout) =
      (if l.ends entered atEnd then [(.newline, l.endLine)] else [], l.closed entered atEnd) := by
  unfold closed
  split <;> rfl

theorem levels_closed (l : Layout) (entered : Option Leading) (atEnd : Bool) :
    (l.closed entered atEnd).levels = l.levels := by
  unfold closed
  split <;> rfl

/-- Where lines are indented with spaces only, there is no complaint. -/
theorem enter_of_tabless {l : Layout} {entered : Option Leading} (hs : l.style ≠ some .tabs) (he : Tabless entered)
    (atEnd : Bool) : ∃ style, style ≠ some .tabs ∧
      l.enter entered atEnd = ((if l.ends entered atEnd then [(.newline, l.endLine)] else []) ++
          { l.closed entered atEnd with style }.blocks (l.aim entered atEnd),
        { l.closed entered atEnd with style }.behind
          ({ l.closed entered atEnd with style }.blocks (l.aim entered atEnd))) := by
  cases hm : l.measured entered with
  | none =>
    refine ⟨(l.closed entered atEnd).style, ?_, ?_⟩
    · unfold closed
      split <;> exact hs
    · rw [enter, closed_eq]
      simp only [hm, aim, List.append_nil, Option.map_none, Option.getD_none]
  | some leading =>
    have hentered : leading ∈ entered := by
      unfold measured at hm
      split at hm
      · exact hm
      · contradiction
    obtain ⟨style, hadopt, hstyle⟩ := adopt_spaces hs (he leading hentered)
    refine ⟨style, hstyle, ?_⟩
    rw [enter, closed_eq]
    simp only [hm, hadopt, aim, List.append_nil, Option.map_some, Option.getD_some]

theorem kinds_enter {l : Layout} {entered : Option Leading} (hs : l.style ≠ some .tabs) (he : Tabless entered)
    (atEnd : Bool) :
    (l.enter entered atEnd).1.map Prod.fst = (if l.ends entered atEnd then [.newline] else []) ++
      (settle (l.aim entered atEnd) l.levels).map Prod.fst := by
  obtain ⟨style, -, henter⟩ := enter_of_tabless hs he atEnd
  rw [henter, List.map_append, blocks, List.map_map, levels_closed]
  split <;> rfl

theorem state_enter {l : Layout} {entered : Option Leading} (hs : l.style ≠ some .tabs) (he : Tabless entered)
    (atEnd : Bool) : ∃ style, style ≠ some .tabs ∧ (l.enter entered atEnd).2 =
      { l.closed entered atEnd with
        levels := ((settle (l.aim entered atEnd) l.levels).getLast?.map Prod.snd).getD l.levels
        style } := by
  obtain ⟨style, hstyle, henter⟩ := enter_of_tabless hs he atEnd
  refine ⟨style, hstyle, ?_⟩
  rw [henter, behind_blocks, levels_behind_blocks, levels_closed]

/-- The states are the same up to the style of the blanks, which are no tabs. -/
structure Spaced (l l' : Layout) : Prop where
  lines : l.SameLines l'
  left : l.style ≠ some .tabs
  right : l'.style ≠ some .tabs

/-- Which style was fixed makes no difference then. -/
theorem Spaced.enter {l l' : Layout} (h : l.Spaced l') {entered : Option Leading} (he : Tabless entered)
    (atEnd : Bool) : (l'.enter entered atEnd).1.map Prod.fst = (l.enter entered atEnd).1.map Prod.fst ∧
      (l.enter entered atEnd).2.Spaced (l'.enter entered atEnd).2 := by
  obtain ⟨⟨style, rfl⟩, hl, hr⟩ := h
  rw [kinds_enter hl he, kinds_enter hr he]
  obtain ⟨style₁, h₁, hs₁⟩ := state_enter hl he atEnd
  obtain ⟨style₂, h₂, hs₂⟩ := state_enter hr he atEnd
  refine ⟨rfl, ⟨style₂, ?_⟩, by rwa [hs₁], by rwa [hs₂]⟩
  rw [hs₁, hs₂]
  have hclosed : { l with style := style }.closed entered atEnd = { l.closed entered atEnd with style := style } := by
    have hends : { l with style := style }.ends entered atEnd = l.ends entered atEnd := rfl
    unfold closed
    rw [hends]
    split <;> rfl
  rw [hclosed]
  rfl

theorem Spaced.after {l l' : Layout} (h : l.Spaced l') (k : TokenKind) : (l.after k).Spaced (l'.after k) := by
  obtain ⟨⟨style, rfl⟩, hl, hr⟩ := h
  unfold Layout.after
  split
  · exact ⟨⟨style, rfl⟩, hl, hr⟩
  · exact ⟨⟨style, rfl⟩, hl, hr⟩

end Layout

theorem kinds_contentsFrom_cons (l : Layout) (last : Option Leading) (x : Option Leading × Lexeme)
    (xs : List (Option Leading × Lexeme)) : (contentsFrom l last (x :: xs)).map Prod.fst =
      (l.enter x.1 false).1.map Prod.fst ++ x.2.kind :: (contentsFrom (l.pass x) last xs).map Prod.fst := by
  rw [contentsFrom, List.map_append, kinds_markContents]
  rfl

theorem Layout.Spaced.kinds_contentsFrom {l l' : Layout} (h : l.Spaced l') {last : Option Leading}
    (hlast : Tabless last) {xs : List (Option Leading × Lexeme)} (hxs : ∀ x ∈ xs, Tabless x.1) :
    (contentsFrom l' last xs).map Prod.fst = (contentsFrom l last xs).map Prod.fst := by
  induction xs generalizing l l' with
  | nil => rw [contentsFrom, contentsFrom, kinds_ending, kinds_ending, (h.enter hlast true).1]
  | cons x xs ih =>
    obtain ⟨hx, hxs⟩ := List.forall_mem_cons.1 hxs
    obtain ⟨hkinds, henter⟩ := h.enter hx false
    rw [kinds_contentsFrom_cons, kinds_contentsFrom_cons, hkinds]
    exact congrArg (_ ++ _ :: ·) (ih (henter.after x.2.kind) hxs)

theorem style_foldl_pass {l : Layout} {xs : List (Option Leading × Lexeme)} (hl : l.style ≠ some .tabs)
    (hxs : ∀ x ∈ xs, Tabless x.1) : (xs.foldl Layout.pass l).style ≠ some .tabs := by
  induction xs generalizing l with
  | nil => exact hl
  | cons x xs ih =>
    obtain ⟨hx, hxs⟩ := List.forall_mem_cons.1 hxs
    have h : l.Spaced l := ⟨⟨l.style, rfl⟩, hl, hl⟩
    exact ih ((h.enter hx false).2.after x.2.kind).left hxs

/-! ## The joined text -/

namespace Layout

/-- All brackets are closed, and a line can end or has not begun. -/
structure Between (l : Layout) : Prop where
  nested : Nested l.levels
  depth : l.depth = 0
  line : l.lineOpen = true ∨ l.lineStart = true
  style : l.style ≠ some .tabs

namespace Between

variable {l : Layout} (h : l.Between)

include h

theorem ends_eq (entered : Option Leading) (atEnd : Bool) (he : entered.isSome = true ∨ atEnd = true) :
    l.ends entered atEnd = l.lineOpen := by
  rcases he with he | rfl
  · simp [ends, h.depth, he]
  · simp [ends, h.depth]

theorem aim_line {leading : Leading} (hw : leading.width = 0) : l.aim (some leading) false = 0 := by
  rcases h.line with hline | hline <;> simp [aim, measured, h.depth, hline, hw]

/-- The marks at the end of the text. -/
theorem kinds_enter_last {last : Option Leading} (hlast : Tabless last) : (l.enter last true).1.map Prod.fst =
    (if l.lineOpen then [.newline] else []) ++ (settle 0 l.levels).map Prod.fst := by
  rw [kinds_enter h.style hlast, h.ends_eq _ _ (.inr rfl)]
  rfl

variable {leading : Leading} (hl : leading.tabs = false) (hw : leading.width = 0)

include hl hw

/-- A line that is not indented has the same marks in front of it. -/
theorem kinds_enter_line : (l.enter (some leading) false).1.map Prod.fst =
    (if l.lineOpen then [.newline] else []) ++ (settle 0 l.levels).map Prod.fst := by
  rw [kinds_enter h.style (by simpa [Tabless] using hl), h.ends_eq _ _ (.inl rfl), h.aim_line hw]

/-- Behind these marks the line structure is as at the start. -/
theorem spaced_enter : start.Spaced (l.enter (some leading) false).2 := by
  have htabless : Tabless (some leading) := by simpa [Tabless] using hl
  obtain ⟨style, hstyle, hstate⟩ := state_enter h.style htabless false
  rw [h.aim_line hw, behind_settle_zero h.nested, closed, h.ends_eq _ _ (.inl rfl)] at hstate
  refine ⟨⟨style, ?_⟩, by simp [start], by rwa [hstate]⟩
  rw [hstate]
  cases ho : l.lineOpen with
  | true => simp [endLine, start, h.depth]
  | false => simp [start, h.depth, ho, h.line.resolve_left (by simp [ho])]

end Between

end Layout

/-- Between lines, a text whose first line is not indented goes on as if it stood alone, behind the marks of the end
of the text. -/
theorem Layout.Between.kinds_contentsFrom {l : Layout} (h : l.Between) {last last' : Option Leading}
    (hlast : Tabless last) (hlast' : Tabless last') {xs : List (Option Leading × Lexeme)} (hxs : ∀ x ∈ xs, Tabless x.1)
    (hfirst : ∀ x ∈ xs.head?, ∃ leading : Leading, x.1 = some leading ∧ leading.width = 0) :
    (contentsFrom l last xs).map Prod.fst =
      (l.enter last' true).1.map Prod.fst ++ (contentsFrom .start last xs).map Prod.fst := by
  rw [h.kinds_enter_last hlast']
  cases xs with
  | nil =>
    have hstart : start.Between := ⟨⟨by simp [start], rfl⟩, rfl, .inr rfl, by simp [start]⟩
    rw [contentsFrom, contentsFrom, kinds_ending, kinds_ending, h.kinds_enter_last hlast, hstart.kinds_enter_last hlast]
    rfl
  | cons x xs =>
    obtain ⟨hx, hxs⟩ := List.forall_mem_cons.1 hxs
    obtain ⟨leading, hleading, hw⟩ := hfirst x rfl
    have hl : leading.tabs = false := hx leading hleading
    have hpass : (start.pass x).Spaced (l.pass x) := by
      rw [Layout.pass, Layout.pass, hleading, enter_start_of_width hw]
      exact (h.spaced_enter hl hw).after x.2.kind
    rw [kinds_contentsFrom_cons, kinds_contentsFrom_cons, hpass.kinds_contentsFrom hlast hxs, hleading,
      h.kinds_enter_line hl hw, enter_start_of_width hw]
    rfl

/-- An indented line at the beginning opens a block. -/
theorem Layout.kinds_enter_start {leading : Leading} (hl : leading.tabs = false) (hw : leading.width ≠ 0) :
    (start.enter (some leading) false).1.map Prod.fst = [.indent] := by
  have hpos : 0 < leading.width := Nat.pos_of_ne_zero hw
  rw [kinds_enter (by simp [start]) (by simpa [Tabless] using hl)]
  simp [ends, aim, measured, start, settle, hpos]

/-- Behind a line feed the first lexeme enters a line. -/
theorem isSome_sketch_lineFeed (v : List Char) : ∀ x ∈ (sketch ('\n' :: v)).1.head?, x.1.isSome = true := by
  have hs := Trivia.skip_lineFeed v
  cases hv : (Trivia.skip v).2 with
  | nil =>
    rw [hv] at hs
    simp [sketch_of_end hs]
  | cons c rest =>
    rw [hv] at hs
    simp [sketch_of_lexeme hs, Trivia.lineBreak]

namespace Source

variable {s₁ s₂ : Source}

theorem Sound.unquoted (h : s₁.Sound) : Unquoted s₁.text.toList := by
  intro seg hseg hk
  have hmem : seg.lexeme.kind ∈ frontKinds .start (sketch s₁.text.toList).1 := mem_frontKinds (List.mem_map_of_mem hseg)
  have herr := h seg.lexeme.kind (by
    rw [kinds_eq_append, List.append_assoc]
    exact List.mem_append_left _ hmem)
  rw [hk] at herr
  contradiction

/-- A script that ends between lines ends in such a state. -/
theorem Sound.between (h : s₁.Sound) (ht : '\t' ∉ s₁.text.toList)
    (hend : s₁.lastStance = .between 0) : (layoutBehind s₁.text).Between := by
  obtain ⟨hnested, hstance⟩ := h.stance
  obtain ⟨hxs, hlast⟩ := tabless_sketch ht
  change Tabless (enteredLast s₁.text) at hlast
  have hstyle : (layoutBehind s₁.text).style ≠ some .tabs := style_foldl_pass (by simp [Layout.start]) hxs
  obtain ⟨style, -, hstate⟩ := Layout.state_enter hstyle hlast true
  rw [hend, hstate] at hstance
  obtain ⟨-, hdepth, hwithin, -⟩ := Stance.mk.inj hstance
  unfold Layout.closed at hdepth hwithin
  cases hends : (layoutBehind s₁.text).ends (enteredLast s₁.text) true with
  | true =>
    simp only [Layout.ends, Bool.and_eq_true] at hends
    exact ⟨hnested, by simpa using hends.1.2, .inl hends.1.1, hstyle⟩
  | false =>
    rw [hends] at hdepth hwithin
    exact ⟨hnested, hdepth, .inr (by simpa using hwithin), hstyle⟩

/-- The kinds of the tokens of two scripts that are joined by a line feed. -/
theorem kinds_joined (h₁ : s₁.Sound) (ht₁ : '\t' ∉ s₁.text.toList) (ht₂ : '\t' ∉ s₂.text.toList)
    (hend : s₁.lastStance = .between 0) (hflush : Flush s₂.text)
    (hindent : s₂.kinds.head? ≠ some .indent) (name : String) :
    kinds ⟨name, s₁.text ++ "\n" ++ s₂.text⟩ = s₁.kinds.dropLast ++ s₂.kinds := by
  have htext : (s₁.text ++ "\n" ++ s₂.text).toList = s₁.text.toList ++ '\n' :: s₂.text.toList := by simp
  have hkinds₂ : s₂.kinds = (contentsFrom .start (sketch ('\n' :: s₂.text.toList)).2
      (sketch ('\n' :: s₂.text.toList)).1).map Prod.fst := by
    rw [kinds_eq, contents_eq s₂.name s₂.text, (contents_lineFeed_iff s₂.text).2 hflush]
  obtain ⟨hxs, hlast⟩ := tabless_sketch (by simpa using ht₂ : '\t' ∉ '\n' :: s₂.text.toList)
  have hfirst : ∀ x ∈ (sketch ('\n' :: s₂.text.toList)).1.head?,
      ∃ leading : Leading, x.1 = some leading ∧ leading.width = 0 := by
    intro x hx
    obtain ⟨leading, hleading⟩ := Option.isSome_iff_exists.1 (isSome_sketch_lineFeed s₂.text.toList x hx)
    refine ⟨leading, hleading, Decidable.byContradiction fun hw => hindent ?_⟩
    obtain ⟨xs, hcons⟩ := List.head?_eq_some_iff.1 hx
    rw [hcons] at hxs
    have hl : leading.tabs = false := hxs x List.mem_cons_self leading hleading
    rw [hkinds₂, hcons, kinds_contentsFrom_cons, hleading, Layout.kinds_enter_start hl hw]
    rfl
  have hrest := (h₁.between ht₁ hend).kinds_contentsFrom hlast (tabless_sketch ht₁).2 hxs hfirst
  rw [kinds_eq, contents_eq, htext, sketch_lineFeed h₁.unquoted, contentsFrom_append, List.map_append, s₁.kinds_eq_append,
    List.dropLast_concat, hkinds₂, List.append_assoc]
  exact congrArg (_ ++ ·) hrest

end Source

end DocScript
