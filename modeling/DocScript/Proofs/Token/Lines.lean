import DocScript.Token.Stream

/-!
# The steps of the line structure

Between two tokens the line structure takes one of a few steps (`Layout.Step`) : a logical line ends, a
block is opened or closed, indentation is complained about, or a lexeme is passed. `Layout.Steps` says so
of the marks in front of a lexeme and of those in front of the end of the text (`Layout.steps_enter`), and
`Layout.Chain` of a whole stream of tokens (`chain_traceFrom`).

What the stream looks like is derived from the steps alone. `Layout.Reflects l past` says of the state `l`
behind the tokens `past` that the widths of the open blocks decrease to zero, that the marks in `past` opened
as many blocks as are still open and closed, that the depth counts the brackets in `past`, and that the
state of the line is the one that the last tokens of `past` leave. Every step keeps it (`Reflects.step`).
-/

namespace DocScript

/-! ## Marks and lexemes -/

namespace TokenKind

/-- The marks of the line structure, with its complaints, and the end of the text. -/
def isMark : TokenKind → Bool
  | newline | indent | dedent | endOfFile | error .badDedent | error .mixedIndentation => true
  | _ => false

/-- What is read from the text and could be read. -/
def isLexeme : TokenKind → Bool
  | number _ | string _ | identifier _ | keyword _ | symbol _ => true
  | _ => false

theorem isLexeme_of_canEndLine {k : TokenKind} (h : k.canEndLine = true) : k.isLexeme = true := by
  cases k <;> simp_all [canEndLine, isLexeme]

theorem isLexeme_eq_false_of_isMark {k : TokenKind} (h : k.isMark = true) : k.isLexeme = false := by
  cases k <;> simp_all [isMark, isLexeme]

theorem isLexeme_eq_false_of_isError {k : TokenKind} (h : k.isError = true) : k.isLexeme = false := by
  cases k <;> simp_all [isError, isLexeme]

end TokenKind

namespace Lexeme

theorem isMark_decimal (c : Char) (cs : List Char) : (decimal c cs).1.kind.isMark = false := by
  simp only [decimal, decimalKind]
  split
  · rfl
  · split <;> rfl

theorem isMark_radixKind (radix : Nat) (ds : List Char) : (radixKind radix ds).isMark = false := by
  unfold radixKind
  split
  · rfl
  · split
    · rfl
    · dsimp only
      split <;> rfl

theorem isMark_single (c : Char) : (single c).kind.isMark = false := by
  unfold single
  split <;> rfl

/-- A lexeme is no mark. -/
theorem isMark_scan (c : Char) (cs : List Char) : (scan c cs).1.kind.isMark = false := by
  unfold scan
  split
  · simp only [string, StringBody.kind]
    split
    · split <;> rfl
    · rfl
  split
  · unfold number
    split
    · exact isMark_decimal ..
    · split
      · split
        · exact isMark_radixKind ..
        · exact isMark_decimal ..
      · exact isMark_decimal ..
  split
  · simp only [word, wordKind]
    split <;> rfl
  · unfold symbol
    split
    · exact isMark_single c
    · split
      · rfl
      · exact isMark_single c

end Lexeme

theorem Segmentation.isMark_ofText (cs : List Char) :
    ∀ s ∈ (ofText cs).segments, s.lexeme.kind.isMark = false := by
  fun_induction ofText cs with
  | case1 => simp
  | case2 cs t c rest h ih =>
    simp only [cons, List.mem_cons, forall_eq_or_imp]
    exact ⟨Lexeme.isMark_scan c rest, ih⟩

@[simp] theorem Token.kind_ofMark (p : Pos) (next : List Char) (k : TokenKind) :
    (ofMark p next k).kind = k := by
  unfold ofMark
  split <;> rfl

/-! ## Steps -/

namespace Layout

/-- Widths of open blocks, innermost first : they decrease, down to zero. -/
structure Nested (levels : List Nat) : Prop where
  decreasing : levels.Pairwise (· > ·)
  last : levels.getLast? = some 0

/-- No line can end here. -/
def Quiet (l : Layout) : Prop := l.lineOpen = true → l.depth ≠ 0

/-- What can happen from one token to the next, which is of the kind `k`; `ended` says that only marks are
left. -/
inductive Step (ended : Prop) : Layout → TokenKind → Layout → Prop
  | newline {l : Layout} (ho : l.lineOpen = true) (hd : l.depth = 0) : Step ended l .newline l.endLine
  | mixed {l : Layout} : Step ended l (.error .mixedIndentation) l
  | indent {l : Layout} {width : Nat} (style : Option IndentStyle) (hs : l.lineStart = true)
      (ho : l.Quiet) (hw : l.top < width) : Step ended l .indent { l with levels := width :: l.levels, style }
  | dedent {l : Layout} {level : Nat} {outer : List Nat} (style : Option IndentStyle)
      (hs : l.lineStart = true ∨ ended) (ho : l.Quiet) (hl : l.levels = level :: outer) (hne : outer ≠ []) :
      Step ended l .dedent { l with levels := outer, style }
  | badDedent {l : Layout} {level width : Nat} {outer : List Nat} (style : Option IndentStyle)
      (hl : l.levels = level :: outer) (hw : width < level) (hne : outer ≠ [])
      (ho : outer.headD 0 < width) :
      Step ended l (.error .badDedent) { l with levels := width :: outer, style }
  | lexeme {l : Layout} {k : TokenKind} (style : Option IndentStyle) (hk : k.isMark = false) :
      Step ended l k { l.after k with style }
  | finish {l : Layout} (style : Option IndentStyle) (ho : l.Quiet) (hl : l.levels = [0]) :
      Step ended l .endOfFile { l with style }

theorem Step.weaken {p q : Prop} {l l' : Layout} {k : TokenKind} (h : Step p l k l') (hpq : p → q) :
    Step q l k l' := by
  cases h with
  | newline ho hd => exact .newline ho hd
  | mixed => exact .mixed
  | indent style hs ho hw => exact .indent style hs ho hw
  | dedent style hs ho hl hne => exact .dedent style (hs.imp_right hpq) ho hl hne
  | badDedent style hl hw hne ho => exact .badDedent style hl hw hne ho
  | lexeme style hk => exact .lexeme style hk
  | finish style ho hl => exact .finish style ho hl

/-- At the end of the text all blocks are closed and no line can end. -/
theorem Step.at_end {ended : Prop} {l l' : Layout} (h : Step ended l .endOfFile l') :
    l'.levels = [0] ∧ l'.Quiet := by
  cases h with
  | lexeme style hk => nomatch hk
  | finish style ho hl => exact ⟨hl, ho⟩

theorem Nested.ne_nil {levels : List Nat} (h : Nested levels) : levels ≠ [] := by
  intro hn
  have hl := h.last
  simp [hn] at hl

/-- Above zero there is a block around the innermost one. -/
theorem Nested.tail {level : Nat} {outer : List Nat} (h : Nested (level :: outer)) (hl : 0 < level) :
    Nested outer := by
  cases outer with
  | nil =>
    have hlast := h.last
    simp only [List.getLast?_singleton, Option.some.injEq] at hlast
    omega
  | cons b outer => exact ⟨h.decreasing.tail, by simpa using h.last⟩

/-- A block inside the innermost one. -/
theorem Nested.cons {width : Nat} {levels : List Nat} (h : Nested levels) (hw : levels.headD 0 < width) :
    Nested (width :: levels) := by
  obtain ⟨b, outer, rfl⟩ := List.exists_cons_of_ne_nil h.ne_nil
  refine ⟨List.pairwise_cons.2 ⟨fun a ha => ?_, h.decreasing⟩, by simpa using h.last⟩
  simp only [List.headD_cons] at hw
  rcases List.mem_cons.1 ha with rfl | ha
  · exact hw
  · exact Nat.lt_trans ((List.pairwise_cons.1 h.decreasing).1 a ha) hw

theorem Nested.eq_of_head {outer : List Nat} (h : Nested (0 :: outer)) : outer = [] := by
  cases outer with
  | nil => rfl
  | cons b outer =>
    have hb := (List.pairwise_cons.1 h.decreasing).1 b (by simp)
    omega

theorem levels_after (l : Layout) (k : TokenKind) : (l.after k).levels = l.levels := by
  unfold after
  split <;> rfl

theorem Step.nested {ended : Prop} {l l' : Layout} {k : TokenKind} (h : Step ended l k l')
    (hl : Nested l.levels) : Nested l'.levels := by
  cases h with
  | newline | mixed | finish => exact hl
  | lexeme => rw [levels_after]; exact hl
  | indent style hs ho hw => exact hl.cons hw
  | dedent style hs ho he hne =>
    rw [he] at hl
    obtain ⟨b, outer, rfl⟩ := List.exists_cons_of_ne_nil hne
    have hb := (List.pairwise_cons.1 hl.decreasing).1 b (by simp)
    exact hl.tail (by omega)
  | badDedent style he hw hne ho =>
    rw [he] at hl
    exact (hl.tail (by omega)).cons ho

/-! ## Marks in front of a lexeme -/

/-- The marks are steps that start in the state `l`, and do not end the text. -/
def Steps (ended : Prop) : Layout → List (TokenKind × Layout) → Prop
  | _, [] => True
  | l, (k, l') :: marks => (l.Step ended k l' ∧ k.isMark = true ∧ k ≠ .endOfFile) ∧ Steps ended l' marks

@[simp] theorem behind_nil (l : Layout) : l.behind [] = l := rfl

@[simp] theorem behind_cons (l l' : Layout) (k : TokenKind) (marks : List (TokenKind × Layout)) :
    l.behind ((k, l') :: marks) = l'.behind marks := by
  cases marks with
  | nil => rfl
  | cons m marks => simp [behind, List.getLast?_cons]

theorem behind_append (l : Layout) (xs ys : List (TokenKind × Layout)) :
    l.behind (xs ++ ys) = (l.behind xs).behind ys := by
  induction xs generalizing l with
  | nil => rfl
  | cons x xs ih =>
    obtain ⟨k, l'⟩ := x
    simp [ih]

theorem Steps.append {ended : Prop} {l : Layout} {xs ys : List (TokenKind × Layout)}
    (hx : Steps ended l xs) (hy : Steps ended (l.behind xs) ys) : Steps ended l (xs ++ ys) := by
  induction xs generalizing l with
  | nil => exact hy
  | cons x xs ih =>
    obtain ⟨k, l'⟩ := x
    exact ⟨hx.1, ih hx.2 (by simpa using hy)⟩

theorem Steps.nested {ended : Prop} {l : Layout} {marks : List (TokenKind × Layout)}
    (h : Steps ended l marks) (hl : Nested l.levels) : Nested (l.behind marks).levels := by
  induction marks generalizing l with
  | nil => exact hl
  | cons x marks ih =>
    rw [behind_cons]
    exact ih h.2 (h.1.1.nested hl)

/-- Blocks are opened and closed one by one. The induction is on the open blocks, which `settle` takes from
the inside. -/
theorem steps_settle {ended : Prop} {width : Nat} (style : Option IndentStyle) :
    ∀ {levels : List Nat} {l : Layout}, Nested levels → l.levels = levels → l.Quiet →
      (l.lineStart = true ∨ ended ∧ width = 0) →
      Steps ended l ((settle width levels).map fun (k, levels) => (k, { l with levels, style }))
  | [], _, h, _, _, _ => absurd rfl h.ne_nil
  | level :: outer, l, h, hl, hq, hs => by
    rw [settle]
    split
    · next hlt =>
      have ho := h.tail (by omega)
      split
      · next hw => exact ⟨⟨.badDedent style hl hlt ho.ne_nil hw, rfl, nofun⟩, trivial⟩
      · exact ⟨⟨.dedent style (hs.imp_right And.left) hq hl ho.ne_nil, rfl, nofun⟩,
          steps_settle style (l := { l with levels := outer, style }) ho rfl hq hs⟩
    · split
      · next hlt =>
        have hstart : l.lineStart = true := hs.resolve_right (by omega)
        have hstep : l.Step ended .indent { l with levels := width :: l.levels, style } :=
          .indent style hstart hq (by simpa [top, hl] using hlt)
        rw [hl] at hstep
        exact ⟨⟨hstep, rfl, nofun⟩, trivial⟩
      · trivial

/-- A line as wide as the innermost block changes nothing. -/
theorem settle_top {level : Nat} {outer : List Nat} : settle level (level :: outer) = [] := by
  simp [settle]

/-- In front of the end of the text all blocks are closed. -/
theorem behind_settle_zero : ∀ {levels : List Nat}, Nested levels →
    ((settle 0 levels).getLast?.map Prod.snd).getD levels = [0]
  | [], h => absurd rfl h.ne_nil
  | level :: outer, h => by
    rw [settle]
    split
    · next hlt =>
      have ho := h.tail hlt
      have ih := behind_settle_zero ho
      simp only [Nat.not_lt_zero, if_false]
      cases hs : settle 0 outer with
      | nil => rw [hs] at ih; simpa using ih
      | cons m ms =>
        rw [hs] at ih
        rw [List.getLast?_cons_cons]
        simpa [List.getLast?_cons] using ih
    · next hlt =>
      obtain rfl : level = 0 := by omega
      obtain rfl := h.eq_of_head
      rfl

theorem adopt_error {style : Option IndentStyle} {leading : Leading} {e : ScanError}
    (h : adopt style leading = .error e) : e = .mixedIndentation := by
  simp only [adopt, styleOf] at h
  grind

/-- `l'` is `l` up to the style of the blanks. -/
def SameLines (l l' : Layout) : Prop := ∃ style, l' = { l with style }

theorem SameLines.behind {l l' : Layout} (h : l.SameLines l') (marks : List (TokenKind × Layout)) :
    (l.behind marks).SameLines (l'.behind marks) := by
  rw [Layout.behind, Layout.behind]
  cases marks.getLast? with
  | none => exact h
  | some m => exact ⟨m.2.style, rfl⟩

theorem levels_behind_blocks (l : Layout) (width : Nat) :
    (l.behind (l.blocks width)).levels = ((settle width l.levels).getLast?.map Prod.snd).getD l.levels := by
  rw [behind, blocks, List.getLast?_map]
  cases (settle width l.levels).getLast? <;> rfl

theorem behind_blocks (l : Layout) (width : Nat) :
    l.behind (l.blocks width) = { l with levels := (l.behind (l.blocks width)).levels } := by
  rw [behind, blocks, List.getLast?_map]
  cases (settle width l.levels).getLast? <;> rfl

/-- In front of the next lexeme the line may end. Where indentation counts, or the text ends, no line can end
any more behind that. -/
theorem steps_ends (l : Layout) (entered : Option Leading) (atEnd : Bool) : ∃ line l',
    (if l.ends entered atEnd then ([(.newline, l.endLine)], l.endLine) else ([], l) :
      List (TokenKind × Layout) × Layout) = (line, l') ∧
    Steps (atEnd = true) l line ∧ l.behind line = l' ∧ l'.levels = l.levels ∧
    ((l.measured entered).isSome = true → l'.lineStart = true ∧ l'.Quiet) ∧ (atEnd = true → l'.Quiet) := by
  by_cases he : l.ends entered atEnd
  · refine ⟨_, _, if_pos he, ?_, rfl, rfl, fun _ => ⟨rfl, nofun⟩, fun _ => nofun⟩
    simp only [ends, Bool.and_eq_true, decide_eq_true_eq] at he
    exact ⟨⟨.newline he.1.1 he.1.2, rfl, nofun⟩, trivial⟩
  · refine ⟨_, _, if_neg he, trivial, rfl, rfl, fun hm => ?_, fun hm ho hd => ?_⟩
    · have hentered : entered.isSome = true := by
        simp only [measured] at hm
        split at hm
        · exact hm
        · nomatch hm
      simp only [ends, hentered, Bool.true_or, Bool.and_true] at he
      constructor
      · simp only [measured] at hm
        cases hd : decide (l.depth = 0) <;> cases ho : l.lineOpen <;> cases hs : l.lineStart <;> simp_all
      · intro ho hd
        simp [ho, hd] at he
    · simp [ends, hm, ho, hd] at he

/-- The marks in front of a lexeme or of the end of the text : the end of the line, a complaint about the
indentation, and blocks that are opened or closed. Where the indentation does not count it is that of the
innermost block. -/
theorem enter_eq (l : Layout) (entered : Option Leading) (atEnd : Bool) :
    ∃ line complaint l' width style,
      l.enter entered atEnd =
        (line ++ complaint ++ { l' with style }.blocks (if atEnd then 0 else width),
          { l' with style }.behind ({ l' with style }.blocks (if atEnd then 0 else width))) ∧
      (Steps (atEnd = true) l line ∧ l.behind line = l' ∧ l'.levels = l.levels) ∧
      (Steps (atEnd = true) l' complaint ∧ l'.behind complaint = l') ∧
      (l'.lineStart = true ∧ l'.Quiet ∨ width = l.top) ∧ (atEnd = true → l'.Quiet) := by
  obtain ⟨line, l', hline, hsteps, hbehind, hlevels, hstart, hend⟩ := l.steps_ends entered atEnd
  cases hm : l.measured entered with
  | none =>
    refine ⟨line, [], l', l.top, l'.style, ?_, ⟨hsteps, hbehind, hlevels⟩, ⟨trivial, rfl⟩, .inr rfl, hend⟩
    rw [enter, hline]
    simp only [hm]
  | some leading =>
    have hs := hstart (by rw [hm]; rfl)
    cases ha : adopt l.style leading with
    | ok style =>
      refine ⟨line, [], l', leading.width, style, ?_, ⟨hsteps, hbehind, hlevels⟩, ⟨trivial, rfl⟩, .inl hs, hend⟩
      rw [enter, hline]
      simp only [hm, ha]
    | error e =>
      obtain rfl := adopt_error ha
      refine ⟨line, [(.error .mixedIndentation, l')], l', l.top, l'.style, ?_, ⟨hsteps, hbehind, hlevels⟩,
        ⟨⟨⟨.mixed, rfl, nofun⟩, trivial⟩, rfl⟩, .inl hs, hend⟩
      rw [enter, hline]
      simp only [hm, ha]

/-- The marks in front of a lexeme or of the end of the text are steps, and the state given with them is the
one behind them. In front of the end all blocks are closed. -/
theorem steps_enter {l : Layout} (h : Nested l.levels) (entered : Option Leading) (atEnd : Bool) :
    Steps (atEnd = true) l (l.enter entered atEnd).1 ∧
      (l.behind (l.enter entered atEnd).1).SameLines (l.enter entered atEnd).2 ∧
      (atEnd = true → (l.enter entered atEnd).2.levels = [0] ∧ (l.enter entered atEnd).2.Quiet) := by
  obtain ⟨line, complaint, l', width, style, he, ⟨hline, hbehind, hlevels⟩, ⟨hcomplaint, hsame⟩, hwidth,
    hend⟩ := l.enter_eq entered atEnd
  have hl' : Nested l'.levels := hlevels ▸ h
  have hblocks : Steps (atEnd = true) l' ({ l' with style }.blocks (if atEnd then 0 else width)) := by
    cases atEnd with
    | true => exact steps_settle style hl' rfl (hend rfl) (.inr ⟨rfl, rfl⟩)
    | false =>
      rcases hwidth with ⟨hs, hq⟩ | rfl
      · exact steps_settle style hl' rfl hq (.inl hs)
      · obtain ⟨level, outer, ho⟩ := List.exists_cons_of_ne_nil h.ne_nil
        simp only [blocks, hlevels, ho, top, List.headD_cons, Bool.false_eq_true, if_false, settle_top]
        trivial
  have hback : l.behind (line ++ complaint) = l' := by rw [behind_append, hbehind, hsame]
  rw [he]
  refine ⟨(hline.append (hbehind ▸ hcomplaint)).append (hback ▸ hblocks), ?_, ?_⟩
  · rw [behind_append, hback]
    exact SameLines.behind ⟨style, rfl⟩ _
  · rintro rfl
    refine ⟨?_, ?_⟩
    · rw [levels_behind_blocks]
      exact behind_settle_zero hl'
    · rw [behind_blocks]
      exact hend rfl

/-! ## Streams of tokens -/

/-- The tokens are steps that start in the state `l`, and the last one is the end of the text. -/
def Chain : Layout → List (Token × Layout) → Prop
  | _, [] => True
  | l, (t, l') :: rest =>
    l.Step (∀ x ∈ rest, x.1.kind.isMark = true) t.kind l' ∧ (t.kind = .endOfFile ↔ rest = []) ∧
      Chain l' rest

/-- Marks in front of a chain; if they may end the text, only marks follow. -/
theorem Steps.chain {ended : Prop} {l : Layout} {marks : List (TokenKind × Layout)}
    {rest : List (Token × Layout)} (p : Pos) (next : List Char) (h : Steps ended l marks)
    (hrest : Chain (l.behind marks) rest) (hne : rest ≠ [])
    (he : ended → ∀ x ∈ rest, x.1.kind.isMark = true) :
    Chain l (marksAt p next marks ++ rest) ∧
      (ended → ∀ x ∈ marksAt p next marks ++ rest, x.1.kind.isMark = true) := by
  induction marks generalizing l with
  | nil => exact ⟨hrest, he⟩
  | cons x marks ih =>
    obtain ⟨k, l'⟩ := x
    obtain ⟨⟨hstep, hk, hlast⟩, hmarks⟩ := h
    rw [behind_cons] at hrest
    obtain ⟨hc, hm⟩ := ih hmarks hrest
    simp only [marksAt, List.map_cons, List.cons_append] at hc hm ⊢
    refine ⟨⟨?_, ?_, hc⟩, fun hended x hx => ?_⟩
    · rw [Token.kind_ofMark]
      exact hstep.weaken hm
    · simp [hlast, hne]
    · rcases List.mem_cons.1 hx with rfl | hx
      · simpa using hk
      · exact hm hended x hx

/-- Nothing follows the end of the text. -/
theorem Chain.pairwise : ∀ {l : Layout} {xs : List (Token × Layout)}, Chain l xs →
    xs.Pairwise fun x _ => x.1.kind ≠ .endOfFile
  | _, [], _ => .nil
  | _, (t, l') :: rest, h => by
    refine List.pairwise_cons.2 ⟨fun y hy hk => ?_, h.2.2.pairwise⟩
    rw [h.2.1.1 hk] at hy
    nomatch hy

end Layout

open Layout

theorem traceFrom_ne_nil (last : Trivia) (l : Layout) (p : Pos) (segments : List Segment) :
    traceFrom last l p segments ≠ [] := by
  cases segments <;> simp [traceFrom]

/-- A stream of tokens is a chain of steps. -/
theorem chain_traceFrom (last : Trivia) :
    ∀ {segments : List Segment} {l : Layout} (p : Pos),
      (∀ s ∈ segments, s.lexeme.kind.isMark = false) → Nested l.levels →
      Chain l (traceFrom last l p segments)
  | [], l, p, _, hl => by
    obtain ⟨hsteps, ⟨style, hs⟩, hend⟩ := steps_enter hl last.entered true
    obtain ⟨hlevels, hquiet⟩ := hend rfl
    rw [traceFrom]
    dsimp only
    rw [hs] at hlevels hquiet ⊢
    refine (hsteps.chain _ _ ?_ (by simp) fun _ x hx => ?_).1
    · exact ⟨.finish style hquiet hlevels, iff_of_true rfl rfl, trivial⟩
    · obtain rfl := List.mem_singleton.1 hx
      rfl
  | s :: segments, l, p, hseg, hl => by
    obtain ⟨hsteps, ⟨style, hs⟩, -⟩ := steps_enter hl s.trivia.entered false
    have hnested := hsteps.nested hl
    have hafter : ∀ m : Layout, { m with style }.after s.lexeme.kind =
        { m.after s.lexeme.kind with style := style } := by
      intro m
      unfold after
      split <;> rfl
    rw [traceFrom]
    dsimp only
    rw [hs, hafter]
    have hk := hseg s (by simp)
    refine (hsteps.chain _ _ ?_ (by simp) nofun).1
    refine ⟨.lexeme style hk, ?_, ?_⟩
    · refine iff_of_false (fun he => ?_) (traceFrom_ne_nil _ _ _ _)
      simp only [Token.ofLexeme] at he
      simp [he, TokenKind.isMark] at hk
    · refine chain_traceFrom last _ (fun s' h => hseg s' (by simp [h])) ?_
      rw [levels_after]
      exact hnested

theorem Source.chain_trace (s : Source) : Chain .start s.trace :=
  chain_traceFrom _ _ (Segmentation.isMark_ofText _) ⟨by simp [start], rfl⟩

theorem Source.pairwise_tokens (s : Source) : s.tokens.Pairwise fun t _ => t.kind ≠ .endOfFile :=
  List.pairwise_map.2 s.chain_trace.pairwise

/-! ## What the tokens tell about the state behind them -/

def indents (ts : List Token) : Nat := ts.countP fun t => t.kind = .indent

def dedents (ts : List Token) : Nat := ts.countP fun t => t.kind = .dedent

/-- The brackets that are open behind the tokens. -/
def openBrackets (ts : List Token) : Nat := ts.foldl (fun depth t => bracket depth t.kind) 0

/-- The last token that is no error. -/
def lastSound? (ts : List Token) : Option Token := (ts.filter fun t => !t.kind.isError).getLast?

/-- The tokens behind the last end of a line, the last one first. -/
def sinceNewline (ts : List Token) : List Token := ts.reverse.takeWhile fun t => t.kind ≠ .newline

theorem indents_concat (ts : List Token) (t : Token) :
    indents (ts ++ [t]) = indents ts + if t.kind = .indent then 1 else 0 := by
  simp [indents, List.countP_append, List.countP_singleton]

theorem dedents_concat (ts : List Token) (t : Token) :
    dedents (ts ++ [t]) = dedents ts + if t.kind = .dedent then 1 else 0 := by
  simp [dedents, List.countP_append, List.countP_singleton]

theorem openBrackets_concat (ts : List Token) (t : Token) :
    openBrackets (ts ++ [t]) = bracket (openBrackets ts) t.kind := by
  simp [openBrackets]

theorem lastSound?_concat (ts : List Token) (t : Token) :
    lastSound? (ts ++ [t]) = if t.kind.isError then lastSound? ts else some t := by
  unfold lastSound?
  split <;> simp_all

theorem sinceNewline_concat (ts : List Token) (t : Token) :
    sinceNewline (ts ++ [t]) = if t.kind = .newline then [] else t :: sinceNewline ts := by
  unfold sinceNewline
  split <;> simp_all

namespace Layout

/-- `l` is the state behind the tokens `past`. -/
structure Reflects (l : Layout) (past : List Token) : Prop where
  nested : Nested l.levels
  balance : indents past + 1 = dedents past + l.levels.length
  depth : l.depth = openBrackets past
  lineOpen : ¬l.Quiet → ∃ t, lastSound? past = some t ∧ t.kind.canEndLine = true
  lineStart : l.lineStart = true → ∀ t ∈ sinceNewline past, t.kind.isLexeme = false

theorem reflects_start : start.Reflects [] where
  nested := ⟨by simp [start], rfl⟩
  balance := rfl
  depth := rfl
  lineOpen h := absurd nofun h
  lineStart _ t ht := nomatch ht

theorem bracket_of_isMark {k : TokenKind} (h : k.isMark = true) (depth : Nat) : bracket depth k = depth := by
  cases k <;> simp_all [bracket, TokenKind.isMark]

/-- A mark inside of a line changes nothing but the blocks; one that is no complaint stands where no line can
end. -/
theorem Reflects.mark {l l' : Layout} {past : List Token} {t : Token} (h : l.Reflects past)
    (hm : t.kind.isMark = true) (hn : t.kind ≠ .newline) (hq : t.kind.isError = false → l.Quiet)
    (hl : ∃ levels style, l' = { l with levels, style }) (hnested : Nested l'.levels)
    (hb : indents (past ++ [t]) + 1 = dedents (past ++ [t]) + l'.levels.length) :
    l'.Reflects (past ++ [t]) := by
  obtain ⟨levels, style, rfl⟩ := hl
  refine ⟨hnested, hb, ?_, fun hopen => ?_, fun hs u hu => ?_⟩
  · rw [openBrackets_concat, bracket_of_isMark hm]
    exact h.depth
  · cases he : t.kind.isError with
    | true => simpa [lastSound?_concat, he] using h.lineOpen hopen
    | false => exact absurd (hq he) hopen
  · rw [sinceNewline_concat, if_neg hn] at hu
    rcases List.mem_cons.1 hu with rfl | hu
    · exact TokenKind.isLexeme_eq_false_of_isMark hm
    · exact h.lineStart hs u hu

/-- A lexeme opens or closes a bracket and decides whether the line can end; one that could not be read
changes nothing. -/
theorem Reflects.lexeme {l : Layout} {past : List Token} {t : Token} (h : l.Reflects past)
    (hk : t.kind.isMark = false) (style : Option IndentStyle) :
    Reflects { l.after t.kind with style } (past ++ [t]) := by
  have hi : t.kind ≠ .indent := by intro he; simp [he, TokenKind.isMark] at hk
  have hd : t.kind ≠ .dedent := by intro he; simp [he, TokenKind.isMark] at hk
  have hn : t.kind ≠ .newline := by intro he; simp [he, TokenKind.isMark] at hk
  have hbalance : indents (past ++ [t]) + 1 = dedents (past ++ [t]) + (l.after t.kind).levels.length := by
    simpa [indents_concat, dedents_concat, hi, hd, levels_after] using h.balance
  have hnested : Nested (l.after t.kind).levels := (levels_after l t.kind).symm ▸ h.nested
  cases he : t.kind.isError with
  | true =>
    have hl : l.after t.kind = l := by simp [after, he]
    have hbracket : bracket l.depth t.kind = l.depth := by
      cases hkind : t.kind <;> simp_all [TokenKind.isError, bracket]
    rw [hl] at hbalance ⊢
    refine ⟨h.nested, hbalance, ?_, fun hopen => ?_, fun hs u hu => ?_⟩
    · rw [openBrackets_concat, ← h.depth, hbracket]
    · simpa [lastSound?_concat, he] using h.lineOpen hopen
    · rw [sinceNewline_concat, if_neg hn] at hu
      rcases List.mem_cons.1 hu with rfl | hu
      · exact TokenKind.isLexeme_eq_false_of_isError he
      · exact h.lineStart hs u hu
  | false =>
    refine ⟨hnested, hbalance, ?_, fun hopen => ⟨t, ?_, ?_⟩, fun hs => ?_⟩
    · rw [openBrackets_concat, ← h.depth]
      simp [after, he]
    · simp [lastSound?_concat, he]
    · simp only [Quiet, after, he] at hopen
      cases hc : t.kind.canEndLine <;> simp_all
    · simp [after, he] at hs

/-- Every step keeps what the tokens tell about the state. -/
theorem Reflects.step {ended : Prop} {l l' : Layout} {past : List Token} {t : Token}
    (h : l.Reflects past) (hs : l.Step ended t.kind l') : l'.Reflects (past ++ [t]) := by
  have hnested := hs.nested h.nested
  have hb := h.balance
  generalize hk : t.kind = k at hs
  cases hs with
  | newline ho hd =>
    refine ⟨hnested, ?_, ?_, fun hopen => absurd nofun hopen, fun _ u hu => ?_⟩
    · simpa [indents_concat, dedents_concat, hk, endLine] using hb
    · rw [openBrackets_concat, ← h.depth, hk]
      rfl
    · rw [sinceNewline_concat, if_pos hk] at hu
      nomatch hu
  | mixed =>
    refine h.mark (by rw [hk]; rfl) (by simp [hk]) (by simp [hk, TokenKind.isError]) ⟨_, _, rfl⟩ hnested ?_
    simpa [indents_concat, dedents_concat, hk] using hb
  | indent style hstart ho hw =>
    refine h.mark (by rw [hk]; rfl) (by simp [hk]) (fun _ => ho) ⟨_, _, rfl⟩ hnested ?_
    simp only [indents_concat, dedents_concat, hk, List.length_cons, reduceCtorEq, if_true, if_false]
    omega
  | dedent style hstart ho hl hne =>
    refine h.mark (by rw [hk]; rfl) (by simp [hk]) (fun _ => ho) ⟨_, _, rfl⟩ hnested ?_
    rw [hl, List.length_cons] at hb
    simp only [indents_concat, dedents_concat, hk, reduceCtorEq, if_true, if_false]
    omega
  | badDedent style hl hw hne ho =>
    refine h.mark (by rw [hk]; rfl) (by simp [hk]) (by simp [hk, TokenKind.isError]) ⟨_, _, rfl⟩ hnested ?_
    rw [hl] at hb
    simpa [indents_concat, dedents_concat, hk] using hb
  | lexeme style hm =>
    rw [← hk] at hm ⊢
    exact h.lexeme hm style
  | finish style ho hl =>
    refine h.mark (by rw [hk]; rfl) (by simp [hk]) (fun _ => ho) ⟨_, _, rfl⟩ hnested ?_
    simpa [indents_concat, dedents_concat, hk] using hb

end Layout

end DocScript
