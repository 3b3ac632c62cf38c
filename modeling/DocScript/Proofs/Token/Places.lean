import DocScript.Proofs.Text.Positions
import DocScript.Proofs.Token.Lossless
import Mathlib.Data.List.Forall2
import Mathlib.Data.List.TakeWhile

/-!
# Where tokens stand

A scanner counts lines and columns on its way. `Source.fronts` is the text that it has passed when it gives a token,
and the position of the token is the place behind that text (`Source.forall₂_tokens`), for lexemes the place where they
begin. Along a stream the spans of tokens are in order (`Source.ordered_tokens`). A lexeme ends before the next token
starts, because no lexeme ends with a line feed, unless it could not be read; and an indent stands on a later line than
all lexemes in front of it.
-/

namespace DocScript

/-! ## Lexemes and trivia -/

namespace Lexeme

theorem getLast?_stringBody (cs : List Char) (h : (stringBody cs).1.closed = true) :
    (stringBody cs).1.text.getLast? = some '"' := by
  fun_induction stringBody cs <;> simp_all [List.getLast?_cons]

theorem lineFeed_not_mem_decimalRun (point gap : Bool) (cs : List Char) : '\n' ∉ (decimalRun point gap cs).1 := by
  fun_induction decimalRun point gap cs <;> simp_all
  next hd _ _ _ _ =>
    rintro rfl
    contradiction

theorem lineFeed_not_mem_takeWhile {q : Char → Bool} (hq : q '\n' = false) (cs : List Char) :
    '\n' ∉ cs.takeWhile q := by
  intro hm
  rw [List.mem_takeWhile_imp hm] at hq
  contradiction

theorem lineFeed_not_mem_number {c : Char} (hc : c.isDigit = true) (cs : List Char) :
    '\n' ∉ (number c cs).1.text := by
  have hne : '\n' ≠ c := by
    rintro rfl
    simp at hc
  have hdecimal : '\n' ∉ (decimal c cs).1.text :=
    List.not_mem_cons_of_ne_of_not_mem hne (lineFeed_not_mem_decimalRun false false cs)
  unfold number
  split
  · exact hdecimal
  · next b ds =>
    split
    · next radix hr =>
      split
      · have hb : '\n' ≠ b := by
          rintro rfl
          simp [radix?] at hr
        exact List.not_mem_cons_of_ne_of_not_mem hne
          (List.not_mem_cons_of_ne_of_not_mem hb (lineFeed_not_mem_takeWhile rfl ds))
      · exact hdecimal
    · exact hdecimal

theorem lineFeed_not_mem_symbol (c : Char) (cs : List Char) (h : (symbol c cs).1.kind.isError = false) :
    '\n' ∉ (symbol c cs).1.text := by
  have hsingle (h : (single c).kind.isError = false) : '\n' ∉ (single c).text := by
    intro hm
    rw [single_text, List.mem_singleton] at hm
    subst hm
    contradiction
  unfold symbol at h ⊢
  split at h
  · exact hsingle h
  · next d ds =>
    split at h
    · next s hs =>
      intro hm
      rcases List.mem_pair.1 hm with rfl | rfl
      · simp [symbol2?] at hs
      · simp [symbol2?] at hs
    · exact hsingle h

/-- A lexeme that could be read does not end with a line feed. -/
theorem getLast?_scan (c : Char) (cs : List Char) :
    (scan c cs).1.kind.isError = false → (scan c cs).1.text.getLast? ≠ some '\n' := by
  unfold scan
  split
  · -- a string that was closed ends with a quote
    intro h
    have hclosed : (stringBody cs).1.closed = true := by
      simp only [string, StringBody.kind] at h
      split at h
      · assumption
      · contradiction
    simp [string, List.getLast?_cons, getLast?_stringBody cs hclosed]
  split
  · next hc => exact fun _ hl => lineFeed_not_mem_number hc cs (List.mem_of_getLast? hl)
  split
  · next hc =>
    have hne : '\n' ≠ c := by
      rintro rfl
      contradiction
    exact fun _ hl => List.not_mem_cons_of_ne_of_not_mem hne (lineFeed_not_mem_takeWhile rfl cs)
      (List.mem_of_getLast? hl)
  · exact fun h hl => lineFeed_not_mem_symbol c cs h (List.mem_of_getLast? hl)

end Lexeme

/-- Blanks are measured only behind a line feed. -/
theorem Trivia.lineFeed_mem_skipFrom (comment : Bool) (cs : List Char)
    (h : (skipFrom comment cs).1.entered.isSome = true) : '\n' ∈ (skipFrom comment cs).1.text := by
  fun_induction skipFrom comment cs <;> simp_all [empty, lineBreak, plain]

namespace Layout

/-- No block is opened to reach the innermost or the outermost one. -/
theorem indent_not_mem_settle {width : Nat} {levels : List Nat} (h : width = 0 ∨ width = levels.headD 0)
    (outer : List Nat) : (.indent, outer) ∉ settle width levels := by
  rcases h with rfl | rfl
  · induction levels with
    | nil => simp [settle]
    | cons level levels ih =>
      rw [settle]
      split
      · simp [ih]
      · simp
  · cases levels with
    | nil => simp [settle]
    | cons level levels => simp [settle]

/-- A block is opened only on a line that was entered. -/
theorem entered_of_indent {l l' : Layout} {entered : Option Leading} {atEnd : Bool}
    (h : (.indent, l') ∈ (l.enter entered atEnd).1) : entered.isSome = true := by
  cases entered with
  | some leading => rfl
  | none =>
    have hm : l.measured none = none := ite_self _
    have hblocks (l₁ : Layout) (hl : l₁.levels = l.levels) :
        (.indent, l') ∉ l₁.blocks (if atEnd then 0 else l.top) := by
      intro hb
      obtain ⟨⟨k, levels⟩, hx, he⟩ := List.mem_map.1 hb
      obtain ⟨rfl, -⟩ := Prod.mk.inj he
      refine indent_not_mem_settle ?_ levels hx
      cases atEnd with
      | true => exact .inl rfl
      | false => exact .inr (congrArg (·.headD 0) hl.symm)
    simp only [enter, hm, List.append_nil, List.mem_append] at h
    split at h
    · exact absurd h (not_or_intro (by simp) (hblocks _ rfl))
    · exact absurd h (not_or_intro (by simp) (hblocks _ rfl))

end Layout

/-- A segment as they are cut : its trivia cross a line break if blanks were measured, and its lexeme is no mark, is not
empty, and does not end with a line feed unless it could not be read. -/
structure Segment.Proper (s : Segment) : Prop where
  entered : s.trivia.entered.isSome = true → '\n' ∈ s.trivia.text
  isMark : s.lexeme.kind.isMark = false
  ne_nil : s.lexeme.text ≠ []
  getLast? : s.lexeme.kind.isError = false → s.lexeme.text.getLast? ≠ some '\n'

theorem Segmentation.proper_ofText (cs : List Char) :
    (∀ s ∈ (ofText cs).segments, s.Proper) ∧
      ((ofText cs).last.entered.isSome = true → '\n' ∈ (ofText cs).last.text) := by
  fun_induction ofText cs with
  | case1 cs t h =>
    have ht := Trivia.lineFeed_mem_skipFrom false cs
    rw [Trivia.skip] at h
    rw [h] at ht
    exact ⟨by simp, ht⟩
  | case2 cs t c rest h ih =>
    have ht := Trivia.lineFeed_mem_skipFrom false cs
    rw [Trivia.skip] at h
    rw [h] at ht
    obtain ⟨u, hu, -⟩ := Lexeme.scan_split c rest
    simp only [cons, List.mem_cons, forall_eq_or_imp]
    exact ⟨⟨⟨ht, Lexeme.isMark_scan c rest, by simp [hu], Lexeme.getLast?_scan c rest⟩, ih.1⟩, ih.2⟩

theorem TokenKind.isError_eq_false_of_isLexeme {k : TokenKind} (h : k.isLexeme = true) : k.isError = false := by
  cases k <;> simp_all [isError, isLexeme]

@[simp] theorem Token.span_ofMark (p : Pos) (next : List Char) (k : TokenKind) : (ofMark p next k).span = .point p := by
  unfold ofMark
  split <;> rfl

/-! ## The text in front of a token -/

/-- What has been passed when each token is given, of segments behind the text `front` and in front of the trivia
`last`. -/
def frontsFrom (last : Trivia) (l : Layout) (front : List Char) : List Segment → List (List Char)
  | [] =>
    let front := front ++ last.text
    (l.enter last.entered true).1.map (fun _ => front) ++ [front]
  | s :: segments =>
    let front := front ++ s.trivia.text
    let (marks, l) := l.enter s.trivia.entered false
    marks.map (fun _ => front) ++
      front :: frontsFrom last (l.after s.lexeme.kind) (front ++ s.lexeme.text) segments

/-- What has been passed when each token of a script is given. -/
def Source.fronts (s : Source) : List (List Char) :=
  let x := Segmentation.ofText s.text.toList
  frontsFrom x.last .start [] x.segments

/-- The token quotes the start of the text `rest` : all that it was read from, or an excerpt if that could not be read.
Marks quote nothing. -/
structure Token.Quotes (t : Token) (rest : List Char) : Prop where
  sound : t.kind.isError = false → t.literal.toList <+: rest
  error : t.kind.isError = true → t.literal = "" ∨ ∃ x, x ≠ [] ∧ x <+: rest ∧ t.literal = excerpt x
  lexeme : t.kind.isLexeme = true → t.literal ≠ ""

theorem Token.quotes_ofMark (p : Pos) {k : TokenKind} (hk : k.isMark = true) (next rest : List Char) :
    (ofMark p next k).Quotes (next ++ rest) := by
  refine ⟨fun he => ?_, fun he => ?_, fun hl => absurd hl ?_⟩
  · rw [kind_ofMark] at he
    unfold ofMark
    split
    · contradiction
    · exact List.nil_prefix
  · unfold ofMark
    split
    · -- the character that follows is quoted if it is a single byte
      cases next with
      | nil => exact .inl rfl
      | cons c next =>
        simp only [upcoming]
        split
        · exact .inr ⟨[c], List.cons_ne_nil _ _, ⟨next ++ rest, rfl⟩, rfl⟩
        · exact .inl rfl
    · exact .inl rfl
  · simp [TokenKind.isLexeme_eq_false_of_isMark hk]

theorem Token.quotes_ofLexeme (p : Pos) {x : Lexeme} (hx : x.text ≠ []) (rest : List Char) :
    (ofLexeme p x).Quotes (x.text ++ rest) := by
  refine ⟨fun he => ?_, fun he => ?_, fun hl => ?_⟩
  · have he : x.kind.isError = false := he
    simp [ofLexeme, he]
  · have he : x.kind.isError = true := he
    exact .inr ⟨x.text, hx, List.prefix_append _ _, by simp [ofLexeme, he]⟩
  · have he : x.kind.isError = false := TokenKind.isError_eq_false_of_isLexeme hl
    simpa [ofLexeme, he] using hx

/-- The token stands behind the text `front`, and quotes what follows there. -/
def Token.StandsIn (text : List Char) (t : Token) (front : List Char) : Prop :=
  ∃ rest, text = front ++ rest ∧ t.span.start = Pos.start.advance front ∧ t.Quotes rest

theorem forall₂_marksAt {text front next rest : List Char} (h : text = front ++ (next ++ rest)) (l : Layout)
    (entered : Option Leading) (atEnd : Bool) :
    List.Forall₂ (Token.StandsIn text)
      ((marksAt (Pos.start.advance front) next (l.enter entered atEnd).1).map Prod.fst)
      ((l.enter entered atEnd).1.map fun _ => front) := by
  simp only [marksAt, List.map_map, List.forall₂_map_left_iff, List.forall₂_map_right_iff, List.forall₂_same]
  intro x hx
  refine ⟨next ++ rest, h, ?_, Token.quotes_ofMark _ (l.isMark_enter entered atEnd x hx) next rest⟩
  rw [Function.comp_apply, Token.span_ofMark]
  rfl

/-- The induction goes along the segments; `front` is what they stand behind. -/
theorem forall₂_traceFrom (last : Trivia) : ∀ {segments : List Segment}, (∀ s ∈ segments, s.Proper) →
    ∀ (l : Layout) (front : List Char),
      List.Forall₂ (Token.StandsIn (front ++ (segments.flatMap Segment.text ++ last.text)))
        ((traceFrom last l (Pos.start.advance front) segments).map Prod.fst) (frontsFrom last l front segments)
  | [], _, l, front => by
    have ht : front ++ last.text = front ++ last.text ++ ([] ++ []) := by simp
    rw [traceFrom, frontsFrom, List.map_append, ← Pos.advance_append]
    refine List.rel_append (forall₂_marksAt ht l _ _) (.cons ⟨[], ?_, rfl, ?_⟩ .nil)
    · simp
    · exact Token.quotes_ofMark _ (k := .endOfFile) rfl [] []
  | s :: segments, hs, l, front => by
    obtain ⟨hp, hs⟩ := List.forall_mem_cons.1 hs
    have ht : front ++ ((s :: segments).flatMap Segment.text ++ last.text) =
        front ++ s.trivia.text ++ (s.lexeme.text ++ (segments.flatMap Segment.text ++ last.text)) := by
      simp [Segment.text]
    have ih := forall₂_traceFrom last hs ((l.enter s.trivia.entered false).2.after s.lexeme.kind)
      (front ++ s.trivia.text ++ s.lexeme.text)
    rw [List.append_assoc (front ++ s.trivia.text), ← ht, Pos.advance_append] at ih
    rw [traceFrom, frontsFrom, List.map_append, ← Pos.advance_append, List.map_cons]
    refine List.rel_append (forall₂_marksAt ht l _ _) (.cons ⟨_, ht, rfl, ?_⟩ ih)
    exact Token.quotes_ofLexeme _ hp.ne_nil _

/-- Every token of a script stands behind the text that was passed when it was given. -/
theorem Source.forall₂_tokens (s : Source) :
    List.Forall₂ (Token.StandsIn s.text.toList) s.tokens s.fronts := by
  have h := forall₂_traceFrom (Segmentation.ofText s.text.toList).last
    (Segmentation.proper_ofText s.text.toList).1 .start []
  rw [List.nil_append] at h
  have ht := Segmentation.text_ofText s.text.toList
  rw [Segmentation.text] at ht
  rwa [ht] at h

/-! ## The order of tokens -/

/-- The span of a token does not end before it starts, and a mark is one place. -/
structure Token.Spanned (t : Token) : Prop where
  ordered : t.span.start ≤ t.span.stop
  col_pos : 1 ≤ t.span.stop.col
  point : t.kind.isMark = true → t.span.stop = t.span.start

/-- The token `u` starts behind the token `t`, and if `t` is a lexeme and `u` an indent, on a later line. -/
structure Token.Before (t u : Token) : Prop where
  le : t.span.stop ≤ u.span.start
  lt : t.kind.isLexeme = true → t.span.stop < u.span.start
  line_lt : t.kind.isLexeme = true → u.kind = .indent → t.span.stop.line < u.span.start.line

/-- The token starts at the place `p` or behind it, and an indent on a later line. -/
structure Token.From (p : Pos) (t : Token) : Prop where
  le : p ≤ t.span.start
  line_lt : t.kind = .indent → p.line < t.span.start.line

namespace Token

theorem From.mono {p q : Pos} {t : Token} (h : t.From q) (hpq : p ≤ q) : t.From p :=
  ⟨hpq.trans h.le, fun hk => Nat.lt_of_le_of_lt (Pos.line_le hpq) (h.line_lt hk)⟩

/-- A mark stands before everything that starts at its place. -/
theorem before_of_isMark {t u : Token} (hs : t.Spanned) (hk : t.kind.isMark = true) (h : t.span.start ≤ u.span.start) :
    t.Before u := by
  have hl : t.kind.isLexeme ≠ true := by simp [TokenKind.isLexeme_eq_false_of_isMark hk]
  exact ⟨(hs.point hk).trans_le h, fun h => absurd h hl, fun h => absurd h hl⟩

theorem spanned_ofMark {p : Pos} (hp : 1 ≤ p.col) (next : List Char) (k : TokenKind) : (ofMark p next k).Spanned := by
  constructor
  · simp [Span.point]
  · simpa [Span.point] using hp
  · simp [Span.point]

theorem spanned_ofLexeme (p : Pos) {s : Segment} (hs : s.Proper) : (ofLexeme p s.lexeme).Spanned where
  ordered := Pos.le_lastOf (p.lt_advance hs.ne_nil)
  col_pos := Nat.le_max_right _ 1
  point hk := absurd hk (by simp [ofLexeme, hs.isMark])

/-- A lexeme stands before everything that starts behind its text. -/
theorem before_ofLexeme {p : Pos} (hp : 1 ≤ p.col) {s : Segment} (hs : s.Proper) {u : Token}
    (hu : u.From (p.advance s.lexeme.text)) : (ofLexeme p s.lexeme).Before u where
  le := (Pos.lastOf_le (Pos.col_pos_advance hp _)).trans hu.le
  lt hl := by
    obtain ⟨c, hc⟩ := Option.isSome_iff_exists.1 (List.getLast?_isSome.2 hs.ne_nil)
    refine lt_of_lt_of_le (Pos.lastOf_lt (Pos.one_lt_col_advance hp hc ?_)) hu.le
    rintro rfl
    exact hs.getLast? (TokenKind.isError_eq_false_of_isLexeme hl) hc
  line_lt _ hk := hu.line_lt hk

end Token

/-- Tokens that start at `p` or behind, in order. -/
structure Ordered (p : Pos) (ts : List Token) : Prop where
  pairwise : ts.Pairwise Token.Before
  spanned : ∀ t ∈ ts, t.Spanned
  starts : ∀ t ∈ ts, t.From p

/-- The marks of the line structure stand behind the trivia `t`, in front of the tokens `ts`. -/
theorem Ordered.marks {p : Pos} {t : Trivia} {ts : List Token} (h : Ordered (p.advance t.text) ts) (hp : 1 ≤ p.col)
    (ht : t.entered.isSome = true → '\n' ∈ t.text) (l : Layout) (atEnd : Bool) (next : List Char) :
    Ordered p ((marksAt (p.advance t.text) next (l.enter t.entered atEnd).1).map Prod.fst ++ ts) := by
  have hmarks : ∀ m ∈ (marksAt (p.advance t.text) next (l.enter t.entered atEnd).1).map Prod.fst,
      m.Spanned ∧ m.From p ∧ m.kind.isMark = true ∧ m.span.start = p.advance t.text := by
    intro m hm
    simp only [marksAt, List.map_map, List.mem_map] at hm
    obtain ⟨⟨k, l'⟩, hx, rfl⟩ := hm
    refine ⟨Token.spanned_ofMark (Pos.col_pos_advance hp _) next k, ⟨?_, fun hk => ?_⟩, ?_, ?_⟩
    · simpa [Span.point] using p.le_advance t.text
    · obtain rfl : k = .indent := by simpa using hk
      simpa [Span.point] using p.line_lt_advance (ht (l.entered_of_indent hx))
    · simpa using l.isMark_enter t.entered atEnd _ hx
    · simp [Span.point]
  refine ⟨List.pairwise_append.2 ⟨?_, h.pairwise, fun m hm u hu => ?_⟩, fun m hm => ?_, fun m hm => ?_⟩
  · refine List.pairwise_of_forall_mem_list fun m hm u hu => ?_
    obtain ⟨hspan, -, hk, hstart⟩ := hmarks m hm
    exact Token.before_of_isMark hspan hk (hstart.trans (hmarks u hu).2.2.2.symm).le
  · obtain ⟨hspan, -, hk, hstart⟩ := hmarks m hm
    exact Token.before_of_isMark hspan hk (hstart.trans_le (h.starts u hu).le)
  · exact (List.mem_append.1 hm).elim (fun hm => (hmarks m hm).1) (h.spanned m)
  · exact (List.mem_append.1 hm).elim (fun hm => (hmarks m hm).2.1) fun hm => (h.starts m hm).mono (p.le_advance _)

/-- The tokens of segments that stand at `p`. -/
theorem ordered_traceFrom {last : Trivia} (hlast : last.entered.isSome = true → '\n' ∈ last.text) :
    ∀ {segments : List Segment}, (∀ s ∈ segments, s.Proper) → ∀ (l : Layout) {p : Pos}, 1 ≤ p.col →
      Ordered p ((traceFrom last l p segments).map Prod.fst)
  | [], _, l, p, hp => by
    rw [traceFrom, List.map_append]
    refine Ordered.marks ⟨List.pairwise_singleton _ _, ?_, ?_⟩ hp hlast l true []
    · exact List.forall_mem_singleton.2 (Token.spanned_ofMark (Pos.col_pos_advance hp _) [] .endOfFile)
    · exact List.forall_mem_singleton.2 ⟨le_refl _, fun hk => TokenKind.noConfusion hk⟩
  | s :: segments, hs, l, p, hp => by
    obtain ⟨hproper, hs⟩ := List.forall_mem_cons.1 hs
    have hp' := Pos.col_pos_advance hp s.trivia.text
    have ih := ordered_traceFrom hlast hs ((l.enter s.trivia.entered false).2.after s.lexeme.kind)
      (Pos.col_pos_advance hp' s.lexeme.text)
    rw [traceFrom, List.map_append, List.map_cons]
    refine Ordered.marks ⟨List.pairwise_cons.2 ⟨fun u hu => ?_, ih.pairwise⟩, ?_, ?_⟩ hp hproper.entered l false _
    · exact Token.before_ofLexeme hp' hproper (ih.starts u hu)
    · exact List.forall_mem_cons.2 ⟨Token.spanned_ofLexeme _ hproper, ih.spanned⟩
    · refine List.forall_mem_cons.2 ⟨⟨le_refl _, fun hk => ?_⟩, fun t ht => ?_⟩
      · have hm := hproper.isMark
        rw [show s.lexeme.kind = .indent from hk] at hm
        contradiction
      · exact (ih.starts t ht).mono (Pos.le_advance _ _)

/-- The tokens of a script are in order. -/
theorem Source.ordered_tokens (s : Source) : Ordered .start s.tokens :=
  have h := Segmentation.proper_ofText s.text.toList
  ordered_traceFrom h.2 h.1 .start (Nat.le_refl 1)

end DocScript
