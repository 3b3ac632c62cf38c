import DocScript.Proofs.Token.Joined
import DocScript.Proofs.Token.Scanner

/-!
# Lines that go on

Inside brackets, and behind a lexeme that cannot end its line, line breaks and blanks do not count. There any run of
trivia can be put in the place of another, and the tokens show the same (`Source.contents_continued`).

Up to such a place the text is read in the same way, whatever stands behind the blank that follows : two scanners that
differ in this only go side by side (`Scanner.next_replace`). From there on, the marks in front of the next lexeme
do not depend on the line that was entered (`Layout.enter_of_goesOn`).
-/

namespace DocScript

variable {r r' : List Char}

/-! ## Texts that differ behind a blank -/

/-- Trivia are skipped in the same way up to a lexeme, if both texts are alike in what could begin a comment. -/
theorem Trivia.skipFrom_replace {comment : Bool} {cs : List Char} {t : Trivia} {c : Char} {w w' : List Char}
    (h : skipFrom comment cs = (t, c :: w)) (hw : w'.head? = some '/' ↔ w.head? = some '/') :
    skipFrom comment (t.text ++ c :: w') = (t, c :: w') := by
  fun_induction skipFrom comment cs generalizing t with
  | case1 => cases h
  | case2 comment cs t rest hs ih =>
    cases h
    rw [lineBreak, List.cons_append, skipFrom, if_pos rfl, ih hs]
    rfl
  | case3 d cs hd t rest hs ih =>
    cases h
    rw [plain, List.cons_append, skipFrom_comment hd, ih hs]
    rfl
  | case4 comment cs hcomment t rest hs h₁ ih =>
    cases h
    rw [plain, List.cons_append, skipFrom, if_neg h₁, if_neg hcomment, if_pos rfl, ih hs]
    rfl
  | case5 comment cs hcomment t rest hs h₁ h₂ ih =>
    cases h
    rw [plain, List.cons_append, skipFrom, if_neg h₁, if_neg hcomment, if_neg h₂, if_pos rfl, ih hs]
    rfl
  | case6 comment cs hcomment t rest hs h₁ h₂ h₃ ih =>
    cases h
    rw [plain, List.cons_append, skipFrom, if_neg h₁, if_neg hcomment, if_neg h₂, if_neg h₃, if_pos rfl, ih hs]
    rfl
  | case7 comment d cs h₁ hcomment h₂ h₃ h₄ hslash t rest hs ih =>
    cases h
    have hhead : (t.text ++ c :: w').head? = some '/' := by
      obtain ⟨cs, rfl⟩ := List.head?_eq_some_iff.1 hslash.2
      rw [skipFrom_comment (by decide)] at hs
      obtain ⟨rfl, -⟩ := Prod.mk.inj hs
      rfl
    rw [plain, List.cons_append, skipFrom, if_neg h₁, if_neg hcomment, if_neg h₂, if_neg h₃, if_neg h₄,
      if_pos ⟨hslash.1, hhead⟩, ih hs]
    rfl
  | case8 comment d cs h₁ hcomment h₂ h₃ h₄ hslash =>
    cases h
    rw [empty, List.nil_append, skipFrom, if_neg h₁, if_neg hcomment, if_neg h₂, if_neg h₃, if_neg h₄,
      if_neg fun h => hslash (h.imp_right hw.1)]
    rfl

/-- A lexeme that ends in front of a blank is read in the same way. -/
theorem Lexeme.scan_replace {c : Char} {b v : List Char} (hr : Apart r) (hne : r ≠ []) (hr' : Apart r')
    (h : (scan c (b ++ r)).2 = v ++ r) : scan c (b ++ r') = ((scan c (b ++ r)).1, v ++ r') := by
  by_cases hc : c = '"'
  · subst hc
    have hrest : (stringBody (b ++ r)).2 = v ++ r := h
    cases hclosed : (stringBody (b ++ r)).1.closed with
    | true =>
      have hb : (stringBody (b ++ r)).1.text ++ v = b := by
        refine (List.append_left_inj r).1 ?_
        rw [List.append_assoc, ← hrest, stringBody_split]
      have hbody : stringBody (b ++ r') = ((stringBody (b ++ r)).1, v ++ r') := by
        have hb' : b ++ r' = (stringBody (b ++ r)).1.text ++ (v ++ r') := by rw [← List.append_assoc, hb]
        rw [hb', stringBody_text hclosed]
      simp only [scan, if_pos, string, hbody]
    | false =>
      rw [stringBody_open hclosed] at hrest
      exact absurd (List.append_eq_nil_iff.1 hrest.symm).2 hne
  · rw [scan_apart hc hr] at h ⊢
    rw [scan_apart hc hr', List.append_cancel_right h]

namespace Scanner

/-- The scanner with another text in front. -/
def facing (x : Scanner) (cs : List Char) : Scanner := { x with ahead := some cs }

theorem look_of_lexeme (x : Scanner) {cs : List Char} {t : Trivia} {c : Char} {rest : List Char}
    (h : Trivia.skip cs = (t, c :: rest)) :
    x.look cs = ⟨some (Lexeme.scan c rest).2,
      (x.pos.advance t.text).advance (Lexeme.scan c rest).1.text,
      marksAt (x.pos.advance t.text) (Lexeme.scan c rest).1.text (x.layout.enter t.entered false).1 ++
        [(.ofLexeme (x.pos.advance t.text) (Lexeme.scan c rest).1,
          (x.layout.enter t.entered false).2.after (Lexeme.scan c rest).1.kind)],
      x.layout⟩ := by
  rw [look, h]

theorem look_of_end (x : Scanner) {cs : List Char} {t : Trivia} (h : Trivia.skip cs = (t, [])) :
    (x.look cs).ahead = none := by
  rw [look, h]

/-- What is found in front of a blank does not depend on what follows the blank. -/
theorem look_replace (x : Scanner) {w v : List Char} (hr : Lexeme.Apart r) (hne : r ≠ []) (hr' : Lexeme.Apart r')
    (h : (x.look (w ++ r)).ahead = some (v ++ r)) :
    (x.facing (w ++ r')).look (w ++ r') = (x.look (w ++ r)).facing (v ++ r') := by
  rcases hs : Trivia.skip (w ++ r) with ⟨t, _ | ⟨c, rest⟩⟩
  · rw [x.look_of_end hs] at h
    contradiction
  · have hsplit := Trivia.skip_split (w ++ r)
    obtain ⟨u, -, hu⟩ := Lexeme.scan_split c rest
    rw [x.look_of_lexeme hs] at h
    have hrest : (Lexeme.scan c rest).2 = v ++ r := Option.some.inj h
    rw [hrest, ← List.append_assoc] at hu
    subst hu
    rw [hs] at hsplit
    have hw : w = t.text ++ c :: (u ++ v) := by
      refine (List.append_left_inj r).1 ?_
      rw [← hsplit]
      simp
    have hs' : Trivia.skip (w ++ r') = (t, c :: (u ++ v ++ r')) := by
      have hhead := (hr'.head?_append (c := '/') (by decide) (u ++ v)).trans
        (hr.head?_append (c := '/') (by decide) (u ++ v)).symm
      rw [hw, List.append_assoc, List.cons_append]
      exact Trivia.skipFrom_replace hs hhead
    rw [look_of_lexeme _ hs', x.look_of_lexeme hs, Lexeme.scan_replace hr hne hr' hrest]
    rfl

theorem next_of_found {x : Scanner} (h : x.found ≠ []) : x.next = x.give := by
  obtain ⟨y, found, hf⟩ := List.exists_cons_of_ne_nil h
  rw [next, hf]

theorem next_of_ahead {x : Scanner} {cs : List Char} (hf : x.found = []) (ha : x.ahead = some cs) :
    x.next = (x.look cs).give := by
  rw [next, hf, ha]

theorem ahead_give (x : Scanner) : x.give.2.ahead = x.ahead := by
  rw [give]
  split <;> rfl

theorem give_facing (x : Scanner) (cs : List Char) : (x.facing cs).give = (x.give.1, x.give.2.facing cs) := by
  rcases hf : x.found with _ | ⟨⟨t, l⟩, found⟩ <;> simp [give, facing, hf]

/-- A scanner goes on in the text that is in front of it. -/
theorem ahead_next {x : Scanner} {cs : List Char} (h : x.next.2.ahead = some cs) : ∃ w, x.ahead = some (w ++ cs) := by
  by_cases hf : x.found = []
  · cases ha : x.ahead with
    | none => simp [next, hf, ha, give] at h
    | some text =>
      rw [next_of_ahead hf ha, ahead_give] at h
      rcases hs : Trivia.skip text with ⟨t, _ | ⟨c, rest⟩⟩
      · rw [x.look_of_end hs] at h
        contradiction
      · have hsplit := Trivia.skip_split text
        obtain ⟨u, -, hu⟩ := Lexeme.scan_split c rest
        rw [x.look_of_lexeme hs] at h
        obtain rfl : (Lexeme.scan c rest).2 = cs := Option.some.inj h
        refine ⟨t.text ++ c :: u, ?_⟩
        rw [← hsplit, hs, List.append_assoc, List.cons_append, hu]
  · rw [next_of_found hf, ahead_give] at h
    exact ⟨[], h⟩

/-- Two scanners in front of texts that differ behind a blank give the same token, if the lexeme that they find ends in
front of the blank. -/
theorem next_replace {x : Scanner} {w v : List Char} (hr : Lexeme.Apart r) (hne : r ≠ []) (hr' : Lexeme.Apart r')
    (hx : x.ahead = some (w ++ r)) (h : x.next.2.ahead = some (v ++ r)) :
    (x.facing (w ++ r')).next = (x.next.1, x.next.2.facing (v ++ r')) := by
  by_cases hf : x.found = []
  · rw [next_of_ahead hf hx, ahead_give] at h
    rw [next_of_ahead hf hx, next_of_ahead (x := x.facing (w ++ r')) hf rfl, x.look_replace hr hne hr' h, give_facing]
  · rw [next_of_found hf, ahead_give, hx, Option.some.injEq, List.append_cancel_right_eq] at h
    rw [next_of_found hf, next_of_found (x := x.facing (w ++ r')) hf, give_facing, h]

end Scanner

namespace Source

/-- The text in front of a scanner is the end of the text that was in front of it before. -/
theorem ahead_scanner {s : Source} {n : Nat} (hn : (s.scanner n).ahead = some r) :
    ∀ k ≤ n, ∃ w, (s.scanner (n - k)).ahead = some (w ++ r) := by
  intro k hk
  induction k with
  | zero => exact ⟨[], hn⟩
  | succ k ih =>
    obtain ⟨w, hw⟩ := ih (by omega)
    have hnext : (s.scanner (n - (k + 1))).next.2.ahead = some (w ++ r) := by
      rw [← scanner_succ, ← hw]
      congr 2
      omega
    obtain ⟨w', hw'⟩ := Scanner.ahead_next hnext
    exact ⟨w' ++ w, by rw [hw', List.append_assoc]⟩

/-- Up to a blank, the tokens of a script do not depend on what follows the blank. -/
theorem scanner_replace (s s' : Source) {p : List Char} {n : Nat} (hr : Lexeme.Apart r) (hne : r ≠ [])
    (hr' : Lexeme.Apart r') (hs : s.text.toList = p ++ r) (hs' : s'.text.toList = p ++ r')
    (hn : (s.scanner n).ahead = some r) :
    s'.pull n = s.pull n ∧ s'.scanner n = (s.scanner n).facing r' := by
  have hrun : ∀ m ≤ n, ((Scanner.start s').take m).1 = ((Scanner.start s).take m).1 ∧
      ∃ w, (s.scanner m).ahead = some (w ++ r) ∧ s'.scanner m = (s.scanner m).facing (w ++ r') := by
    intro m hm
    induction m with
    | zero => exact ⟨rfl, p, congrArg some hs, by simp [scanner, Scanner.start, Scanner.take, Scanner.facing, hs']⟩
    | succ m ih =>
      obtain ⟨htokens, w, hw, hstate⟩ := ih (by omega)
      obtain ⟨v, hv⟩ := ahead_scanner hn (n - (m + 1)) (by omega)
      rw [Nat.sub_sub_self hm] at hv
      have hnext := Scanner.next_replace hr hne hr' hw (by rw [← scanner_succ, hv])
      rw [← hstate] at hnext
      refine ⟨?_, v, hv, ?_⟩
      · have htake (s : Source) : ((Scanner.start s).take (m + 1)).1 =
            ((Scanner.start s).take m).1 ++ [(s.scanner m).next.1] := rfl
        rw [htake, htake, htokens, hnext]
      · rw [scanner_succ, hnext, scanner_succ]
  obtain ⟨htokens, w, hw, hstate⟩ := hrun n (Nat.le_refl n)
  rw [hn, Option.some.injEq, List.self_eq_append_left] at hw
  rw [hw, List.nil_append] at hstate
  exact ⟨by rw [← (s'.scanned n).tokens, ← (s.scanned n).tokens, htokens], hstate⟩

end Source

/-! ## Trivia in the middle of a line -/

/-- Blanks, line feeds and comments with the line feeds that end them; the first is no comment. -/
def TriviaRun (t : String) : Prop := Gap False t.toList ∧ ∃ c ∈ t.toList.head?, c ∈ [' ', '\t', '\r', '\n']

theorem TriviaRun.apart {t : String} (h : TriviaRun t) (q : List Char) :
    Lexeme.Apart (t.toList ++ q) ∧ t.toList ++ q ≠ [] := by
  obtain ⟨-, c, hc, hblank⟩ := h
  obtain ⟨cs, hcs⟩ := List.head?_eq_some_iff.1 hc
  rw [hcs]
  exact ⟨fun d hd => by cases hd; exact hblank, by simp⟩

/-- A comment ends with its line. -/
theorem Trivia.skipFrom_comment_lineFeed {body : List Char} (h : '\n' ∉ body) (cs : List Char) :
    (skipFrom true (body ++ '\n' :: cs)).2 = (skip cs).2 := by
  induction body with
  | nil => rfl
  | cons c body ih =>
    rw [List.mem_cons, not_or] at h
    rw [List.cons_append, skipFrom_comment (Ne.symm h.1)]
    exact ih h.2

/-- Behind a gap the text goes on as if it stood alone. -/
theorem Gap.skip {t : List Char} (h : Gap False t) (q : List Char) :
    (Trivia.skip (t ++ q)).2 = (Trivia.skip q).2 := by
  induction h with
  | nil => rfl
  | @blank c cs hc _ ih =>
    rw [← ih, List.cons_append]
    by_cases hfeed : c = '\n'
    · rw [hfeed, Trivia.skip_lineFeed]
    · refine (Trivia.skip_blank ?_ _).1
      simpa [hfeed] using hc
  | @comment body cs hb _ ih =>
    rw [← ih, ← Trivia.skipFrom_comment_lineFeed hb (cs ++ q), Trivia.skip]
    simp [Trivia.skipFrom]
  | openComment he => exact he.elim

namespace Layout

/-- To reach the width zero, blocks are closed. -/
theorem kind_settle_zero {levels : List Nat} {m : TokenKind × List Nat} (h : m ∈ settle 0 levels) : m.1 = .dedent := by
  induction levels with
  | nil => cases h
  | cons level outer ih =>
    simp only [settle, Nat.not_lt_zero, if_false] at h
    split at h
    · rcases List.mem_cons.1 h with rfl | h
      · rfl
      · exact ih h
    · cases h

/-- A bracket is open, or the line has begun and cannot end here. -/
def GoesOn (l : Layout) : Prop := l.depth ≠ 0 ∨ l.lineOpen = false ∧ l.lineStart = false

variable {l : Layout} (h : l.GoesOn)

include h

theorem GoesOn.measured (entered : Option Leading) : l.measured entered = none := by
  rcases h with h | ⟨h₁, h₂⟩
  · simp [Layout.measured, h]
  · simp [Layout.measured, h₁, h₂]

theorem GoesOn.ends (entered : Option Leading) (atEnd : Bool) : l.ends entered atEnd = false := by
  rcases h with h | ⟨h, -⟩ <;> simp [Layout.ends, h]

/-- No mark stands in front of a lexeme in the middle of a line. -/
theorem enter_of_goesOn (hl : Nested l.levels) (entered : Option Leading) : l.enter entered false = ([], l) := by
  obtain ⟨level, outer, hlevels⟩ := List.exists_cons_of_ne_nil hl.ne_nil
  have hblocks : l.blocks l.top = [] := by simp [blocks, top, hlevels, settle_top]
  simp [enter, h.ends, h.measured, hblocks]

/-- The end of the text closes all blocks. -/
theorem enter_end_of_goesOn (entered : Option Leading) :
    l.enter entered true = (l.blocks 0, l.behind (l.blocks 0)) := by
  simp [enter, h.ends, h.measured]

end Layout

section Contents

variable {l : Layout} (h : l.GoesOn) {cs : List Char} {t : Trivia}

include h

theorem contentsFrom_goesOn_end (hs : Trivia.skip cs = (t, [])) :
    contentsFrom l (sketch cs).2 (sketch cs).1 = markContents [] (l.blocks 0) ++ [(.endOfFile, "")] := by
  rw [sketch_of_end hs, contentsFrom, ending, Layout.enter_end_of_goesOn h]

theorem contentsFrom_goesOn_lexeme (hl : Layout.Nested l.levels) {c : Char} {rest : List Char}
    (hs : Trivia.skip cs = (t, c :: rest)) :
    contentsFrom l (sketch cs).2 (sketch cs).1 = (Token.ofLexeme .start (Lexeme.scan c rest).1).content ::
      contentsFrom (l.after (Lexeme.scan c rest).1.kind) (sketch (Lexeme.scan c rest).2).2
        (sketch (Lexeme.scan c rest).2).1 := by
  rw [sketch_of_lexeme hs, contentsFrom, Layout.pass, Layout.enter_of_goesOn h hl]
  rfl

/-- In the middle of a line, a gap in front of a text makes no difference. -/
theorem contentsFrom_gap (hl : Layout.Nested l.levels) {g : List Char} (hg : Gap False g) :
    contentsFrom l (sketch (g ++ cs)).2 (sketch (g ++ cs)).1 = contentsFrom l (sketch cs).2 (sketch cs).1 := by
  have hskip := hg.skip cs
  rcases hs : Trivia.skip cs with ⟨t, rest⟩
  rw [hs] at hskip
  cases rest with
  | nil => rw [contentsFrom_goesOn_end h hs, contentsFrom_goesOn_end h (Prod.ext rfl hskip)]
  | cons c rest => rw [contentsFrom_goesOn_lexeme h hl hs, contentsFrom_goesOn_lexeme h hl (Prod.ext rfl hskip)]

/-- What comes next is no mark, or the text has ended and all blocks are closed. -/
theorem kinds_contentsFrom_goesOn (hl : Layout.Nested l.levels) (cs : List Char) :
    (∃ k ks, (contentsFrom l (sketch cs).2 (sketch cs).1).map Prod.fst = k :: ks ∧ k.isMark = false) ∨
      ∃ m, (contentsFrom l (sketch cs).2 (sketch cs).1).map Prod.fst = List.replicate m .dedent ++ [.endOfFile] := by
  rcases hs : Trivia.skip cs with ⟨t, _ | ⟨c, rest⟩⟩
  · refine .inr ⟨(Layout.settle 0 l.levels).length, ?_⟩
    rw [contentsFrom_goesOn_end h hs, List.map_append, kinds_markContents, Layout.blocks, List.map_map]
    refine congrArg (· ++ _) (List.eq_replicate_iff.2 ⟨by simp, fun k hk => ?_⟩)
    obtain ⟨m, hm, rfl⟩ := List.mem_map.1 hk
    exact Layout.kind_settle_zero hm
  · rw [contentsFrom_goesOn_lexeme h hl hs]
    exact .inl ⟨_, _, rfl, Lexeme.isMark_scan c rest⟩

end Contents

/-! ## Tokens -/

/-- The tokens end inside brackets, or in a line whose last lexeme cannot end it. -/
def MidLine (past : List Token) : Prop :=
  0 < openBrackets past ∨
    ∃ t, (sinceNewline past).find? (·.kind.isLexeme) = some t ∧ t.kind.canEndLine = false

instance (past : List Token) : Decidable (MidLine past) :=
  inferInstanceAs (Decidable (0 < openBrackets past ∨
    ∃ t ∈ (sinceNewline past).find? (·.kind.isLexeme), t.kind.canEndLine = false))

/-- The last sound token is the last lexeme of its line, if it is one. -/
theorem find?_sinceNewline {past : List Token} {t : Token} (h : lastSound? past = some t)
    (ht : t.kind.isLexeme = true) : (sinceNewline past).find? (·.kind.isLexeme) = some t := by
  have hsound : past.reverse.find? (fun t => !t.kind.isError) = some t := by
    rw [← h, lastSound?, List.getLast?_eq_head?_reverse, ← List.filter_reverse, List.head?_filter]
  unfold sinceNewline
  generalize past.reverse = xs at hsound ⊢
  -- behind it there are errors only
  induction xs with
  | nil => contradiction
  | cons x xs ih =>
    cases he : x.kind.isError with
    | true =>
      have hx : x.kind.isLexeme = false := TokenKind.isLexeme_eq_false_of_isError he
      have hn : x.kind ≠ .newline := fun hn => by simp [hn, TokenKind.isError] at he
      rw [List.find?_cons_of_neg (by simp [he])] at hsound
      rw [List.takeWhile_cons_of_pos (by simpa using hn), List.find?_cons_of_neg (by simp [hx])]
      exact ih hsound
    | false =>
      rw [List.find?_cons_of_pos (by simp [he])] at hsound
      obtain rfl := Option.some.inj hsound
      have hn : x.kind ≠ .newline := fun hn => by simp [hn, TokenKind.isLexeme] at ht
      simp [ht, hn]

theorem Layout.Reflects.goesOn {l : Layout} {past : List Token} (h : l.Reflects past) (hm : MidLine past) :
    l.GoesOn := by
  rcases hm with hdepth | ⟨t, ht, hend⟩
  · rw [← h.depth] at hdepth
    exact .inl (Nat.ne_of_gt hdepth)
  · by_cases hdepth : l.depth = 0
    · refine .inr ⟨?_, ?_⟩
      · cases hopen : l.lineOpen with
        | false => rfl
        | true =>
          obtain ⟨u, hu, hcan⟩ := h.lineOpen fun hq => hq hopen hdepth
          have hlast := find?_sinceNewline hu (TokenKind.isLexeme_of_canEndLine hcan)
          rw [ht] at hlast
          obtain rfl := Option.some.inj hlast
          rw [hcan] at hend
          contradiction
      · cases hstart : l.lineStart with
        | false => rfl
        | true =>
          have hkind := h.lineStart hstart t (List.mem_of_find?_eq_some ht)
          rw [List.find?_some ht] at hkind
          contradiction
    · exact .inl hdepth

namespace Source

/-- With its first `n` tokens all is given that was found in a script, and `rest` follows. If there are any, the last of
them is a lexeme that ends there. -/
def ReadsTo (s : Source) (n : Nat) (rest : String) : Prop :=
  (s.scanner n).found = [] ∧ (s.scanner n).ahead = some rest.toList

/-- What is shown behind such a place. -/
theorem ReadsTo.contents {s : Source} {n : Nat} {rest : String} (h : s.ReadsTo n rest) :
    s.contents = (s.pull n).map Token.content ++
      contentsFrom (s.scanner n).layout (sketch rest.toList).2 (sketch rest.toList).1 ∧ n ≤ s.tokens.length := by
  have hrest : (s.scanner n).rest = traceFrom (Segmentation.ofText rest.toList).last (s.scanner n).layout
      (s.scanner n).pos (Segmentation.ofText rest.toList).segments := by
    simp [Scanner.rest, Scanner.behind, h.1, h.2]
  have hdrop := (s.scanned n).rest.symm.trans hrest
  have hn : n ≤ s.tokens.length := by
    have hne : s.trace.drop n ≠ [] := hdrop ▸ traceFrom_ne_nil _ _ _ _
    rw [Ne, List.drop_eq_nil_iff] at hne
    rw [tokens, List.length_map]
    omega
  refine ⟨?_, hn⟩
  have hpull : s.pull n = (s.trace.take n).map Prod.fst := by
    rw [pull, List.take_append_of_le_length hn, tokens, List.map_take]
  have hcontents : s.contents = (s.trace.take n ++ s.trace.drop n).map (·.1.content) := by
    rw [List.take_append_drop, Source.contents, tokens, List.map_map]
    rfl
  rw [hcontents, hdrop, List.map_append, contents_traceFrom, hpull, List.map_map]
  rfl

theorem ReadsTo.kinds {s : Source} {n : Nat} {rest : String} (h : s.ReadsTo n rest) : s.kinds.drop n =
    (contentsFrom (s.scanner n).layout (sketch rest.toList).2 (sketch rest.toList).1).map Prod.fst := by
  obtain ⟨hcontents, hn⟩ := h.contents
  have hlength : ((s.pull n).map Token.content).length = n := by
    rw [List.length_map, pull, List.length_take, List.length_append]
    omega
  rw [kinds_eq, ← List.map_drop, hcontents, List.drop_left' hlength]

/-- In the middle of a line one run of trivia can be put in the place of another. The tokens show the same : those up to
there are the same ones, and the next one is no mark, or the text has ended and all blocks are closed. -/
theorem contents_continued (name p q : String) {t t' : String} {n : Nat} (ht : TriviaRun t) (ht' : TriviaRun t')
    (hn : (⟨name, p ++ t ++ q⟩ : Source).ReadsTo n (t ++ q)) (hmid : MidLine (pull ⟨name, p ++ t ++ q⟩ n)) :
    contents ⟨name, p ++ t' ++ q⟩ = contents ⟨name, p ++ t ++ q⟩ ∧
    (⟨name, p ++ t' ++ q⟩ : Source).ReadsTo n (t' ++ q) ∧
    pull ⟨name, p ++ t' ++ q⟩ n = pull ⟨name, p ++ t ++ q⟩ n ∧
    ((∃ k ks, (kinds ⟨name, p ++ t' ++ q⟩).drop n = k :: ks ∧ k.isMark = false) ∨
      ∃ m, (kinds ⟨name, p ++ t' ++ q⟩).drop n = List.replicate m .dedent ++ [.endOfFile]) := by
  have htext (t : String) : (p ++ t ++ q).toList = p.toList ++ (t ++ q).toList := by simp
  have hrun (t : String) : (t ++ q).toList = t.toList ++ q.toList := by simp
  obtain ⟨hapart, hne⟩ := ht.apart q.toList
  obtain ⟨hapart', -⟩ := ht'.apart q.toList
  rw [← hrun] at hapart hne hapart'
  obtain ⟨hpull, hscanner⟩ := scanner_replace ⟨name, p ++ t ++ q⟩ ⟨name, p ++ t' ++ q⟩ hapart hne hapart' (htext t)
    (htext t') hn.2
  have hn' : (⟨name, p ++ t' ++ q⟩ : Source).ReadsTo n (t' ++ q) := ⟨hscanner ▸ hn.1, by rw [hscanner]; rfl⟩
  have hlayout : (scanner ⟨name, p ++ t' ++ q⟩ n).layout = (scanner ⟨name, p ++ t ++ q⟩ n).layout := by
    rw [hscanner]
    rfl
  have hreflects := (scanned ⟨name, p ++ t ++ q⟩ n).reflects
  have hgoes := hreflects.goesOn hmid
  refine ⟨?_, hn', hpull, ?_⟩
  · rw [hn'.contents.1, hn.contents.1, hpull, hlayout, hrun, hrun, contentsFrom_gap hgoes hreflects.nested ht'.1,
      contentsFrom_gap hgoes hreflects.nested ht.1]
  · rw [hn'.kinds, hlayout]
    exact kinds_contentsFrom_goesOn hgoes hreflects.nested _

/-- An operator at the end of a line, in a block that is indented with spaces; a comment, line feeds and tabs come in
the place of the space behind it. -/
theorem contents_continued_operator :
    let p := "if a:\n    x = 1 +"
    let t := " // one\n\t\n"
    (⟨"main", p ++ " " ++ "2"⟩ : Source).ReadsTo 9 " 2" ∧ MidLine (pull ⟨"main", p ++ " " ++ "2"⟩ 9) ∧
      contents ⟨"main", p ++ t ++ "2"⟩ = contents ⟨"main", p ++ " " ++ "2"⟩ := by
  intro p t
  have hspace : TriviaRun " " := by
    have htext : " ".toList = [' '] := rfl
    rw [TriviaRun, htext]
    exact ⟨.blank (by simp) .nil, ' ', rfl, by simp⟩
  have ht : TriviaRun t := by
    have htext : t.toList = ' ' :: '/' :: '/' :: (" one".toList ++ ['\n', '\t', '\n']) := by decide
    rw [TriviaRun, htext]
    exact ⟨.blank (by simp) (.comment (by decide) (.blank (by simp) (.blank (by simp) .nil))), ' ', rfl, by simp⟩
  have hn : (⟨"main", p ++ " " ++ "2"⟩ : Source).ReadsTo 9 " 2" := ⟨by decide +kernel, by decide +kernel⟩
  have hmid : MidLine (pull ⟨"main", p ++ " " ++ "2"⟩ 9) := by decide +kernel
  exact ⟨hn, hmid, (contents_continued "main" p "2" hspace ht hn hmid).1⟩

end Source

end DocScript
