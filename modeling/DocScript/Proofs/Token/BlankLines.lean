import DocScript.Proofs.Token.LineFeed
import DocScript.Proofs.Token.Lossless

/-!
# Blank lines

A line of blanks, with or without a comment, is hardly ever seen in the tokens of a script. Behind a line feed that
stands in no string, such a line with a line feed of its own changes neither the kinds of the tokens nor what they
quote. At both ends of a script this is not so (`Source.blank_lines_unseen`, `Source.blank_lines_seen`) :

- The blanks of the first line do not count, but those of the second do. A blank line above an indented first
  line opens a block.
- Without a line feed behind it, the blanks of the last line are held against those of the lines above, though no
  lexeme follows them.

Both follow from one fact. What the tokens show depends on the lexemes, and on the blanks of the line that was
entered in front of each and at the end (`sketch`); a line feed divides the sketch of a text (`sketch_lineFeed`).
-/

namespace DocScript

/-! ## What tokens show -/

/-- What a token shows, apart from its place. -/
def Token.content (t : Token) : TokenKind × String := (t.kind, t.literal)

/-- The kinds and the literals of the tokens of a script. -/
def Source.contents (s : Source) : List (TokenKind × String) := s.tokens.map Token.content

/-- The lexemes of a text, each with the blanks of the line that was entered in front of it, and the blanks of the
line that was entered behind the last. -/
def sketch (cs : List Char) : List (Option Leading × Lexeme) × Option Leading :=
  ((Segmentation.ofText cs).segments.map fun s => (s.trivia.entered, s.lexeme), (Segmentation.ofText cs).last.entered)

/-- What marks in front of the text `next` show. -/
def markContents (next : List Char) (marks : List (TokenKind × Layout)) : List (TokenKind × String) :=
  marks.map fun m => (Token.ofMark .start next m.1).content

/-- What is shown behind the last lexeme. -/
def ending (l : Layout) (last : Option Leading) : List (TokenKind × String) :=
  markContents [] (l.enter last true).1 ++ [(.endOfFile, "")]

namespace Layout

/-- The state behind the next lexeme. -/
def pass (l : Layout) (x : Option Leading × Lexeme) : Layout := (l.enter x.1 false).2.after x.2.kind

end Layout

/-- What the tokens of a text with the given sketch show, if the line structure starts in the state `l`. -/
def contentsFrom (l : Layout) (last : Option Leading) : List (Option Leading × Lexeme) → List (TokenKind × String)
  | [] => ending l last
  | x :: xs => markContents x.2.text (l.enter x.1 false).1 ++
      (Token.ofLexeme .start x.2).content :: contentsFrom (l.pass x) last xs

theorem content_marksAt (p : Pos) (next : List Char) (marks : List (TokenKind × Layout)) :
    (marksAt p next marks).map (·.1.content) = markContents next marks := by
  simp only [marksAt, markContents, List.map_map]
  refine List.map_congr_left fun m _ => ?_
  simp only [Function.comp_apply, Token.content, Token.ofMark]
  split <;> rfl

theorem contents_traceFrom (last : Trivia) (l : Layout) (p : Pos) (segments : List Segment) :
    (traceFrom last l p segments).map (·.1.content) =
      contentsFrom l last.entered (segments.map fun s => (s.trivia.entered, s.lexeme)) := by
  induction segments generalizing l p with
  | nil =>
    rw [traceFrom, List.map_append, content_marksAt]
    rfl
  | cons s segments ih =>
    rw [traceFrom, List.map_append, content_marksAt, List.map_cons, ih]
    rfl

/-- What the tokens of a script show depends on its sketch alone. -/
theorem Source.contents_eq (name text : String) :
    Source.contents ⟨name, text⟩ = contentsFrom .start (sketch text.toList).2 (sketch text.toList).1 := by
  rw [contents, tokens, List.map_map]
  exact contents_traceFrom ..

/-- The end of the text is read in the state behind the last lexeme. -/
theorem contentsFrom_eq (l : Layout) (xs : List (Option Leading × Lexeme)) :
    ∃ front, ∀ last, contentsFrom l last xs = front ++ ending (xs.foldl Layout.pass l) last := by
  induction xs generalizing l with
  | nil => exact ⟨[], fun _ => rfl⟩
  | cons x xs ih =>
    obtain ⟨front, hfront⟩ := ih (l.pass x)
    refine ⟨markContents x.2.text (l.enter x.1 false).1 ++ (Token.ofLexeme .start x.2).content :: front, fun last => ?_⟩
    rw [contentsFrom, hfront, List.append_assoc]
    rfl

/-! ## Sketches -/

theorem sketch_of_end {cs : List Char} {t : Trivia} (h : Trivia.skip cs = (t, [])) : sketch cs = ([], t.entered) := by
  simp [sketch, Segmentation.ofText_of_end h]

theorem sketch_of_lexeme {cs : List Char} {t : Trivia} {c : Char} {rest : List Char}
    (h : Trivia.skip cs = (t, c :: rest)) :
    sketch cs = ((t.entered, (Lexeme.scan c rest).1) :: (sketch (Lexeme.scan c rest).2).1,
      (sketch (Lexeme.scan c rest).2).2) := by
  simp [sketch, Segmentation.ofText_of_lexeme h, Segmentation.cons]

theorem sketch_of_skip {cs cs' : List Char} {t t' : Trivia} {rest : List Char} (h : Trivia.skip cs = (t, rest))
    (h' : Trivia.skip cs' = (t', rest)) (he : t.entered = t'.entered) : sketch cs = sketch cs' := by
  cases rest with
  | nil => rw [sketch_of_end h, sketch_of_end h', he]
  | cons c rest => rw [sketch_of_lexeme h, sketch_of_lexeme h', he]

/-- Where no string is open, a line feed divides the sketch of a text. -/
theorem sketch_lineFeed {b : List Char} (h : Unquoted b) (v : List Char) :
    sketch (b ++ '\n' :: v) = ((sketch b).1 ++ (sketch ('\n' :: v)).1, (sketch ('\n' :: v)).2) := by
  rw [sketch, Segmentation.ofText_lineFeed h]
  simp only [sketch, Segmentation.followedBy]
  split
  · next hs => simp [hs, Trivia.followedBy]
  · next hs => simp [hs, Trivia.followedBy]

/-! ## Blank lines -/

/-- Blanks, and a comment behind them or none; no line feed. -/
def BlankLine (line : String) : Prop :=
  ∃ blanks comment, line.toList = blanks ++ comment ∧ (∀ c ∈ blanks, c ∈ [' ', '\t', '\r']) ∧ '\n' ∉ comment ∧
    (comment = [] ∨ ∃ body, comment = '/' :: '/' :: body)

theorem BlankLine.empty : BlankLine "" := ⟨[], [], rfl, by simp, by simp, .inl rfl⟩

/-- The blanks in front of a line. -/
def leadingOf (line : String) : Leading := (Trivia.skip line.toList).1.blanks

theorem Trivia.skipFrom_comment_of_not_mem {body : List Char} (h : '\n' ∉ body) :
    skipFrom true body = (⟨body, .empty, none⟩, []) := by
  induction body with
  | nil => rfl
  | cons c body ih =>
    rw [List.mem_cons, not_or] at h
    rw [skipFrom_comment (Ne.symm h.1), ih h.2]
    rfl

theorem Trivia.skip_blank {c : Char} (hc : c ∈ [' ', '\t', '\r']) (cs : List Char) :
    (skip (c :: cs)).2 = (skip cs).2 ∧ (skip (c :: cs)).1.entered = (skip cs).1.entered := by
  simp only [List.mem_cons, List.not_mem_nil, or_false] at hc
  rcases hc with rfl | rfl | rfl <;> simp [skip, skipFrom, plain]

/-- In a comment blanks do not count. -/
theorem Trivia.blanks_skipFrom_comment (cs : List Char) : (skipFrom true cs).1.blanks = .empty := by
  induction cs with
  | nil => rfl
  | cons c cs ih =>
    rw [skipFrom]
    split
    · rfl
    · exact ih

/-- A line that begins with no blank, carriage returns apart, is not indented. -/
theorem Trivia.blanks_skip {cs : List Char} (h : ∀ c ∈ (cs.dropWhile (· = '\r')).head?, c ≠ ' ' ∧ c ≠ '\t') :
    (skip cs).1.blanks = .empty := by
  induction cs with
  | nil => rfl
  | cons c cs ih =>
    by_cases hr : c = '\r'
    · subst hr
      rw [skip, skipFrom, if_neg (by decide), if_neg (by decide), if_neg (by decide), if_neg (by decide), if_pos rfl]
      exact ih (by simpa using h)
    · obtain ⟨hspace, htab⟩ := h c (by simp [hr])
      rw [skip, skipFrom, if_neg (by decide : ¬(false = true)), if_neg hspace, if_neg htab, if_neg hr]
      split
      · rfl
      · split
        · exact blanks_skipFrom_comment cs
        · rfl

/-- A blank line is skipped whole, and enters no other. -/
theorem BlankLine.skip {line : String} (h : BlankLine line) :
    (Trivia.skip line.toList).2 = [] ∧ (Trivia.skip line.toList).1.entered = none := by
  obtain ⟨blanks, comment, hline, hblanks, hfeed, hcomment⟩ := h
  rw [hline]
  clear hline
  induction blanks with
  | nil =>
    rcases hcomment with rfl | ⟨body, rfl⟩
    · exact ⟨rfl, rfl⟩
    · have hbody : '\n' ∉ body := fun hb => hfeed (List.mem_cons_of_mem _ (List.mem_cons_of_mem _ hb))
      simp [Trivia.skip, Trivia.skipFrom, Trivia.skipFrom_comment_of_not_mem hbody, Trivia.plain]
  | cons c blanks ih =>
    obtain ⟨hc, hrest⟩ := List.forall_mem_cons.1 hblanks
    rw [List.cons_append, (Trivia.skip_blank hc _).1, (Trivia.skip_blank hc _).2]
    exact ih hrest

namespace Layout

/-- Whether the blanks of a line are complained about. -/
def complains (l : Layout) (entered : Option Leading) : Bool :=
  (l.measured entered).any fun leading => !(adopt l.style leading).isOk

/-- The marks at the end of the text : the end of the line, a complaint, and the ends of all blocks. -/
theorem kinds_enter_end (l : Layout) (last : Option Leading) :
    (l.enter last true).1.map Prod.fst =
      (if l.lineOpen && l.depth = 0 then [.newline] else []) ++
        ((if l.complains last then [.error .mixedIndentation] else []) ++ (settle 0 l.levels).map Prod.fst) := by
  have hblocks (l : Layout) : (l.blocks 0).map Prod.fst = (settle 0 l.levels).map Prod.fst := by
    simp [blocks]
  rw [enter, ends, Bool.or_true, Bool.and_true]
  cases hm : l.measured last with
  | none =>
    simp only [complains, hm]
    split <;> simp [hblocks, endLine]
  | some leading =>
    simp only [complains, hm]
    cases ha : adopt l.style leading with
    | ok style => split <;> simp [hblocks, endLine, ha, Except.isOk, Except.toBool]
    | error e =>
      obtain rfl := adopt_error ha
      split <;> simp [hblocks, endLine, ha, Except.isOk, Except.toBool]

end Layout

/-- The ends of two texts differ in complaints about their last lines only. -/
theorem ending_eq_iff (l : Layout) (last last' : Option Leading) :
    ending l last = ending l last' ↔ l.complains last = l.complains last' := by
  have hending (last : Option Leading) :
      ending l last = ((l.enter last true).1.map Prod.fst).map (·, "") ++ [(.endOfFile, "")] := by
    simp only [ending, markContents, List.map_map]
    refine congrArg (· ++ _) (List.map_congr_left fun m _ => ?_)
    simp only [Function.comp_apply, Token.content, Token.ofMark]
    split <;> simp_all [Token.upcoming, Token.mark]
  simp only [hending, Layout.kinds_enter_end, List.map_append, List.append_cancel_left_eq,
    List.append_cancel_right_eq]
  cases l.complains last <;> cases l.complains last' <;> simp

/-- The first line is not indented, or no lexeme stands on it. If no lexeme stands on any line, a single line must not
mix its blanks. -/
def Flush (text : String) : Prop :=
  (Trivia.skip text.toList).1.entered.isSome = true ∨ (leadingOf text).width = 0 ∨
    (Trivia.skip text.toList).2 = [] ∧ ((leadingOf text).spaces && (leadingOf text).tabs) = false

/-- The state of the line structure behind the last lexeme of a text. -/
def layoutBehind (text : String) : Layout := (sketch text.toList).1.foldl Layout.pass .start

/-- The blanks of the line that was entered behind the last lexeme of a text. -/
def enteredLast (text : String) : Option Leading := (sketch text.toList).2

/-- A line feed in front of trivia that enter a line is not seen. -/
theorem sketch_lineFeed_cons {v : List Char} (h : (Trivia.skip v).1.entered.isSome = true) :
    sketch ('\n' :: v) = sketch v := by
  obtain ⟨leading, hl⟩ := Option.isSome_iff_exists.1 h
  refine sketch_of_skip (Trivia.skip_lineFeed v) rfl ?_
  simp only [Trivia.lineBreak, hl, Option.getD_some]
  exact hl.symm

namespace BlankLine

variable {line : String}

theorem skip_append (h : BlankLine line) (v : List Char) :
    ∃ t, Trivia.skip (line.toList ++ '\n' :: v) = (t, (Trivia.skip ('\n' :: v)).2) ∧
      t.entered = (Trivia.skip ('\n' :: v)).1.entered := by
  rcases hs : Trivia.skip line.toList with ⟨t, rest⟩
  have hrest := h.skip.1
  rw [hs] at hrest
  obtain rfl : rest = [] := hrest
  exact ⟨_, Trivia.skip_append_lineFeed hs v, rfl⟩

theorem sketch_append (h : BlankLine line) (v : List Char) :
    sketch (line.toList ++ '\n' :: v) = sketch ('\n' :: v) := by
  obtain ⟨t, ht, he⟩ := h.skip_append v
  exact sketch_of_skip ht rfl he

/-- Behind a line feed. -/
theorem sketch_cons (h : BlankLine line) (v : List Char) :
    sketch ('\n' :: (line.toList ++ '\n' :: v)) = sketch ('\n' :: v) := by
  obtain ⟨t, ht, he⟩ := h.skip_append v
  rw [sketch_lineFeed_cons, h.sketch_append v]
  rw [ht, he, Trivia.skip_lineFeed]
  rfl

theorem sketch_alone (h : BlankLine line) : sketch line.toList = ([], none) := by
  rcases hs : Trivia.skip line.toList with ⟨t, rest⟩
  have hskip := h.skip
  rw [hs] at hskip
  obtain ⟨rfl, he⟩ := hskip
  rw [sketch_of_end hs, he]

/-- At the end of a text. -/
theorem sketch_last (h : BlankLine line) : sketch ('\n' :: line.toList) = ([], some (leadingOf line)) := by
  obtain ⟨hrest, he⟩ := h.skip
  have hs := Trivia.skip_lineFeed line.toList
  rw [hrest] at hs
  simp [sketch_of_end hs, Trivia.lineBreak, he, leadingOf]

end BlankLine

/-- A blank line at the end of a text changes nothing in front of it. -/
theorem Source.contents_last (name : String) {u : String} (hu : Unquoted u.toList) :
    ∃ front, contents ⟨name, u⟩ = front ++ ending (layoutBehind u) (enteredLast u) ∧
      ∀ line, BlankLine line →
        contents ⟨name, u ++ "\n" ++ line⟩ = front ++ ending (layoutBehind u) (some (leadingOf line)) := by
  obtain ⟨front, hfront⟩ := contentsFrom_eq .start (sketch u.toList).1
  refine ⟨front, (contents_eq name u).trans (hfront _), fun line h => ?_⟩
  have htext : (u ++ "\n" ++ line).toList = u.toList ++ '\n' :: line.toList := by simp
  rw [contents_eq, htext, sketch_lineFeed hu, h.sketch_last, List.append_nil]
  exact hfront (some (leadingOf line))

/-! ## The first line -/

namespace Layout

theorem enter_start_of_width {b : Leading} (h : b.width = 0) : start.enter (some b) false = ([], start) := by
  simp [enter, ends, measured, start, adopt, styleOf, h, blocks, settle, behind]

/-- An indented line at the beginning opens a block, or is complained about. -/
theorem enter_start_ne_nil {b : Leading} (h : b.width ≠ 0) : (start.enter (some b) false).1 ≠ [] := by
  have hpos : 0 < b.width := Nat.pos_of_ne_zero h
  cases hm : b.spaces && b.tabs <;>
    simp [enter, ends, measured, start, adopt, styleOf, h, hm, hpos, blocks, settle]

theorem complains_start (b : Leading) :
    start.complains (some b) = (decide (b.width ≠ 0) && (b.spaces && b.tabs)) := by
  by_cases h : b.width = 0
  · simp [complains, measured, start, adopt, styleOf, h, Except.isOk, Except.toBool]
  · cases hs : b.spaces <;> cases ht : b.tabs <;>
      simp [complains, measured, start, adopt, styleOf, h, hs, ht, Except.isOk, Except.toBool]

/-- Blanks of no width are never complained about. -/
theorem complains_empty (l : Layout) : l.complains (some .empty) = false := by
  unfold complains measured
  split <;> simp [adopt, styleOf, Leading.empty, Except.isOk, Except.toBool]

end Layout

/-- A line feed in front of a text is not seen exactly if the first line is not indented. -/
theorem contents_lineFeed_iff (v : String) :
    contentsFrom .start (sketch ('\n' :: v.toList)).2 (sketch ('\n' :: v.toList)).1 =
      contentsFrom .start (sketch v.toList).2 (sketch v.toList).1 ↔ Flush v := by
  rcases hs : Trivia.skip v.toList with ⟨t, rest⟩
  have hs' : Trivia.skip ('\n' :: v.toList) = (t.lineBreak '\n', rest) := by rw [Trivia.skip_lineFeed, hs]
  cases he : t.entered with
  | some leading =>
    have hsome : (Trivia.skip v.toList).1.entered.isSome = true := by rw [hs, he]; rfl
    rw [sketch_lineFeed_cons hsome]
    exact iff_of_true rfl (.inl hsome)
  | none =>
    cases rest with
    | nil =>
      have hsketch : sketch v.toList = ([], none) := by rw [sketch_of_end hs, he]
      have hsketch' : sketch ('\n' :: v.toList) = ([], some t.blanks) := by
        simp [sketch_of_end hs', he, Trivia.lineBreak]
      rw [hsketch, hsketch', contentsFrom, contentsFrom, ending_eq_iff, Layout.complains_start]
      by_cases hw : t.blanks.width = 0 <;> simp [Flush, leadingOf, hs, he, hw, Layout.complains, Layout.measured]
    | cons c rest =>
      obtain ⟨xs, last, hsketch, hsketch'⟩ : ∃ xs last,
          sketch v.toList = ((none, (Lexeme.scan c rest).1) :: xs, last) ∧
          sketch ('\n' :: v.toList) = ((some t.blanks, (Lexeme.scan c rest).1) :: xs, last) := by
        simp [sketch_of_lexeme hs, sketch_of_lexeme hs', he, Trivia.lineBreak]
      rw [hsketch, hsketch', contentsFrom, contentsFrom]
      by_cases hw : t.blanks.width = 0
      · refine iff_of_true ?_ (.inr (.inl ?_))
        · rw [Layout.pass, Layout.enter_start_of_width hw]
          rfl
        · rw [leadingOf, hs]
          exact hw
      · -- a mark stands where the text itself has a lexeme
        refine iff_of_false (fun hcontents => ?_) ?_
        · obtain ⟨m, marks, hm⟩ := List.exists_cons_of_ne_nil (Layout.enter_start_ne_nil hw)
          have hmark := Layout.isMark_enter .start (some t.blanks) false m (by rw [hm]; exact List.mem_cons_self)
          rw [hm] at hcontents
          have hkind : (Token.ofMark .start (Lexeme.scan c rest).1.text m.1).kind = (Lexeme.scan c rest).1.kind :=
            congrArg Prod.fst (List.cons.inj hcontents).1
          rw [Token.kind_ofMark] at hkind
          rw [hkind, Lexeme.isMark_scan] at hmark
          contradiction
        · simp [Flush, leadingOf, hs, he, hw]

/-- A blank line, with a line feed behind it, is not seen behind any line feed that stands in no string. At the
beginning of a script it is not seen exactly if the first line is not indented, and if it is the only line it is
not seen at all. As the last line of a script, without a line feed, it is not seen exactly if its blanks are not
complained about; behind a last line that has no line feed either, exactly if they are complained about whenever
that line's are. -/
theorem Source.blank_lines_unseen (name : String) {line : String} (h : BlankLine line) :
    (∀ u v, Unquoted u.toList →
      contents ⟨name, u ++ "\n" ++ line ++ "\n" ++ v⟩ = contents ⟨name, u ++ "\n" ++ v⟩) ∧
    (∀ v, contents ⟨name, line ++ "\n" ++ v⟩ = contents ⟨name, v⟩ ↔ Flush v) ∧
    contents ⟨name, line⟩ = contents ⟨name, ""⟩ ∧
    (∀ u, Unquoted u.toList → (contents ⟨name, u ++ "\n" ++ line⟩ = contents ⟨name, u ++ "\n"⟩ ↔
      (layoutBehind u).complains (some (leadingOf line)) = false)) ∧
    ∀ u, Unquoted u.toList → (contents ⟨name, u ++ "\n" ++ line⟩ = contents ⟨name, u⟩ ↔
      (layoutBehind u).complains (some (leadingOf line)) = (layoutBehind u).complains (enteredLast u)) := by
  refine ⟨fun u v hu => ?_, fun v => ?_, ?_, fun u hu => ?_, fun u hu => ?_⟩
  · have htext : (u ++ "\n" ++ line ++ "\n" ++ v).toList = u.toList ++ '\n' :: (line.toList ++ '\n' :: v.toList) := by
      simp
    have htext' : (u ++ "\n" ++ v).toList = u.toList ++ '\n' :: v.toList := by simp
    rw [contents_eq, contents_eq, htext, htext', sketch_lineFeed hu, sketch_lineFeed hu, h.sketch_cons]
  · have htext : (line ++ "\n" ++ v).toList = line.toList ++ '\n' :: v.toList := by simp
    rw [contents_eq, contents_eq, htext, h.sketch_append]
    exact contents_lineFeed_iff v
  · rw [contents_eq, contents_eq, h.sketch_alone, BlankLine.empty.sketch_alone]
  · obtain ⟨front, -, hfront⟩ := contents_last name hu
    have hempty := hfront "" .empty
    rw [String.append_empty] at hempty
    have hquiet : (layoutBehind u).complains (some (leadingOf "")) = false := Layout.complains_empty _
    rw [hfront line h, hempty, List.append_cancel_left_eq, ending_eq_iff, hquiet]
  · obtain ⟨front, hu', hfront⟩ := contents_last name hu
    rw [hfront line h, hu', List.append_cancel_left_eq, ending_eq_iff]

/-- A comment behind a tab, in a block that is indented with spaces. -/
theorem Source.blank_lines_unseen_comment :
    BlankLine "\t// note" ∧ Unquoted "if a:".toList ∧
      contents ⟨"main", "if a:" ++ "\n" ++ "\t// note" ++ "\n" ++ "    b"⟩ =
        contents ⟨"main", "if a:" ++ "\n" ++ "    b"⟩ := by
  have hline : BlankLine "\t// note" := ⟨['\t'], "// note".toList, rfl, by simp, by decide, .inr ⟨_, rfl⟩⟩
  have hu : Unquoted "if a:".toList := by decide +kernel
  exact ⟨hline, hu, (blank_lines_unseen "main" hline).1 _ _ hu⟩

/-- A last line of mixed blanks gives an error token, and an empty line above an indented first line a block. -/
theorem Source.blank_lines_seen :
    BlankLine "\t " ∧ contents ⟨"main", "x\n" ++ "\t "⟩ ≠ contents ⟨"main", "x\n"⟩ ∧
      BlankLine "" ∧ contents ⟨"main", "" ++ "\n" ++ "  x"⟩ ≠ contents ⟨"main", "  x"⟩ := by
  have hline : BlankLine "\t " := ⟨['\t', ' '], [], rfl, by simp, by simp, .inl rfl⟩
  exact ⟨hline, by decide +kernel, .empty, by decide +kernel⟩

end DocScript
