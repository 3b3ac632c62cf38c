import DocScript.Proofs.Token.Lines

/-!
# No character is lost

A script is its lexemes, in order, with a gap in front of each and one behind the last (`Source.cut_at_lexemes`). A
gap is a run of blanks, line breaks and comments; `Gap` says so without reference to how trivia are skipped. The
characters that a token was read from are never none, they begin and end at places between characters of the
text, and they are what the token quotes, unless they could not be read.
-/

namespace DocScript

/-! ## Gaps -/

/-- Blanks, line breaks, and comments with the line breaks that end them. The last comment may run to the end if
`atEnd` holds. -/
inductive Gap (atEnd : Prop) : List Char → Prop
  | nil : Gap atEnd []
  | blank {c : Char} {cs : List Char} (hc : c ∈ [' ', '\t', '\r', '\n']) (h : Gap atEnd cs) : Gap atEnd (c :: cs)
  | comment {body cs : List Char} (hb : '\n' ∉ body) (h : Gap atEnd cs) :
      Gap atEnd ('/' :: '/' :: (body ++ '\n' :: cs))
  | openComment {body : List Char} (he : atEnd) (hb : '\n' ∉ body) : Gap atEnd ('/' :: '/' :: body)

/-- What follows the slashes of a comment. -/
def InComment (atEnd : Prop) (cs : List Char) : Prop :=
  (∃ body rest, cs = body ++ '\n' :: rest ∧ '\n' ∉ body ∧ Gap atEnd rest) ∨ atEnd ∧ '\n' ∉ cs

namespace InComment

variable {atEnd : Prop} {c : Char} {cs : List Char}

theorem gap (h : InComment atEnd cs) : Gap atEnd ('/' :: '/' :: cs) := by
  rcases h with ⟨body, rest, rfl, hb, hr⟩ | ⟨he, hb⟩
  · exact .comment hb hr
  · exact .openComment he hb

theorem cons (hc : c ≠ '\n') (h : InComment atEnd cs) : InComment atEnd (c :: cs) := by
  rcases h with ⟨body, rest, rfl, hb, hr⟩ | ⟨he, hb⟩
  · exact .inl ⟨c :: body, rest, rfl, by simpa [hc.symm] using hb, hr⟩
  · exact .inr ⟨he, by simpa [hc.symm] using hb⟩

theorem tail (hc : c ≠ '\n') (h : InComment atEnd (c :: cs)) : InComment atEnd cs := by
  rcases h with ⟨body, rest, hcs, hb, hr⟩ | ⟨he, hb⟩
  · cases body with
    | nil =>
      cases hcs
      exact absurd rfl hc
    | cons d body =>
      cases hcs
      exact .inl ⟨body, rest, rfl, fun hm => hb (List.mem_cons_of_mem c hm), hr⟩
  · exact .inr ⟨he, fun hm => hb (List.mem_cons_of_mem c hm)⟩

end InComment

namespace Trivia

/-- A character inside a comment. -/
theorem skipFrom_comment {c : Char} (hc : c ≠ '\n') (cs : List Char) :
    skipFrom true (c :: cs) = ((skipFrom true cs).1.plain c, (skipFrom true cs).2) := by
  rw [skipFrom, if_neg hc, if_pos rfl]

/-- Trivia that were skipped are a gap, or the rest of a comment and a gap. -/
theorem gap_skipFrom (comment : Bool) (cs : List Char) :
    (comment = true → InComment ((skipFrom comment cs).2 = []) (skipFrom comment cs).1.text) ∧
    (comment = false → Gap ((skipFrom comment cs).2 = []) (skipFrom comment cs).1.text) := by
  fun_induction skipFrom comment cs with
  | case1 comment => exact ⟨fun _ => .inr ⟨rfl, List.not_mem_nil⟩, fun _ => .nil⟩
  | case2 comment cs t rest hs ih =>
    rw [hs] at ih
    exact ⟨fun _ => .inl ⟨[], _, rfl, List.not_mem_nil, ih.2 rfl⟩, fun _ => .blank (by simp) (ih.2 rfl)⟩
  | case3 c cs hc t rest hs ih =>
    rw [hs] at ih
    exact ⟨fun _ => (ih.1 rfl).cons hc, by simp⟩
  | case4 comment cs hcomment t rest hs _ ih =>
    rw [hs] at ih
    exact ⟨fun h => absurd h hcomment, fun _ => .blank (by simp) (ih.2 rfl)⟩
  | case5 comment cs hcomment t rest hs _ _ ih =>
    rw [hs] at ih
    exact ⟨fun h => absurd h hcomment, fun _ => .blank (by simp) (ih.2 rfl)⟩
  | case6 comment cs hcomment t rest hs _ _ _ ih =>
    rw [hs] at ih
    exact ⟨fun h => absurd h hcomment, fun _ => .blank (by simp) (ih.2 rfl)⟩
  | case7 comment c cs _ hcomment _ _ _ hslash t rest hs ih =>
    -- the second slash is skipped as the first character of the comment
    obtain ⟨rfl, hhead⟩ := hslash
    obtain ⟨cs, rfl⟩ := List.head?_eq_some_iff.1 hhead
    have htext : t.text = '/' :: (skipFrom true cs).1.text := by
      rw [skipFrom_comment (by decide)] at hs
      obtain ⟨rfl, -⟩ := Prod.mk.inj hs
      rfl
    rw [hs, htext] at ih
    refine ⟨fun h => absurd h hcomment, fun _ => ?_⟩
    simp only [plain, htext]
    exact ((ih.1 rfl).tail (by decide)).gap
  | case8 comment c cs _ hcomment => exact ⟨fun h => absurd h hcomment, fun _ => .nil⟩

end Trivia

/-- Trivia are gaps, and lexemes are not empty. -/
theorem Segmentation.gap_ofText (cs : List Char) :
    (∀ s ∈ (ofText cs).segments, Gap False s.trivia.text ∧ s.lexeme.text ≠ []) ∧ Gap True (ofText cs).last.text := by
  fun_induction ofText cs with
  | case1 cs t h =>
    have hg := (Trivia.gap_skipFrom false cs).2 rfl
    rw [Trivia.skip] at h
    rw [h] at hg
    exact ⟨by simp, by simpa using hg⟩
  | case2 cs t c rest h ih =>
    have hg := (Trivia.gap_skipFrom false cs).2 rfl
    rw [Trivia.skip] at h
    rw [h] at hg
    obtain ⟨u, hu, -⟩ := Lexeme.scan_split c rest
    simp only [cons, List.mem_cons, forall_eq_or_imp]
    exact ⟨⟨⟨by simpa using hg, by simp [hu]⟩, ih.1⟩, ih.2⟩

/-! ## Cuts -/

/-- A token, the characters that it was read from, and those in front of them. -/
structure Cut where
  gap : String
  token : Token
  range : String

namespace Cut

def text (c : Cut) : String := c.gap ++ c.range

/-- The text that the cuts make up. -/
def join (cuts : List Cut) : String := String.join (cuts.map text)

theorem join_cons (c : Cut) (cuts : List Cut) : join (c :: cuts) = c.gap ++ (c.range ++ join cuts) := by
  rw [join, List.map_cons, String.join_cons, text, String.append_assoc]
  rfl

theorem join_append (cuts cuts' : List Cut) : join (cuts ++ cuts') = join cuts ++ join cuts' := by
  rw [join, List.map_append, String.join_append]
  rfl

end Cut

/-- The cuts of segments that stand at `p`. -/
def cutsFrom (p : Pos) : List Segment → List Cut
  | [] => []
  | s :: segments =>
    ⟨.ofList s.trivia.text, .ofLexeme (p.advance s.trivia.text) s.lexeme, .ofList s.lexeme.text⟩ ::
      cutsFrom ((p.advance s.trivia.text).advance s.lexeme.text) segments

theorem toList_join_cutsFrom (p : Pos) (segments : List Segment) :
    (Cut.join (cutsFrom p segments)).toList = segments.flatMap Segment.text := by
  induction segments generalizing p with
  | nil => rfl
  | cons s segments ih => simp [cutsFrom, Cut.join_cons, ih, Segment.text]

/-- Where a cut stands among the others. -/
theorem exists_of_cutsFrom_eq {p : Pos} {segments : List Segment} {front back : List Cut} {c : Cut}
    (h : cutsFrom p segments = front ++ c :: back) :
    ∃ s ∈ segments, c = ⟨.ofList s.trivia.text,
      .ofLexeme ((p.advance (Cut.join front).toList).advance s.trivia.text) s.lexeme, .ofList s.lexeme.text⟩ := by
  induction segments generalizing p front with
  | nil => simp [cutsFrom] at h
  | cons s segments ih =>
    rw [cutsFrom] at h
    cases front with
    | nil =>
      obtain ⟨rfl, -⟩ := List.cons.inj h
      exact ⟨s, List.mem_cons_self, rfl⟩
    | cons d front =>
      obtain ⟨rfl, hrest⟩ := List.cons.inj h
      obtain ⟨u, hu, rfl⟩ := ih hrest
      refine ⟨u, List.mem_cons_of_mem s hu, ?_⟩
      simp [Cut.join_cons, Pos.advance_append]

namespace Layout

theorem isMark_settle {width : Nat} {levels : List Nat} {x : TokenKind × List Nat} (h : x ∈ settle width levels) :
    x.1.isMark = true := by
  induction levels with
  | nil =>
    simp only [settle] at h
    split at h
    · simp [List.mem_singleton.1 h, TokenKind.isMark]
    · simp at h
  | cons level outer ih =>
    simp only [settle] at h
    split at h
    · split at h
      · simp [List.mem_singleton.1 h, TokenKind.isMark]
      · rcases List.mem_cons.1 h with rfl | h
        · rfl
        · exact ih h
    · split at h
      · simp [List.mem_singleton.1 h, TokenKind.isMark]
      · simp at h

theorem Steps.isMark {ended : Prop} {l : Layout} {marks : List (TokenKind × Layout)} (h : Steps ended l marks) :
    ∀ x ∈ marks, x.1.isMark = true := by
  induction marks generalizing l with
  | nil => simp
  | cons x marks ih => exact List.forall_mem_cons.2 ⟨h.1.2.1, ih h.2⟩

/-- Only marks stand in front of a lexeme. -/
theorem isMark_enter (l : Layout) (entered : Option Leading) (atEnd : Bool) :
    ∀ x ∈ (l.enter entered atEnd).1, x.1.isMark = true := by
  obtain ⟨line, complaint, l', width, style, he, ⟨hline, -⟩, ⟨hcomplaint, -⟩, -⟩ := l.enter_eq entered atEnd
  intro x hx
  rw [he, List.mem_append, List.mem_append] at hx
  rcases hx with (hx | hx) | hx
  · exact hline.isMark x hx
  · exact hcomplaint.isMark x hx
  · obtain ⟨y, hy, rfl⟩ := List.mem_map.1 hx
    exact isMark_settle hy

theorem filter_marksAt_enter (l : Layout) (entered : Option Leading) (atEnd : Bool) (p : Pos) (next : List Char) :
    ((marksAt p next (l.enter entered atEnd).1).map Prod.fst).filter (fun t => !t.kind.isMark) = [] := by
  simp only [List.filter_eq_nil_iff, marksAt, List.map_map, List.mem_map]
  rintro t ⟨x, hx, rfl⟩
  simp [isMark_enter l entered atEnd x hx]

end Layout

/-- The tokens that are no marks are those of the segments, in order. -/
theorem filter_traceFrom (last : Trivia) {segments : List Segment}
    (h : ∀ s ∈ segments, s.lexeme.kind.isMark = false) (l : Layout) (p : Pos) :
    ((traceFrom last l p segments).map Prod.fst).filter (fun t => !t.kind.isMark) =
      (cutsFrom p segments).map Cut.token := by
  induction segments generalizing l p with
  | nil =>
    rw [traceFrom, List.map_append, List.filter_append, Layout.filter_marksAt_enter]
    rfl
  | cons s segments ih =>
    obtain ⟨hs, hrest⟩ := List.forall_mem_cons.1 h
    have hs' (p : Pos) : (Token.ofLexeme p s.lexeme).kind.isMark = false := hs
    rw [traceFrom, List.map_append, List.filter_append, Layout.filter_marksAt_enter, List.map_cons,
      List.filter_cons_of_pos (by simp [hs']), ih hrest, cutsFrom]
    rfl

/-! ## Places in a text -/

/-- What stands between two places of a text. -/
theorem exists_pos_extract {text before range after : String} (h : text = before ++ (range ++ after))
    (hr : range ≠ "") :
    ∃ b e : text.Pos, b < e ∧ b.Splits before (range ++ after) ∧ e.Splits (before ++ range) after ∧
      String.extract b e = range := by
  have hb : before.rawEndPos.IsValid text := String.Pos.Raw.isValid_iff_exists_append.2 ⟨before, _, h, rfl⟩
  have h' : text = (before ++ range) ++ after := by rw [h, String.append_assoc]
  have he : (before ++ range).rawEndPos.IsValid text := String.Pos.Raw.isValid_iff_exists_append.2 ⟨_, after, h', rfl⟩
  have hb' : String.Pos.Splits ⟨before.rawEndPos, hb⟩ before (range ++ after) := ⟨h, rfl⟩
  have he' : String.Pos.Splits ⟨(before ++ range).rawEndPos, he⟩ (before ++ range) after := ⟨h', rfl⟩
  refine ⟨_, _, (hb'.lt_iff_exists_eq_append he').2 ⟨range, hr, rfl, rfl⟩, hb', he', ?_⟩
  rw [← String.toByteArray_inj]
  have hbytes : text.toByteArray = before.toByteArray ++ (range.toByteArray ++ after.toByteArray) := by
    rw [h, String.toByteArray_append, String.toByteArray_append]
  calc (String.extract _ _).toByteArray
      = (before.toByteArray ++ (range.toByteArray ++ after.toByteArray)).extract (before.toByteArray.size + 0)
          (before.toByteArray.size + range.toByteArray.size) := by
        simp [String.extract, hbytes, String.rawEndPos]
    _ = range.toByteArray := by
        rw [ByteArray.extract_append_size_add, ByteArray.extract_append_size_left, ByteArray.extract_zero_size]

/-- A script is its lexemes with gaps in front of them and behind the last. Every token that is no mark was read
from characters of its own : they stand where the span of the token says, between two places of the text that lie
between characters, they are at least one, and if they could be read, the token quotes them as they are. -/
theorem Source.cut_at_lexemes (s : Source) :
    ∃ (cuts : List Cut) (rest : String),
      s.tokens.filter (fun t => !t.kind.isMark) = cuts.map Cut.token ∧
      s.text = Cut.join cuts ++ rest ∧ Gap True rest.toList ∧
      ∀ front c back, cuts = front ++ c :: back →
        Gap False c.gap.toList ∧ (c.token.kind.isError = false → c.token.literal = c.range) ∧
        c.token.span = ⟨Pos.start.advance (Cut.join front ++ c.gap).toList,
          (Pos.start.advance (Cut.join front ++ c.gap ++ c.range).toList).lastOf⟩ ∧
        ∃ b e : s.text.Pos, b < e ∧ b.Splits (Cut.join front ++ c.gap) (c.range ++ (Cut.join back ++ rest)) ∧
          e.Splits (Cut.join front ++ c.gap ++ c.range) (Cut.join back ++ rest) ∧ String.extract b e = c.range := by
  have hmarks := Segmentation.isMark_ofText s.text.toList
  obtain ⟨hgaps, hlast⟩ := Segmentation.gap_ofText s.text.toList
  have htext : s.text = Cut.join (cutsFrom .start (Segmentation.ofText s.text.toList).segments) ++
      .ofList (Segmentation.ofText s.text.toList).last.text := by
    apply String.toList_injective
    rw [String.toList_append, toList_join_cutsFrom, String.toList_ofList]
    exact (Segmentation.text_ofText s.text.toList).symm
  refine ⟨cutsFrom .start (Segmentation.ofText s.text.toList).segments, _, filter_traceFrom _ hmarks .start .start,
    htext, by simpa using hlast, fun front c back hc => ?_⟩
  rw [hc, Cut.join_append, Cut.join_cons] at htext
  obtain ⟨x, hx, rfl⟩ := exists_of_cutsFrom_eq hc
  obtain ⟨hgap, hne⟩ := hgaps x hx
  refine ⟨by simpa using hgap, fun herror => ?_, ?_, exists_pos_extract ?_ ?_⟩
  · have herror : x.lexeme.kind.isError = false := herror
    simp [Token.ofLexeme, herror]
  · simp [Token.ofLexeme, Pos.advance_append]
  · exact htext.trans (by simp only [String.append_assoc])
  · simpa using hne

end DocScript
