import DocScript.Proofs.Token.Lines

/-!
# Reading tokens one by one

A `Scanner` gives the tokens of a script one at a time. It looks for the next lexeme or the end of the text
when it has nothing to give, and then gives the marks in front of it and the lexeme itself; behind the end
of the text it gives the end again and again. `Scanner.rest` is what it has still to give, as a stretch of
the stream `Source.trace`, and each call takes the first token off that (`Scanner.next_spec`). So a scanner
comes to the end of every text, whatever the text is, and stays there.

`Source.scan_structured` is what holds at every call, and follows from the steps of the line structure alone.
-/

namespace DocScript

open Layout

/-- A reader of the tokens of a script. -/
structure Scanner where
  /-- The text in front; none behind the end of the text. -/
  ahead : Option (List Char)
  pos : Pos
  /-- Tokens that were found and are not given yet, each with the state behind it. -/
  found : List (Token × Layout)
  /-- The state behind the token that was given last. -/
  layout : Layout

namespace Scanner

def start (s : Source) : Scanner := ⟨some s.text.toList, .start, [], .start⟩

/-- Finds the next lexeme of the text `cs`, or its end, with the marks in front of it. -/
def look (r : Scanner) (cs : List Char) : Scanner :=
  match Trivia.skip cs with
  | (trivia, []) =>
    let p := r.pos.advance trivia.text
    let (marks, l) := r.layout.enter trivia.entered true
    { r with ahead := none, pos := p, found := marksAt p [] marks ++ [(.mark .endOfFile p, l)] }
  | (trivia, c :: rest) =>
    let p := r.pos.advance trivia.text
    let (x, rest) := Lexeme.scan c rest
    let (marks, l) := r.layout.enter trivia.entered false
    { r with
      ahead := some rest
      pos := p.advance x.text
      found := marksAt p x.text marks ++ [(.ofLexeme p x, l.after x.kind)] }

/-- Gives a token that was found, or the end of the text. -/
def give (r : Scanner) : Token × Scanner :=
  match r.found with
  | (t, l) :: found => (t, { r with found, layout := l })
  | [] => (.mark .endOfFile r.pos, r)

/-- Gives the next token. -/
def next (r : Scanner) : Token × Scanner :=
  match r.found, r.ahead with
  | [], some cs => (r.look cs).give
  | _, _ => r.give

/-- The first `n` tokens, and the scanner behind them. -/
def take (r : Scanner) : Nat → List Token × Scanner
  | 0 => ([], r)
  | n + 1 =>
    let (ts, r) := r.take n
    let (t, r) := r.next
    (ts ++ [t], r)

/-! ## The stream that a scanner gives -/

/-- The state behind the tokens that were found. -/
def behind (r : Scanner) : Layout := (r.found.getLast?.map Prod.snd).getD r.layout

/-- The tokens that are still to be given, up to the end of the text. -/
def rest (r : Scanner) : List (Token × Layout) :=
  r.found ++
    match r.ahead with
    | none => []
    | some cs =>
      let x := Segmentation.ofText cs
      traceFrom x.last r.behind r.pos x.segments

/-- Behind the end of the text, the end was found at the place of the scanner. -/
def Ended (r : Scanner) : Prop :=
  r.ahead = none → ∀ x ∈ r.found.getLast?, x.1 = .mark .endOfFile r.pos

theorem rest_look {r : Scanner} {cs : List Char} (hf : r.found = []) (ha : r.ahead = some cs) :
    (r.look cs).rest = r.rest ∧ (r.look cs).found ≠ [] ∧ (r.look cs).Ended := by
  have hrest : r.rest =
      traceFrom (Segmentation.ofText cs).last r.layout r.pos (Segmentation.ofText cs).segments := by
    simp [rest, behind, hf, ha]
  rw [hrest, look]
  split
  · next trivia h =>
    rw [Segmentation.ofText_of_end h]
    refine ⟨by simp [rest, traceFrom], by simp, fun _ x hx => ?_⟩
    simp at hx
    simp [← hx]
  · next trivia c behind h =>
    rw [Segmentation.ofText_of_lexeme h]
    refine ⟨?_, by simp, by simp [Ended]⟩
    simp [rest, Scanner.behind, traceFrom, Segmentation.cons]

/-- What was found is given first. -/
theorem give_spec {r : Scanner} {t : Token} {l : Layout} {found : List (Token × Layout)}
    (h : r.Ended) (hf : r.found = (t, l) :: found) :
    ∃ q, r.give = (t, q) ∧ q.Ended ∧ q.layout = l ∧ r.rest = (t, l) :: q.rest ∧
      (q.rest = [] → t = .mark .endOfFile q.pos) := by
  have hbehind : r.behind = (found.getLast?.map Prod.snd).getD l := by
    cases hl : found.getLast? <;> simp [behind, hf, List.getLast?_cons, hl]
  refine ⟨{ r with found, layout := l }, by simp [give, hf], fun ha x hx => ?_, rfl, ?_, fun hr => ?_⟩
  · have hlast := h ha x
    rw [hf, List.getLast?_cons, Option.mem_def.1 hx] at hlast
    exact hlast rfl
  · simp only [rest, hf, hbehind]
    rfl
  · cases ha : r.ahead with
    | none =>
      have hn : found = [] := by simpa [rest, ha] using hr
      exact h ha (t, l) (by simp [hf, hn])
    | some cs => simp [rest, ha, traceFrom_ne_nil] at hr

/-- Each call takes one token off the stream. -/
theorem next_of_rest_ne_nil {r : Scanner} (h : r.Ended) (hr : r.rest ≠ []) :
    ∃ t q, r.next = (t, q) ∧ q.Ended ∧ r.rest = (t, q.layout) :: q.rest ∧
      (q.rest = [] → t = .mark .endOfFile q.pos) := by
  have hgive : ∀ r' : Scanner, r'.Ended → r'.found ≠ [] → r'.rest = r.rest → r.next = r'.give →
      ∃ t q, r.next = (t, q) ∧ q.Ended ∧ r.rest = (t, q.layout) :: q.rest ∧
        (q.rest = [] → t = .mark .endOfFile q.pos) := by
    intro r' he hf hrest hnext
    obtain ⟨⟨t, l⟩, found, hf⟩ := List.exists_cons_of_ne_nil hf
    obtain ⟨q, hg, hq, rfl, hrest', hlast⟩ := give_spec he hf
    exact ⟨t, q, hnext.trans hg, hq, hrest.symm.trans hrest', hlast⟩
  cases hf : r.found with
  | cons x found => exact hgive r h (by simp [hf]) rfl (by simp [next, hf])
  | nil =>
    cases ha : r.ahead with
    | none => simp [rest, hf, ha] at hr
    | some cs =>
      obtain ⟨hrest, hne, hended⟩ := rest_look hf ha
      exact hgive (r.look cs) hended hne hrest (by simp [next, hf, ha])

/-- Behind the end of the text nothing changes. -/
theorem next_of_rest_nil {r : Scanner} (hr : r.rest = []) : r.next = (.mark .endOfFile r.pos, r) := by
  cases ha : r.ahead with
  | none =>
    have hf : r.found = [] := by simpa [rest, ha] using hr
    simp [next, give, hf, ha]
  | some cs => simp [rest, ha, traceFrom_ne_nil] at hr

end Scanner

/-! ## The tokens of a script -/

namespace Source

/-- The last token. -/
def closing (s : Source) : Token := s.tokens.getLastD (.mark .endOfFile .start)

theorem pull_succ (s : Source) (n : Nat) : s.pull (n + 1) = s.pull n ++ [s.tokens[n]?.getD s.closing] := by
  have hpull : ∀ k m, k ≤ m →
      s.pull k = (s.tokens ++ List.replicate m s.closing).take k := by
    intro k m hkm
    rw [pull, ← closing, List.take_append, List.take_append, List.take_replicate, List.take_replicate]
    congr 2
    omega
  rw [hpull n (n + 1) (by omega), hpull (n + 1) (n + 1) (by omega), List.take_add_one]
  congr 1
  rcases Nat.lt_or_ge n s.tokens.length with h | h
  · simp [List.getElem?_append_left h, h]
  · have hlt : n - s.tokens.length < n + 1 := by omega
    simp [List.getElem?_append_right h, List.getElem?_eq_none h, hlt]

/-- The scanner of `s` behind its first `n` tokens. -/
def scanner (s : Source) (n : Nat) : Scanner := ((Scanner.start s).take n).2

theorem scanner_succ (s : Source) (n : Nat) : s.scanner (n + 1) = (s.scanner n).next.2 := rfl

/-- What is known of a scanner behind `n` calls. -/
structure Scanned (s : Source) (n : Nat) : Prop where
  ended : (s.scanner n).Ended
  rest : (s.scanner n).rest = s.trace.drop n
  tokens : ((Scanner.start s).take n).1 = s.pull n
  chain : (s.scanner n).layout.Chain (s.scanner n).rest
  reflects : (s.scanner n).layout.Reflects (s.pull n)
  done : (s.scanner n).rest = [] → s.closing = .mark .endOfFile (s.scanner n).pos ∧
    (s.scanner n).layout.levels = [0] ∧ (s.scanner n).layout.Quiet

theorem scanned_zero (s : Source) : s.Scanned 0 where
  ended := nofun
  rest := rfl
  tokens := rfl
  chain := s.chain_trace
  reflects := reflects_start
  done h := absurd h (traceFrom_ne_nil _ _ _ _)

/-- The token that follows `n` others. -/
theorem Scanned.next {s : Source} {n : Nat} (h : s.Scanned n) :
    (s.scanner n).next.1 = s.tokens[n]?.getD s.closing := by
  have htokens : s.tokens[n]? = (s.scanner n).rest.head?.map Prod.fst := by
    rw [h.rest, List.head?_drop, Source.tokens, List.getElem?_map]
  rw [htokens]
  by_cases hr : (s.scanner n).rest = []
  · rw [Scanner.next_of_rest_nil hr, hr]
    exact (h.done hr).1.symm
  · obtain ⟨t, q, hnext, -, hrest, -⟩ := Scanner.next_of_rest_ne_nil h.ended hr
    rw [hnext, hrest]
    rfl

/-- One more call. Behind the end of the text, its token is given once more. -/
theorem Scanned.succ {s : Source} {n : Nat} (h : s.Scanned n) : s.Scanned (n + 1) := by
  have htokens : ((Scanner.start s).take (n + 1)).1 = s.pull (n + 1) := by
    rw [pull_succ, ← h.next, ← h.tokens]
    rfl
  by_cases hr : (s.scanner n).rest = []
  · obtain ⟨hclosing, hlevels, hquiet⟩ := h.done hr
    have hnext := Scanner.next_of_rest_nil hr
    have hsame : s.scanner (n + 1) = s.scanner n := by rw [scanner_succ, hnext]
    have hdrop : s.trace.drop (n + 1) = [] := by
      have hn := h.rest.symm.trans hr
      rw [List.drop_eq_nil_iff] at hn ⊢
      omega
    have hstep : (s.scanner n).layout.Step True s.closing.kind (s.scanner n).layout := by
      rw [hclosing]
      exact .finish (s.scanner n).layout.style hquiet hlevels
    refine ⟨hsame ▸ h.ended, ?_, htokens, hsame ▸ h.chain, ?_, hsame ▸ h.done⟩
    · rw [hsame, hr, hdrop]
    · rw [hsame, pull_succ, ← h.next, hnext, ← hclosing]
      exact h.reflects.step hstep
  · obtain ⟨t, q, hnext, hended, hrest, hlast⟩ := Scanner.next_of_rest_ne_nil h.ended hr
    have hq : s.scanner (n + 1) = q := by rw [scanner_succ, hnext]
    have hchain := h.chain
    rw [hrest] at hchain
    obtain ⟨hstep, hend, hchain⟩ := hchain
    have ht : s.tokens[n]?.getD s.closing = t := by rw [← h.next, hnext]
    have htail : q.rest = s.trace.drop (n + 1) := by
      rw [← List.tail_drop, ← h.rest, hrest, List.tail_cons]
    rw [← hq] at hended htail hchain hstep hlast hend
    refine ⟨hended, htail, htokens, hchain, ?_, fun hnil => ⟨?_, ?_⟩⟩
    · rw [pull_succ, ht]
      exact h.reflects.step hstep
    · have htrace : s.trace.getLast? = some (t, q.layout) := by
        rw [← List.take_append_drop n s.trace, ← h.rest, hrest, ← hq, hnil, List.getLast?_concat]
      rw [← hlast hnil]
      simp [closing, Source.tokens, List.getLastD_eq_getLast?, htrace]
    · rw [hend.2 hnil] at hstep
      exact hstep.at_end

theorem scanned (s : Source) (n : Nat) : s.Scanned n := by
  induction n with
  | zero => exact s.scanned_zero
  | succ n ih => exact ih.succ

end Source

/-! ## Structure -/

/-- What holds in the state `l` behind the tokens `past` if `t` comes next. The blocks are nested, and as many
were opened and not closed as are open. A line ends outside of brackets and behind a token that can end it.
A block is opened, and closed in front of a lexeme, where the line has no lexeme yet. -/
structure Structured (l : Layout) (past : List Token) (t : Token) (lexemeFollows : Prop) : Prop where
  levels : l.levels.getLast? = some 0 ∧ l.levels.Pairwise (· > ·)
  balance : dedents past ≤ indents past ∧ indents past - dedents past = l.levels.length - 1
  closed : t.kind = .endOfFile → indents past = dedents past
  newline : t.kind = .newline → (l.depth = 0 ∧ openBrackets past = 0) ∧
    ∃ u, lastSound? past = some u ∧ u.kind.isLexeme = true ∧ u.kind.canEndLine = true
  indent : t.kind = .indent → ∀ u ∈ sinceNewline past, u.kind.isLexeme = false
  dedent : t.kind = .dedent → lexemeFollows → ∀ u ∈ sinceNewline past, u.kind.isLexeme = false

theorem Layout.Reflects.structured {ended lexemeFollows : Prop} {l l' : Layout} {past : List Token} {t : Token}
    (h : l.Reflects past) (hs : l.Step ended t.kind l') (he : lexemeFollows → ¬ended) :
    Structured l past t lexemeFollows := by
  have hb := h.balance
  have hpos := List.length_pos_iff.2 h.nested.ne_nil
  refine ⟨⟨h.nested.last, h.nested.decreasing⟩, by omega, fun hk => ?_, fun hk => ?_, fun hk => ?_,
    fun hk hf => ?_⟩ <;> rw [hk] at hs
  · cases hs with
    | lexeme style hm => nomatch hm
    | finish style ho hl =>
      rw [hl, List.length_singleton] at hb
      omega
  · cases hs with
    | lexeme style hm => nomatch hm
    | newline ho hd =>
      obtain ⟨u, hu, hc⟩ := h.lineOpen fun hq => hq ho hd
      exact ⟨⟨hd, h.depth.symm.trans hd⟩, u, hu, TokenKind.isLexeme_of_canEndLine hc, hc⟩
  · cases hs with
    | lexeme style hm => nomatch hm
    | indent style hstart => exact h.lineStart hstart
  · cases hs with
    | lexeme style hm => nomatch hm
    | dedent style hstart => exact h.lineStart (hstart.resolve_right (he hf))

namespace Source

theorem kind_closing (s : Source) : s.closing.kind = .endOfFile := by
  have h := s.scanned s.trace.length
  rw [(h.done (h.rest.trans List.drop_length)).1]
  rfl

/-- A lexeme that a later call gives is among the tokens that follow. -/
theorem Scanned.not_marks {s : Source} {n : Nat} (h : s.Scanned (n + 1))
    (hf : ∃ m, n < m ∧ (s.scanner m).next.1.kind.isMark = false) :
    ¬∀ x ∈ (s.scanner (n + 1)).rest, x.1.kind.isMark = true := by
  obtain ⟨m, hm, hk⟩ := hf
  intro hmarks
  rw [(s.scanned m).next] at hk
  cases ht : s.trace[m]? with
  | none =>
    rw [Source.tokens, List.getElem?_map, ht, Option.map_none, Option.getD_none, s.kind_closing] at hk
    nomatch hk
  | some x =>
    have hx : x ∈ (s.scanner (n + 1)).rest := by
      rw [h.rest]
      refine List.mem_of_getElem? (i := m - (n + 1)) ?_
      rw [List.getElem?_drop, ← ht]
      congr 1
      omega
    rw [Source.tokens, List.getElem?_map, ht, Option.map_some, Option.getD_some, hmarks x hx] at hk
    nomatch hk

/-- Each call is a step of the line structure. -/
theorem Scanned.structured {s : Source} {n : Nat} (h : s.Scanned n) :
    Structured (s.scanner n).layout (s.pull n) (s.scanner n).next.1
      (∃ m, n < m ∧ (s.scanner m).next.1.kind.isMark = false) := by
  by_cases hr : (s.scanner n).rest = []
  · obtain ⟨-, hlevels, hquiet⟩ := h.done hr
    rw [Scanner.next_of_rest_nil hr]
    have hstep : Layout.Step False (s.scanner n).layout _ _ :=
      .finish (s.scanner n).layout.style hquiet hlevels
    exact h.reflects.structured hstep fun _ => id
  · obtain ⟨t, q, hnext, -, hrest, -⟩ := Scanner.next_of_rest_ne_nil h.ended hr
    have hq : s.scanner (n + 1) = q := by rw [scanner_succ, hnext]
    have hchain := h.chain
    rw [hrest] at hchain
    rw [hnext]
    exact h.reflects.structured hchain.1 (hq ▸ h.succ.not_marks)

/-- In front of the last token the text has not ended. -/
theorem Scanned.not_ended {s : Source} {n : Nat} (h : s.Scanned n) (hn : n + 1 < s.trace.length) :
    (s.scanner n).next.1.kind ≠ .endOfFile := by
  have hr : (s.scanner n).rest ≠ [] := by
    rw [h.rest, Ne, List.drop_eq_nil_iff]
    omega
  obtain ⟨t, q, hnext, -, hrest, -⟩ := Scanner.next_of_rest_ne_nil h.ended hr
  have hq : s.scanner (n + 1) = q := by rw [scanner_succ, hnext]
  have hchain := h.chain
  rw [hrest] at hchain
  rw [hnext]
  intro hk
  have hnil := hchain.2.1.1 hk
  rw [← hq, h.succ.rest, List.drop_eq_nil_iff] at hnil
  omega

/-- Reading the tokens of a script one by one gives its stream of tokens. After finitely many calls the end of
the text is reached, and each later call gives it again, at the same place. At every call the tokens given
so far and the next one are structured. -/
theorem scan_structured (s : Source) :
    (∀ n, ((Scanner.start s).take n).1 = s.pull n) ∧
    (∃ count p, ∀ n, (n < count → (s.scanner n).next.1.kind ≠ .endOfFile) ∧
      (count ≤ n → (s.scanner n).next.1 = .mark .endOfFile p)) ∧
    ∀ n, Structured (s.scanner n).layout (s.pull n) (s.scanner n).next.1
      (∃ m, n < m ∧ (s.scanner m).next.1.kind.isMark = false) := by
  refine ⟨fun n => (s.scanned n).tokens, ?_, fun n => (s.scanned n).structured⟩
  have hend := s.scanned s.trace.length
  have hclosing := (hend.done (hend.rest.trans List.drop_length)).1
  refine ⟨s.trace.length - 1, (s.scanner s.trace.length).pos, fun n => ⟨fun hn => ?_, fun hn => ?_⟩⟩
  · exact (s.scanned n).not_ended (by omega)
  · rw [(s.scanned n).next, ← hclosing]
    have hpos : 0 < s.trace.length := List.length_pos_iff.2 (traceFrom_ne_nil _ _ _ _)
    rcases Nat.lt_or_ge n s.trace.length with hlt | hge
    · obtain rfl : n = s.trace.length - 1 := by omega
      have hlast : s.tokens.getLast? = s.tokens[s.trace.length - 1]? := by
        rw [List.getLast?_eq_getElem?, tokens, List.length_map]
      obtain ⟨t, ht⟩ : ∃ t, s.tokens[s.trace.length - 1]? = some t :=
        ⟨_, List.getElem?_eq_getElem (by simpa [tokens] using hlt)⟩
      rw [closing, List.getLastD_eq_getLast?, hlast, ht]
      rfl
    · simp [tokens, List.getElem?_eq_none hge]

end Source

end DocScript
