import DocScript.Proofs.Grammar.Accounts
import DocScript.Proofs.Grammar.Scoping
import DocScript.Proofs.Print.Spelling
import DocScript.Proofs.Print.Statements

/-!
# Printing and reading

A legible program is what its text is read as (`Program.Legible.parse_print`). A program that was read without a
complaint is legible as soon as it is clear (`Source.legible_parse`) : its names and numbers come from the
scanner, everything in it stands where the grammar lets it, and its scopes are those that the parser wrote.
So printing it and reading it again changes nothing. Programs that are not clear are read as others :
an operation loses the parentheses that it was called in, a variable that is a key becomes a string, and an
infinite number becomes a variable.
-/

namespace DocScript

open Parse

variable {α : Type} {b b' : Body}

/-- A script whose statements are legible is read back from its tokens. -/
theorem program_gets : ∀ (n : Nat) {ss : List (Stmt α)} {b : Body}, StmtsLegible ss b b' →
    (Parse.program n).Gets (kindsOfStmts ss ++ [.endOfFile]) [.endOfFile] b b' (eraseStmts · = eraseStmts ss)
  | 0, _, _, _ => .outOfFuel
  | n + 1, [], b, hl => by
    obtain rfl := hl.eq_of_nil
    rw [Parse.program]
    refine Gets.atEnd.bind ?_
    rintro _ rfl
    exact .pure rfl
  | n + 1, s :: ss, b, hl => by
    obtain ⟨b₁, hl₁, hl₂⟩ := hl.cons
    obtain ⟨k₀, ks, hks, hk₀⟩ := s.exists_kinds_eq hl₁
    obtain ⟨k', ks', hks', hk'⟩ := exists_kinds_stmts (k := .endOfFile) hl₂ rfl []
    obtain ⟨-, hd, he, hn, -⟩ := startsStmt_ne hk₀
    have hitem := Stmt.ReadBack.item_gets s.readBack hl₁ hk' n (K := ks')
    rw [← hks', hks, List.cons_append] at hitem
    rw [kindsOfStmts, List.append_assoc, hks, List.cons_append, Parse.program]
    refine Gets.atEnd.bind ?_
    rintro _ rfl
    simp only [he, decide_false, Bool.false_eq_true, if_false]
    refine (Gets.eat_other hn).bind ?_
    rintro _ rfl
    refine (Gets.eat_other hd).bind ?_
    rintro _ rfl
    refine hitem.bind ?_
    rintro _ ⟨x, rfl, hx⟩
    exact (program_gets n hl₂).bind fun xs hxs => .pure (congrArg₂ List.cons hx hxs)

/-- A parser in front of tokens that could all be read. -/
theorem Parser.at_start (s : Source) {ks : List TokenKind} (hne : ks ≠ []) (hk : s.tokens.map Token.kind = ks)
    (hs : ∀ k ∈ ks, k.isError = false) : (Parser.start s s.tokens).At ks .module [] .empty := by
  cases ht : s.tokens with
  | nil =>
    rw [ht] at hk
    exact absurd hk.symm hne
  | cons t ts =>
    rw [ht] at hk
    have herr : s.scanError? t = none := s.scanError?_eq_none (hs t.kind (by simp [← hk]))
    have hnext : nextToken s (Token.mark .endOfFile .start) (t :: ts) .empty = (t, ts, .empty) := by
      rw [nextToken, herr]
    refine ⟨?_, hs, rfl, rfl, ?_⟩
    · simpa [Parser.start, hnext] using hk
    · simp [Parser.start, hnext]

/-- The program can be read back from its text. -/
def Program.Legible (p : Program α) : Prop := ∃ b', StmtsLegible p .module b'

/-- A legible program is what its text is read as, without a complaint. -/
theorem Program.Legible.parse_print {p : Program α} (h : p.Legible) (name : String) :
    (Source.parse ⟨name, p.print⟩).errors = .empty ∧ (Source.parse ⟨name, p.print⟩).program.erase = p.erase := by
  obtain ⟨b', h⟩ := h
  obtain ⟨hkinds, hsound⟩ := p.kinds_tokens h.lexical h.clear h.placed name
  have hat := Parser.at_start ⟨name, p.print⟩ (by simp) hkinds hsound
  obtain ⟨q, hq⟩ := Source.exists_program ⟨name, p.print⟩
  have hgets := program_gets (parseFuel (Source.tokens ⟨name, p.print⟩).length) h _ _ _ hat
  rw [after_of_ok hq] at hgets
  have hparse := Source.parse_eq _ hq
  exact ⟨(congrArg Parsed.errors hparse).trans hgets.2.errors, hgets.1⟩

/-- A clear program that was read without a complaint is legible. -/
theorem Source.legible_parse (s : Source) (h : s.parse.errors.hasErrors = false)
    (hc : stmtsPass .clear s.parse.program = true) : s.parse.program.Legible := by
  obtain ⟨hsound, htotal, hle, -⟩ := s.settles_parse
  have hzero : s.parse.errors.total = 0 := by simpa [Diagnostics.hasErrors] using h
  obtain ⟨q, hq, hn, hp⟩ := s.program_keeps
  have hclean : q.Clean := by
    rw [Parser.Clean, ← s.errors_parse hq]
    exact hsound.2 hzero
  have hr := Parse.program_reads (parseFuel s.tokens.length) [] (.start s s.tokens) fun _ => .of_module
  rw [after_of_ok hq] at hr
  obtain ⟨-, hb⟩ := hr hclean
  have hf : q.body.isFunction = false := congrArg Nesting.isFunction hn
  have hfollows := hb.follows
  rw [hf] at hfollows
  exact ⟨_, s.lexical_parse (by omega), hc, hp, hfollows, fun _ => hb.stamped⟩

/-- Printing preserves meaning : a script that is read without a diagnostic, and as a program in which no
operation or lambda is called, indexed or extended, no key is a variable and no number is infinite, is
printed as a text that is read without a diagnostic and as the same program again. -/
theorem Source.parse_print_parse (s : Source) (h : s.parse.errors.hasErrors = false)
    (hc : stmtsPass .clear s.parse.program = true) (name : String) :
    (Source.parse ⟨name, s.parse.program.print⟩).errors.hasErrors = false ∧
      (Source.parse ⟨name, s.parse.program.print⟩).program.erase = s.parse.program.erase := by
  obtain ⟨he, hp⟩ := (s.legible_parse h hc).parse_print name
  exact ⟨by rw [he]; rfl, hp⟩

/-- A decorator, a declaration, loops and handlers, keys, operators in both nestings, and postfix forms. -/
theorem Source.parse_print_parse_nested :
    let s : Source := ⟨"main", "@d(-x)\ndef f(a):\n  local u\n  for u in a:\n    if u == -(2 ** 3):\n      break\n" ++
      "  try:\n    raise p\x7bk: 1\x7d\n  except as e:\n    u[0], e.x = e, lambda z: z or e\n"⟩
    s.parse.errors.hasErrors = false ∧ stmtsPass .clear s.parse.program = true ∧
      (Source.parse ⟨"again", s.parse.program.print⟩).errors.hasErrors = false ∧
      (Source.parse ⟨"again", s.parse.program.print⟩).program.erase = s.parse.program.erase := by
  intro s
  have h : s.parse.errors.hasErrors = false ∧ stmtsPass .clear s.parse.program = true := by decide +kernel
  exact ⟨h.1, h.2, s.parse_print_parse h.1 h.2 "again"⟩

/-- The script is read without a diagnostic, and its text as another program. -/
def Source.Misprinted (s : Source) : Prop :=
  s.parse.errors.hasErrors = false ∧
    (Source.parse ⟨s.name, s.parse.program.print⟩).program.erase ≠ s.parse.program.erase

theorem Source.misprinted_of_clear (s : Source) (h : s.parse.errors.hasErrors = false)
    (hc : stmtsPass .clear s.parse.program.erase = false)
    (hr : stmtsPass .clear (Source.parse ⟨s.name, s.parse.program.print⟩).program.erase = true) : s.Misprinted := by
  refine ⟨h, fun he => ?_⟩
  rw [he, hc] at hr
  contradiction

/-- A called operation and a variable as a key are not printed as what they are. -/
theorem Source.misprinted :
    (Source.mk "main" "(a + b)(c)").Misprinted ∧ (Source.mk "main" "\x7b(x): 1\x7d").Misprinted :=
  ⟨misprinted_of_clear _ (by decide +kernel) (by decide +kernel) (by decide +kernel),
    misprinted_of_clear _ (by decide +kernel) (by decide +kernel) (by decide +kernel)⟩

end DocScript
