import DocScript.Proofs.Grammar.Accounts
import DocScript.Proofs.Grammar.Continuation
import DocScript.Proofs.Run.Unwinding
import DocScript.Proofs.Run.Restoration

/-!
# Scripts one after the other

Scripts that are read without diagnostics can be joined by a line feed, if they contain no tabs and the second does not
start with a blank : the program of the whole is the program of the first followed by the program of the second. Hence
to run the whole is to run the first and then, if it comes to its end, the second.

The kinds of the tokens of the whole are those of the first script, without the end of the text, and those of the
second (`Source.kinds_joined`). The first script is read in front of any rest as it is read alone
(`Source.reads_on`), provided that the rest does not start with a token that goes on with a statement; and a script
that starts with such a token has diagnostics.
-/

namespace DocScript

/-! ## The first line -/

/-- The text does not start with a blank. Carriage returns do not count. -/
def Unindented (text : String) : Prop := ∀ c ∈ (text.toList.dropWhile (· = '\r')).head?, c ≠ ' ' ∧ c ≠ '\t'

theorem Unindented.flush {text : String} (h : Unindented text) : Flush text := by
  refine .inr (.inl ?_)
  rw [leadingOf, Trivia.blanks_skip h]
  rfl

/-! ## Reading on -/

/-- In front of the parser stand tokens of the kinds `ks`. It is outside of all functions and loops, and nothing was
wrong. -/
structure Parser.Fresh (ks : List TokenKind) (p : Parser) : Prop where
  kinds : p.kinds = ks
  clean : p.Clean
  body : Body.module.Alike p.body
  enclosing : p.enclosing = []

namespace Source

variable {s s₁ s₂ : Source}

theorem kinds_eq_concat (s : Source) : s.kinds = s.kinds.dropLast ++ [.endOfFile] := by
  rw [kinds_eq_append, List.dropLast_concat]

theorem ne_endOfFile {k : TokenKind} (hk : k ∈ s.kinds.dropLast) : k ≠ .endOfFile := by
  have hp : s.kinds.Pairwise fun k _ => k ≠ .endOfFile := List.pairwise_map.2 s.pairwise_tokens
  rw [s.kinds_eq_concat, List.pairwise_append] at hp
  exact hp.2.2 k hk .endOfFile (by simp)

theorem Sound.start (h : s.Sound) : (Parser.start s s.tokens).Fresh s.kinds := by
  obtain ⟨t, ht, -⟩ := s.getLast?_tokens
  obtain ⟨t, ts, hts⟩ := List.exists_cons_of_ne_nil (fun hn => by simp [hn] at ht : s.tokens ≠ [])
  have hk : t.kind.isError = false := h t.kind (by simp [kinds, hts])
  have hscan : s.scanError? t = none := by
    rw [← Option.isSome_eq_false_iff.trans Option.isNone_iff_eq_none, s.isSome_scanError? t, hk]
  have hnext : nextToken s (.mark .endOfFile .start) (t :: ts) .empty = (t, ts, .empty) := by rw [nextToken, hscan]
  refine ⟨?_, ?_, .refl _, rfl⟩
  · simp [Parser.kinds, Parser.start, kinds, hts, hnext]
  · simp only [Parser.Clean, Parser.start, hts, hnext]
    rfl

/-- All tokens of a script without diagnostics could be read. -/
theorem sound_of_firstError (h : s.parse.firstError? = none) : s.Sound := by
  obtain ⟨hsound, htotal, -⟩ := s.settles_parse
  have hnone : s.parse.errors.total = 0 := hsound.1 (List.head?_eq_none_iff.1 h)
  have hcount : errorCount s.tokens = 0 := by omega
  intro k hk
  obtain ⟨t, ht, rfl⟩ := List.mem_map.1 hk
  simpa using List.countP_eq_zero.1 hcount t ht

theorem clean_of_firstError (h : s.parse.firstError? = none) {p : Program Span} {q : Parser}
    (hq : Parse.program (parseFuel s.tokens.length) (.start s s.tokens) = .ok p q) : q.Clean :=
  List.head?_eq_none_iff.1 (s.errors_parse hq ▸ h)

/-- It starts with a statement, if with anything. -/
theorem head?_kinds (h : s.parse.firstError? = none) {k : TokenKind} (hk : k.startsNothing = true) :
    s.kinds.head? ≠ some k := by
  intro hhead
  obtain ⟨q, hq⟩ := s.exists_program
  have hstart := (sound_of_firstError h).start
  have hcurrent : (Parser.start s s.tokens).current.kind = k := by
    rw [← hstart.kinds] at hhead
    simpa [Parser.kinds] using hhead
  have hunclean := Parse.program_unclean (hcurrent ▸ hk) (parseFuel s.tokens.length)
  rw [after_of_ok hq] at hunclean
  exact hunclean (clean_of_firstError h hq)

/-- Behind a script without diagnostics the body of the module is as good as new. -/
theorem alike_module {q : Parser}
    (hq : Parse.program (parseFuel s.tokens.length) (.start s s.tokens) = .ok s.parse.program q) (hc : q.Clean)
    (hn : q.nesting = ⟨false, 0, []⟩) : Body.module.Alike q.body := by
  have hf : q.body.isFunction = false := congrArg Nesting.isFunction hn
  have hread := @Parse.program_reads [] (parseFuel s.tokens.length) [] (.start s s.tokens) fun _ => .of_module
  rw [after_of_ok hq] at hread
  obtain ⟨-, hrecords⟩ := hread hc
  refine ⟨hf, congrArg Nesting.loopDepth hn, ?_, fun h => by contradiction⟩
  -- outside of functions nothing can be declared
  cases hd : q.body.declared with
  | nil => rfl
  | cons d ds =>
    obtain ⟨name, scope⟩ := d
    obtain ⟨ht, -⟩ := hrecords.declared (x := name) (s := scope) (by simp [hd])
    simp [hf] at ht

/-- A script without diagnostics is read alike where a rest takes the place of its end, and reading goes on with the
rest. -/
theorem reads_on (h : s.parse.firstError? = none) (o : Outlook) (ho : o.last = s.lastStance) (m : Nat) {q : Parser}
    (hq : q.Fresh (s.kinds.dropLast ++ o.rest)) :
    s.lastStance = .between 0 ∧ ∃ ts k q', eraseStmts ts = s.parse.program.erase ∧ 16 ≤ k ∧ q'.Fresh o.rest ∧
      ∀ us r, Parse.program (m + k) q' = .ok us r →
        Parse.program (m + parseFuel s.tokens.length) q = .ok (ts ++ us) r := by
  obtain ⟨p, hp, hn, -⟩ := s.program_keeps
  have hc := clean_of_firstError h hp
  have hsound := sound_of_firstError h
  have hbeside : o.Beside (.between 0) (.start s s.tokens) q :=
    ⟨⟨s.kinds.dropLast, hsound.start.kinds.trans s.kinds_eq_concat, hq.kinds, ho.symm,
      fun k hk => ⟨hsound k (List.mem_of_mem_dropLast hk), ne_endOfFile hk⟩⟩, hq.clean, hq.body,
      hq.enclosing ▸ .nil⟩
  have hleft := Parser.left_start_lt s
  have hfollows := Parse.program_follows o m (parseFuel s.tokens.length) (.start s s.tokens) q (fun _ => hbeside)
    (Parser.closed_start s) (by unfold parseFuel; omega)
  have hend := Parse.program_atEnd (parseFuel s.tokens.length) (.start s s.tokens)
  rw [after_of_ok hp] at hfollows hend
  obtain ⟨-, ts, k, q', hts, hk, hb, hgo⟩ := hfollows hc
  obtain ⟨hlast, hrest⟩ := hb.eq_last (by simpa [Parser.atEnd] using hend)
  have henclosing := hb.enclosing
  rw [show p.enclosing = [] from congrArg Nesting.enclosing hn] at henclosing
  exact ⟨ho.symm.trans hlast.symm, ts, k, q', hts, hk,
    ⟨hrest, hb.clean, (alike_module hp hc hn).trans hb.body, List.forall₂_nil_left_iff.1 henclosing⟩, hgo⟩

/-- The script with nothing behind it. -/
def Sound.alone (h : s.Sound) : Outlook where
  last := s.lastStance
  rest := [.endOfFile]
  level := h.level.1
  quiet := h.level.2
  apart := .inr rfl
  ne_nil := by simp
  sound := by simp [TokenKind.isError]
  head hk he := by
    cases he
    contradiction

/-- A script without diagnostics ends between lines. -/
theorem lastStance_eq (h : s.parse.firstError? = none) : s.lastStance = .between 0 := by
  have hsound := sound_of_firstError h
  exact (reads_on h hsound.alone rfl 0 (s.kinds_eq_concat ▸ hsound.start)).1

/-- From a parser in front of the tokens of a script its program is read. -/
theorem exists_program_of_fresh (h : s.parse.firstError? = none) {q : Parser} (hq : q.Fresh s.kinds) {n : Nat}
    (hn : parseFuel s.tokens.length ≤ n) :
    ∃ ts r, Parse.program n q = .ok ts r ∧ eraseStmts ts = s.parse.program.erase ∧ r.Clean := by
  obtain ⟨m, rfl⟩ := Nat.exists_eq_add_of_le' hn
  obtain ⟨-, ts, k, q', hts, hk, hq', hgo⟩ := reads_on h (sound_of_firstError h).alone rfl m (s.kinds_eq_concat ▸ hq)
  have hend : q'.atEnd = true := by
    have hkind : q'.current.kind = .endOfFile := (List.cons.inj hq'.kinds).1
    simp [Parser.atEnd, hkind]
  obtain ⟨k, rfl⟩ := Nat.exists_eq_add_of_le' hk
  have hread : Parse.program (m + (k + 16)) q' = .ok [] q' := by
    rw [← Nat.add_assoc, Parse.program]
    simp [bind, EStateM.bind, pure, EStateM.pure, Parse.atEnd, hend]
  exact ⟨ts ++ [], q', hgo [] q' hread, by rw [List.append_nil, hts], hq'.clean⟩

theorem parse_of_clean {p : Program Span} {q : Parser}
    (h : Parse.program (parseFuel s.tokens.length) (.start s s.tokens) = .ok p q) (hc : q.Clean) :
    s.parse.firstError? = none ∧ s.parse.program = p := by
  rw [s.parse_eq h]
  exact ⟨List.head?_eq_none_iff.2 hc, rfl⟩

/-- Whether a script has diagnostics, and what its program is up to spans, are matters of the kinds of its tokens. -/
theorem parse_of_kinds_eq (h : s₁.parse.firstError? = none) (hk : s.kinds = s₁.kinds) :
    s.parse.firstError? = none ∧ s.parse.program.erase = s₁.parse.program.erase := by
  have hsound : s.Sound := by
    rw [Sound, hk]
    exact sound_of_firstError h
  have hstart := hsound.start
  rw [hk] at hstart
  have hlength : s₁.tokens.length = s.tokens.length := by simpa [kinds] using congrArg List.length hk.symm
  obtain ⟨ts, r, hread, hts, hc⟩ := exists_program_of_fresh h hstart (n := parseFuel s.tokens.length) (by rw [hlength])
  obtain ⟨hnone, hp⟩ := parse_of_clean hread hc
  exact ⟨hnone, by rw [hp, ← hts]; rfl⟩

/-- Two scripts are read one after the other. -/
theorem parse_of_kinds_append (h₁ : s₁.parse.firstError? = none) (h₂ : s₂.parse.firstError? = none)
    (hk : s.kinds = s₁.kinds.dropLast ++ s₂.kinds) : s.parse.firstError? = none ∧
      s.parse.program.erase = s₁.parse.program.erase ++ s₂.parse.program.erase := by
  have hs₁ := sound_of_firstError h₁
  have hs₂ := sound_of_firstError h₂
  have hsound : s.Sound := by
    rw [Sound, hk]
    exact List.forall_mem_append.2 ⟨fun k hk => hs₁ k (List.mem_of_mem_dropLast hk), hs₂⟩
  -- the end of the first script is gone, and what it was granted of the fuel as well
  have hfuel : 8 * (s₂.tokens.length - 1) + parseFuel s₁.tokens.length = parseFuel s.tokens.length := by
    have hlength := congrArg List.length hk
    simp only [kinds, List.length_append, List.length_dropLast, List.length_map] at hlength
    have hleft₁ := Parser.left_start_lt s₁
    have hleft₂ := Parser.left_start_lt s₂
    unfold parseFuel
    omega
  obtain ⟨-, ts, k, q, hts, hk₁, hq, hgo⟩ := reads_on h₁ ⟨s₁.lastStance, s₂.kinds, hs₁.level.1, hs₁.level.2,
    .inl (congrArg Stance.within (lastStance_eq h₁)), by rw [kinds_eq_concat]; simp, hs₂, head?_kinds h₂⟩ rfl
    (8 * (s₂.tokens.length - 1)) (hk ▸ hsound.start)
  obtain ⟨us, r, hread, hus, hc⟩ := exists_program_of_fresh h₂ hq (n := 8 * (s₂.tokens.length - 1) + k)
    (by unfold parseFuel; omega)
  have hwhole := hgo us r hread
  rw [hfuel] at hwhole
  obtain ⟨hnone, hp⟩ := parse_of_clean hwhole hc
  refine ⟨hnone, ?_⟩
  rw [hp, ← hts, ← hus]
  exact eraseStmts_append ts us

end Source

/-! ## Running on -/

/-- The second of two programs runs behind the first, if that comes to its end. -/
theorem runProgram_append {σ : Type} (k : Calls σ) (p q : Program Unit) (m : Machine σ) :
    (∀ m', runProgram k p m = (.done, m') → runProgram k (p ++ q) m = runProgram k q m') ∧
      ((runProgram k p m).1 ≠ .done → runProgram k (p ++ q) m = runProgram k p m) := by
  induction p generalizing m with
  | nil =>
    refine ⟨fun m' h => ?_, fun h => absurd rfl h⟩
    obtain ⟨-, rfl⟩ := Prod.mk.inj h
    rfl
  | cons s ss ih =>
    rw [List.cons_append, runProgram, runProgram]
    cases k.exec s m with
    | ok _ m₁ => exact ih m₁
    | error e m₁ =>
      cases e with
      | fault f => cases f <;> exact ⟨fun m' h => by simp at h, fun _ => rfl⟩
      | _ => exact ih m₁

/-- A script leaves the machine where the next one starts. -/
theorem reset_of_interpret {σ : Type} {host : Host σ} {n : Nat} {text : String} {m m' : Machine σ} {o : Outcome}
    (h : interpret host n text m = (o, m')) : { m' with env := m'.root, depth := 0 } = m' := by
  have hcontrol := control_interpret host n text m
  rw [h] at hcontrol
  cases m'
  obtain ⟨rfl, rfl, rfl, -⟩ := Control.mk.inj hcontrol
  rfl

end DocScript
