import DocScript.Proofs.Grammar.Progress
import DocScript.Proofs.Token.Places

/-!
# Reading in order

A parser that reads a script stands between two of its tokens, and the tokens are in order. `Parser.Stands` says so, and
that all its complaints are about tokens of the script. A reader goes on in this order (`Parser.Onward`), whether it
succeeds or is rejected. `Parse.Lays` adds what holds of the result; there is a rule for each basic reader.
-/

namespace DocScript

/-- The diagnostic is about a token of the script, and quotes its line. -/
def Diagnostic.About (s : Source) (d : Diagnostic) : Prop :=
  ∃ t ∈ s.tokens, ∃ code message, d = t.complain s code message

theorem Diagnostics.mem_push {ds : Diagnostics} {d d' : Diagnostic} (h : d' ∈ (ds.push d).stored) :
    d' ∈ ds.stored ∨ d' = d := by
  simp only [push] at h
  split at h
  · simpa using h
  · exact .inl h

theorem Source.about_of_scanError? {s : Source} {t : Token} {d : Diagnostic} (ht : t ∈ s.tokens)
    (h : s.scanError? t = some d) : d.About s := by
  unfold scanError? at h
  split at h
  · exact ⟨t, ht, _, _, (Option.some.inj h).symm⟩
  · contradiction

/-- The next token is one of those in front, with all that stand behind it. -/
theorem suffix_nextToken (source : Source) (last : Token) {t : Token} (ht : t.kind = .endOfFile) :
    ∀ (ts : List Token) (ds : Diagnostics), ts.getLast? = some t →
      (nextToken source last ts ds).1 :: (nextToken source last ts ds).2.1 <:+ ts
  | [], _, h => by simp at h
  | [u], ds, h => by
    obtain rfl : u = t := by simpa using h
    simp [nextToken, Source.scanError?, ht]
  | u :: v :: ts, ds, h => by
    rw [List.getLast?_cons_cons] at h
    rw [nextToken]
    split
    · exact (suffix_nextToken source last ht (v :: ts) _ h).trans (List.suffix_cons u _)
    · exact List.suffix_refl _

theorem about_nextToken {s : Source} (last : Token) : ∀ {ts : List Token} {ds : Diagnostics},
    (∀ t ∈ ts, t ∈ s.tokens) → (∀ d ∈ ds.stored, d.About s) → ∀ d ∈ (nextToken s last ts ds).2.2.stored, d.About s
  | [], _, _, hd => hd
  | t :: ts, ds, ht, hd => by
    obtain ⟨ht, hts⟩ := List.forall_mem_cons.1 ht
    rw [nextToken]
    split
    · next d he =>
      refine about_nextToken last hts fun d' hd' => ?_
      rcases Diagnostics.mem_push hd' with hd' | rfl
      · exact hd d' hd'
      · exact Source.about_of_scanError? ht he
    · exact hd

namespace Parser

/-! ## Places -/

/-- The place where the current token starts. -/
@[grind] def here (p : Parser) : Pos := p.current.span.start

/-- The place where the token before the current one ends. -/
@[grind] def behind (p : Parser) : Pos := p.previous.span.stop

/-- The parser reads the tokens of the script `s`, in order, and has complained about them only. -/
structure Stands (s : Source) (p : Parser) : Prop where
  source : p.source = s
  closed : p.Closed
  mem : ∀ t ∈ p.current :: p.upcoming, t ∈ s.tokens
  previous : p.previous.Spanned
  pairwise : (p.previous :: p.current :: p.upcoming).Pairwise Token.Before
  about : ∀ d ∈ p.errors.stored, d.About s

/-- The parser `q` stands where `p` stands or behind it. -/
structure Onward (p q : Parser) : Prop where
  subset : q.current :: q.upcoming ⊆ p.current :: p.upcoming
  here_le : p.here ≤ q.here
  behind_le : p.behind ≤ q.behind
  consumed_le : p.consumed ≤ q.consumed
  still : q.consumed = p.consumed → q.current = p.current
  moved : p.consumed < q.consumed →
    p.current.span.stop ≤ q.behind ∧ ∀ t ∈ q.current :: q.upcoming, p.current.Before t

namespace Stands

variable {s : Source} {p : Parser}

theorem current_mem (h : p.Stands s) : p.current ∈ s.tokens := h.mem _ List.mem_cons_self

theorem current (h : p.Stands s) : p.current.Spanned := s.ordered_tokens.spanned _ h.current_mem

theorem before (h : p.Stands s) : p.previous.Before p.current :=
  (List.pairwise_cons.1 h.pairwise).1 _ List.mem_cons_self

theorem behind_le_here (h : p.Stands s) : p.behind ≤ p.here := h.before.le

theorem here_le_stop (h : p.Stands s) : p.here ≤ p.current.span.stop := h.current.ordered

theorem start_le_behind (h : p.Stands s) : p.previous.span.start ≤ p.behind := h.previous.ordered

/-- Behind a lexeme there is a gap. -/
theorem behind_lt_here (h : p.Stands s) (hk : p.previous.kind.isLexeme = true) : p.behind < p.here :=
  h.before.lt hk

end Stands

namespace Onward

variable {p q r : Parser}

/-- A parser that has recorded something stands where it stood. -/
theorem recorded (hc : q.current = p.current) (hu : q.upcoming = p.upcoming) (hp : q.previous = p.previous)
    (hn : q.consumed = p.consumed) : p.Onward q := by
  refine ⟨?_, ?_, ?_, hn.ge, fun _ => hc, fun h => absurd h (by omega)⟩
  · rw [hc, hu]
    exact List.Subset.refl _
  · rw [here, here, hc]
  · rw [behind, behind, hp]

theorem refl (p : Parser) : p.Onward p := recorded rfl rfl rfl rfl

theorem trans (h : p.Onward q) (h' : q.Onward r) : p.Onward r where
  subset := List.Subset.trans h'.subset h.subset
  here_le := h.here_le.trans h'.here_le
  behind_le := h.behind_le.trans h'.behind_le
  consumed_le := h.consumed_le.trans h'.consumed_le
  still he := by
    have h₁ := h.consumed_le
    have h₂ := h'.consumed_le
    exact (h'.still (by omega)).trans (h.still (by omega))
  moved hlt := by
    rcases Nat.lt_or_eq_of_le h.consumed_le with hq | hq
    · exact ⟨(h.moved hq).1.trans h'.behind_le, fun t ht => (h.moved hq).2 t (h'.subset ht)⟩
    · rw [← h.still hq.symm]
      exact h'.moved (hq ▸ hlt)

end Onward

section

variable {s : Source} {p q : Parser}

/-- The tokens behind the current one, as far as they are left after a step. -/
theorem Stands.tokens_advance (h : p.Stands s) :
    p.advance.current :: p.advance.upcoming <:+ p.upcoming ∨
      p.advance.current :: p.advance.upcoming = p.current :: p.upcoming ∧ p.current.Before p.current := by
  obtain ⟨t, ht, hk⟩ := h.closed
  cases hu : p.upcoming with
  | nil =>
    -- the end of the text is not passed
    rw [hu] at ht
    obtain rfl : p.current = t := by simpa using ht
    refine .inr ⟨by simp [Parser.advance, hu, nextToken], Token.before_of_isMark h.current ?_ (le_refl _)⟩
    rw [hk]
    rfl
  | cons u ts =>
    rw [hu, List.getLast?_cons_cons] at ht
    refine .inl ?_
    simpa [Parser.advance, hu] using suffix_nextToken p.source p.current hk (u :: ts) p.errors ht

theorem Stands.before_advance (h : p.Stands s) : ∀ t ∈ p.advance.current :: p.advance.upcoming, p.current.Before t := by
  have hp := (List.pairwise_cons.1 (List.pairwise_cons.1 h.pairwise).2).1
  intro t ht
  rcases h.tokens_advance with hs | ⟨he, hb⟩
  · exact hp t (hs.subset ht)
  · rw [he] at ht
    rcases List.mem_cons.1 ht with rfl | ht
    · exact hb
    · exact hp t ht

theorem Stands.advance (h : p.Stands s) : p.advance.Stands s ∧ p.Onward p.advance := by
  have hs : p.advance.current :: p.advance.upcoming <:+ p.current :: p.upcoming := by
    rcases h.tokens_advance with hs | ⟨he, -⟩
    · exact hs.trans (List.suffix_cons _ _)
    · exact he ▸ List.suffix_refl _
  have hb := h.before_advance
  refine ⟨⟨h.source, closed_advance h.closed, fun t ht => h.mem t (hs.subset ht), h.current, ?_, ?_⟩, ?_⟩
  · exact List.pairwise_cons.2 ⟨hb, (List.pairwise_cons.1 h.pairwise).2.sublist hs.sublist⟩
  · have hm : ∀ t ∈ p.upcoming, t ∈ s.tokens := fun t ht => h.mem t (List.mem_cons_of_mem _ ht)
    have ha := about_nextToken p.current hm h.about
    rwa [← h.source] at ha ⊢
  · exact {
      subset := hs.subset
      here_le := h.here_le_stop.trans (hb _ List.mem_cons_self).le
      behind_le := h.behind_le_here.trans h.here_le_stop
      consumed_le := Nat.le_succ _
      still := fun he => absurd he (Nat.succ_ne_self _)
      moved := fun _ => ⟨le_refl _, hb⟩ }

theorem Stands.complain (h : p.Stands s) {t : Token} (ht : t ∈ s.tokens) (problem : Problem) :
    (p.complain t problem).Stands s ∧ p.Onward (p.complain t problem) := by
  refine ⟨⟨h.source, h.closed, h.mem, h.previous, h.pairwise, fun d hd => ?_⟩, .recorded rfl rfl rfl rfl⟩
  rcases Diagnostics.mem_push hd with hd | rfl
  · exact h.about d hd
  · exact ⟨t, ht, _, _, by rw [h.source]⟩

theorem Stands.synchronizeWithin (n : Nat) : ∀ {p : Parser}, p.Stands s →
    (synchronizeWithin n p).Stands s ∧ p.Onward (synchronizeWithin n p) := by
  induction n with
  | zero => exact fun h => ⟨h, .refl _⟩
  | succ n ih =>
    intro p h
    rw [Parser.synchronizeWithin]
    split
    · exact ⟨h, .refl p⟩
    · obtain ⟨hs, ho⟩ := h.advance
      exact ⟨(ih hs).1, ho.trans (ih hs).2⟩

/-- Recovery goes on behind the token that the rejected statement started with. -/
theorem Onward.recover (h : p.Onward q) (hq : q.Stands s) (he : p.atEnd = false) :
    (p.recover q).Stands s ∧ p.Onward (p.recover q) ∧ p.current.span.stop ≤ (p.recover q).here := by
  have sync (r : Parser) (hr : r.Stands s) (hpr : p.Onward r) (hlt : p.consumed < r.consumed) :
      r.synchronize.Stands s ∧ p.Onward r.synchronize ∧ p.current.span.stop ≤ r.synchronize.here := by
    obtain ⟨hs, ho⟩ := hr.synchronizeWithin (r.upcoming.length + 1)
    exact ⟨hs, hpr.trans ho, ((hpr.moved hlt).1.trans hr.behind_le_here).trans ho.here_le⟩
  have hq' : Stands s { q with rejected := q.rejected + 1 } :=
    ⟨hq.source, hq.closed, hq.mem, hq.previous, hq.pairwise, hq.about⟩
  have hpq : p.Onward { q with rejected := q.rejected + 1 } := h.trans (.recorded rfl rfl rfl rfl)
  have hle := h.consumed_le
  simp only [Parser.recover]
  split
  next hc =>
    obtain ⟨hs, ho⟩ := hq'.advance
    exact sync _ hs (hpq.trans ho) (by simp only [Parser.advance]; omega)
  next hc =>
    refine sync _ hq' hpq (Nat.lt_of_le_of_ne hle fun heq => hc ⟨heq.symm, ?_⟩)
    have hcur : q.current = p.current := h.still heq.symm
    simpa [atEnd, hcur] using he

theorem Stands.leaveFunction (h : p.Stands s) : p.leaveFunction.Stands s ∧ p.Onward p.leaveFunction := by
  unfold Parser.leaveFunction
  split
  · exact ⟨⟨h.source, h.closed, h.mem, h.previous, h.pairwise, h.about⟩, .recorded rfl rfl rfl rfl⟩
  · exact ⟨h, .refl p⟩

@[simp] theorem current_leaveFunction (p : Parser) : p.leaveFunction.current = p.current := by
  unfold leaveFunction
  split <;> rfl

@[simp] theorem previous_leaveFunction (p : Parser) : p.leaveFunction.previous = p.previous := by
  unfold leaveFunction
  split <;> rfl

end

end Parser

open DocScript.Parser

attribute [grind →] Stands.behind_le_here Stands.here_le_stop Stands.start_le_behind Onward.here_le Onward.behind_le

/-! ## Basic readers -/

namespace Parse

variable {β γ : Type}

/-- Run from `p`, which reads the script `s`, `x` goes on from there, and if it succeeds `Q` holds of what it gives and
of the parser behind it. -/
def Lays (x : Parse β) (s : Source) (p : Parser) (Q : β → Parser → Prop) : Prop :=
  p.Stands s → After x p (fun b q => q.Stands s ∧ p.Onward q ∧ Q b q) fun _ q => q.Stands s ∧ p.Onward q

/-- The token `t` at which `p` stands is of that kind, and is the last one in front of `q`. -/
structure Taken (kind : TokenKind) (p : Parser) (t : Token) (q : Parser) : Prop where
  token : t = p.current
  kind : p.current.kind = kind
  previous : q.previous = p.current
  consumed_lt : p.consumed < q.consumed

attribute [grind →] Taken.token Taken.previous

theorem Taken.lexeme {kind : TokenKind} {p q : Parser} {t : Token} (h : Taken kind p t q)
    (hk : kind.isLexeme = true) : q.previous.kind.isLexeme = true := by
  rw [h.previous, h.kind, hk]

namespace Lays

variable {s : Source} {x : Parse β} {f : β → Parse γ} {p : Parser} {Q : β → Parser → Prop} {R : γ → Parser → Prop}

theorem mono {R : β → Parser → Prop} (h : x.Lays s p Q) (hR : ∀ b q, q.Stands s → p.Onward q → Q b q → R b q) :
    x.Lays s p R :=
  fun hp => (h hp).mono (fun b q hq => ⟨hq.1, hq.2.1, hR b q hq.1 hq.2.1 hq.2.2⟩) fun _ _ => id

theorem pure {b : β} (h : Q b p) : (Pure.pure b : Parse β).Lays s p Q :=
  fun hp => ⟨hp, .refl p, h⟩

theorem bind (h : x.Lays s p Q)
    (hf : ∀ b q, p.Stands s → q.Stands s → p.Onward q → Q b q → (f b).Lays s q R) : (x >>= f).Lays s p R := by
  intro hp
  refine (h hp).bind fun b q hx => ?_
  obtain ⟨hq, hpq, hQ⟩ := hx
  exact (hf b q hp hq hpq hQ hq).mono (fun _ _ hr => ⟨hr.1, hpq.trans hr.2.1, hr.2.2⟩)
    fun _ _ hr => ⟨hr.1, hpq.trans hr.2⟩

/-- What follows a rejection is not run. -/
theorem stop_bind (h : x.Lays s p fun _ _ => False) : (x >>= f).Lays s p R :=
  h.bind fun _ _ _ _ _ => False.elim

theorem outOfFuel : (Parse.outOfFuel : Parse β).Lays s p Q :=
  fun hp => ⟨hp, .refl p⟩

theorem rejectAt {t : Token} (ht : t ∈ s.tokens) (problem : Problem) :
    (Parse.rejectAt t problem : Parse β).Lays s p Q :=
  fun hp => hp.complain ht problem

theorem reject (problem : Problem) : (Parse.reject problem : Parse β).Lays s p Q :=
  fun hp => hp.complain hp.current_mem problem

theorem rejectPrevious (hp : p.previous ∈ s.tokens) (problem : Problem) :
    (Parse.rejectPrevious problem : Parse β).Lays s p Q :=
  fun h => h.complain hp problem

theorem peek_bind {f : Token → Parse γ} (h : p.Stands s → (f p.current).Lays s p R) : (peek >>= f).Lays s p R :=
  fun hp => h hp hp

theorem peekKind_bind {f : TokenKind → Parse γ} (h : (f p.current.kind).Lays s p R) : (peekKind >>= f).Lays s p R :=
  h

theorem previous_bind {f : Token → Parse γ} (h : (f p.previous).Lays s p R) : (previous >>= f).Lays s p R :=
  h

theorem at?_bind {kind : TokenKind} {f : Bool → Parse γ} (h : (f (p.current.kind = kind)).Lays s p R) :
    (at? kind >>= f).Lays s p R :=
  h

theorem atEnd_bind {f : Bool → Parse γ} (h : (f p.atEnd).Lays s p R) : (atEnd >>= f).Lays s p R :=
  h

theorem body_bind {f : Body → Parse γ} (h : (f p.body).Lays s p R) : (body >>= f).Lays s p R :=
  h

/-- The token that is taken becomes the one before. -/
theorem advance : Parse.advance.Lays s p fun t q => t = p.current ∧ q.previous = p.current :=
  fun hp => ⟨hp.advance.1, hp.advance.2, rfl, rfl⟩

theorem eat_bind {kind : TokenKind} {f : Bool → Parse γ}
    (ht : ∀ q, p.current.kind = kind → p.Stands s → q.Stands s → p.Onward q → q.previous = p.current →
      (f true).Lays s q R)
    (hf : (f false).Lays s p R) : (eat kind >>= f).Lays s p R := by
  intro hp
  obtain ⟨hq, hpq⟩ := hp.advance
  refine (after_bind _ _).2 ((after_eat kind).2 ⟨fun hk => ?_, fun _ => hf hp⟩)
  exact (ht _ hk hp hq hpq rfl hq).mono (fun _ _ hr => ⟨hr.1, hpq.trans hr.2.1, hr.2.2⟩)
    fun _ _ hr => ⟨hr.1, hpq.trans hr.2⟩

theorem expect (kind : TokenKind) : (Parse.expect kind).Lays s p (Taken kind p) :=
  fun hp => (after_expect kind).2
    ⟨fun hk => ⟨hp.advance.1, hp.advance.2, rfl, hk, rfl, Nat.lt_succ_self _⟩, fun _ => hp.complain hp.current_mem _⟩

theorem identifier : Parse.identifier.Lays s p fun x q =>
    x.2 = p.current.span ∧ p.current.kind.isLexeme = true ∧ q.previous = p.current :=
  fun hp => after_identifier.2
    ⟨fun _ hk => ⟨hp.advance.1, hp.advance.2, rfl, by rw [hk]; rfl, rfl⟩, fun _ => hp.complain hp.current_mem _⟩

theorem lineEnd : Parse.lineEnd.Lays s p fun _ _ => True :=
  fun hp => after_lineEnd.2 ⟨fun _ => ⟨hp.advance.1, hp.advance.2, trivial⟩, fun _ _ => ⟨hp, .refl p, trivial⟩,
    fun _ _ => hp.complain hp.current_mem _⟩

/-- An occurrence of a variable takes no token. -/
theorem resolve (name : String) :
    (Parse.resolve name).Lays s p fun _ q => q.current = p.current ∧ q.previous = p.previous :=
  fun hp => ⟨⟨hp.source, hp.closed, hp.mem, hp.previous, hp.pairwise, hp.about⟩, .recorded rfl rfl rfl rfl, rfl, rfl⟩

theorem declare (name : String) (scope : Scope) {t : Token} (ht : t ∈ s.tokens) :
    (Parse.declare name scope t).Lays s p fun _ q => q.previous = p.previous :=
  fun hp => (after_declare name scope t).2
    ⟨fun _ => ⟨⟨hp.source, hp.closed, hp.mem, hp.previous, hp.pairwise, hp.about⟩, .recorded rfl rfl rfl rfl, rfl⟩,
      fun _ _ => hp.complain ht _⟩

/-- Functions and loops that are entered and left make no difference. -/
theorem inFunction (params : List String) (h : x.Lays s (p.enterFunction params) Q)
    (hQ : ∀ b q, Q b q → Q b q.leaveFunction) : (Parse.inFunction params x).Lays s p Q := by
  intro hp
  have hp' : (p.enterFunction params).Stands s :=
    ⟨hp.source, hp.closed, hp.mem, hp.previous, hp.pairwise, hp.about⟩
  have ho : p.Onward (p.enterFunction params) := .recorded rfl rfl rfl rfl
  refine (after_inFunction params x).2 ((h hp').mono (fun b q hq => ?_) fun _ q hq => ?_)
  · obtain ⟨hs, hl⟩ := hq.1.leaveFunction
    exact ⟨hs, (ho.trans hq.2.1).trans hl, hQ b q hq.2.2⟩
  · obtain ⟨hs, hl⟩ := hq.1.leaveFunction
    exact ⟨hs, (ho.trans hq.2).trans hl⟩

theorem inLoop (h : x.Lays s p.enterLoop Q) (hQ : ∀ b q, Q b q → Q b q.leaveLoop) : (Parse.inLoop x).Lays s p Q := by
  intro hp
  have hp' : p.enterLoop.Stands s := ⟨hp.source, hp.closed, hp.mem, hp.previous, hp.pairwise, hp.about⟩
  have ho : p.Onward p.enterLoop := .recorded rfl rfl rfl rfl
  have leave (q : Parser) (hq : q.Stands s) : q.leaveLoop.Stands s ∧ q.Onward q.leaveLoop :=
    ⟨⟨hq.source, hq.closed, hq.mem, hq.previous, hq.pairwise, hq.about⟩, .recorded rfl rfl rfl rfl⟩
  refine (after_inLoop x).2 ((h hp').mono (fun b q hq => ?_) fun _ q hq => ?_)
  · obtain ⟨hs, hl⟩ := leave q hq.1
    exact ⟨hs, (ho.trans hq.2.1).trans hl, hQ b q hq.2.2⟩
  · obtain ⟨hs, hl⟩ := leave q hq.1
    exact ⟨hs, (ho.trans hq.2).trans hl⟩

/-- A rejected statement leaves a `bad` one in its place, and reading goes on behind its first token. -/
theorem recovering {x : Parse (Option (Stmt Span))} {Q : Option (Stmt Span) → Parser → Prop} (h : x.Lays s p Q)
    (he : p.atEnd = false)
    (hb : ∀ q message, p.Stands s → p.current.span.stop ≤ q.here → Q (some (.bad p.current.span message)) q) :
    (Parse.recovering x).Lays s p Q := by
  intro hp
  refine (after_recovering x).2 ((h hp).mono (fun _ _ => id) fun e q hq => ?_)
  cases e with
  | rejected =>
    obtain ⟨hs, ho, hle⟩ := hq.2.recover hq.1 he
    exact ⟨hs, ho, hb _ _ hp hle⟩
  | outOfFuel => exact hq

end Lays

end Parse

/-- A parser in front of a script. -/
theorem Parser.stands_start (s : Source) : (Parser.start s s.tokens).Stands s := by
  obtain ⟨t, ht, hk⟩ := s.getLast?_tokens
  have hs := suffix_nextToken s (.mark .endOfFile .start) hk s.tokens .empty ht
  have ho := s.ordered_tokens
  have hprev : (Token.mark .endOfFile .start).Spanned := Token.spanned_ofMark (Nat.le_refl 1) [] .endOfFile
  refine ⟨rfl, closed_start s, fun t ht => hs.subset ht, hprev, ?_, ?_⟩
  · refine List.pairwise_cons.2 ⟨fun u hu => ?_, ho.pairwise.sublist hs.sublist⟩
    exact Token.before_of_isMark hprev rfl (ho.starts u (hs.subset hu)).le
  · refine about_nextToken _ (fun t ht => ht) fun d hd => ?_
    simp [Diagnostics.empty] at hd

end DocScript
