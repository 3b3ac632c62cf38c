import DocScript.Proofs.Grammar.Readers

/-!
# Where a parser stands

A reader passes over tokens and never goes back. `Parser.Leads p q` says that `q` stands where `p`
stands or behind it. `Parse.Moves x p k` says of the reader `x` that it ends there if it is run from
`p`, at least `k` tokens on if it succeeds, and that it does not run out of fuel.

The streams of scripts are closed by a token for the end of the text, and a parser that stands in
front of it has tokens left (`Parser.left_advance_lt`). Recovery from a rejected statement takes
at least one token (`Parser.leads_recover`).
-/

namespace DocScript

/-! ## Tokens in front of a parser -/

theorem length_nextToken_le (source : Source) (last : Token) :
    ∀ (ts : List Token) (ds : Diagnostics), (nextToken source last ts ds).2.1.length ≤ ts.length
  | [], _ => Nat.le_refl _
  | t :: ts, ds => by
    rw [nextToken]
    split
    · exact Nat.le_trans (length_nextToken_le source last ts _) (Nat.le_succ _)
    · exact Nat.le_succ _

theorem length_nextToken_lt (source : Source) (last : Token) {ts : List Token} (h : ts ≠ [])
    (ds : Diagnostics) : (nextToken source last ts ds).2.1.length < ts.length := by
  cases ts with
  | nil => exact absurd rfl h
  | cons t ts =>
    rw [nextToken]
    split
    · exact Nat.lt_succ_of_le (length_nextToken_le source last ts _)
    · exact Nat.lt_succ_self _

/-- The end of the text stays the last token. -/
theorem getLast?_nextToken (source : Source) (last : Token) {t : Token} (ht : t.kind = .endOfFile) :
    ∀ (ts : List Token) (ds : Diagnostics), ts.getLast? = some t →
      ((nextToken source last ts ds).1 :: (nextToken source last ts ds).2.1).getLast? = some t
  | [], _, h => by simp at h
  | [u], ds, h => by
    obtain rfl : u = t := by simpa using h
    simp [nextToken, Source.scanError?, ht]
  | u :: v :: ts, ds, h => by
    rw [List.getLast?_cons_cons] at h
    rw [nextToken]
    split
    · exact getLast?_nextToken source last ht (v :: ts) _ h
    · rwa [List.getLast?_cons_cons]

namespace Parser

/-- How many tokens stand behind the current one. -/
def left (p : Parser) : Nat := p.upcoming.length

/-- The last token is the end of the text. -/
def Closed (p : Parser) : Prop :=
  ∃ t, (p.current :: p.upcoming).getLast? = some t ∧ t.kind = .endOfFile

theorem atEnd_eq_false {p : Parser} {k : TokenKind} (h : p.current.kind = k)
    (hk : k ≠ .endOfFile) : p.atEnd = false := by
  simp [atEnd, h, hk]

theorem closed_advance {p : Parser} (h : p.Closed) : p.advance.Closed := by
  obtain ⟨t, ht, hk⟩ := h
  cases hu : p.upcoming with
  | nil =>
    rw [hu] at ht
    refine ⟨t, ?_, hk⟩
    simpa [advance, hu, nextToken] using ht
  | cons u ts =>
    rw [hu, List.getLast?_cons_cons] at ht
    refine ⟨t, ?_, hk⟩
    simpa [advance, hu] using getLast?_nextToken p.source p.current hk (u :: ts) p.errors ht

theorem left_advance_le (p : Parser) : p.advance.left ≤ p.left :=
  length_nextToken_le ..

theorem left_advance_lt {p : Parser} (h : p.Closed) (he : p.atEnd = false) :
    p.advance.left < p.left := by
  refine length_nextToken_lt _ _ (fun hu => ?_) _
  obtain ⟨t, ht, hk⟩ := h
  rw [hu] at ht
  obtain rfl : p.current = t := by simpa using ht
  simp [atEnd, hk] at he

/-- `p` and `q` stand at the same token. -/
structure Aligned (p q : Parser) : Prop where
  current : q.current = p.current
  upcoming : q.upcoming = p.upcoming
  consumed : q.consumed = p.consumed

theorem aligned_complain (p : Parser) (t : Token) (problem : Problem) :
    p.Aligned (p.complain t problem) :=
  ⟨rfl, rfl, rfl⟩

theorem aligned_leaveFunction (p : Parser) : p.Aligned p.leaveFunction := by
  unfold leaveFunction
  split <;> exact ⟨rfl, rfl, rfl⟩

/-- `q` stands where `p` stands or behind it. -/
structure Leads (p q : Parser) : Prop where
  closed : q.Closed
  left_le : q.left ≤ p.left
  consumed_le : p.consumed ≤ q.consumed
  still : q.consumed = p.consumed → q.current = p.current
  moved : p.consumed < q.consumed → p.atEnd = false → q.left < p.left

namespace Leads

variable {p q r : Parser}

theorem refl (h : p.Closed) : p.Leads p :=
  ⟨h, Nat.le_refl _, Nat.le_refl _, fun _ => rfl, fun h => absurd h (Nat.lt_irrefl _)⟩

theorem trans (h : p.Leads q) (h' : q.Leads r) : p.Leads r where
  closed := h'.closed
  left_le := Nat.le_trans h'.left_le h.left_le
  consumed_le := Nat.le_trans h.consumed_le h'.consumed_le
  still he := by
    have h₁ := h.consumed_le
    have h₂ := h'.consumed_le
    exact (h'.still (by omega)).trans (h.still (by omega))
  moved hlt he := by
    rcases Nat.lt_or_eq_of_le h.consumed_le with hq | hq
    · exact Nat.lt_of_le_of_lt h'.left_le (h.moved hq he)
    · have hc : q.atEnd = false := by
        rw [atEnd, h.still hq.symm]
        exact he
      exact Nat.lt_of_lt_of_le (h'.moved (by omega) hc) h.left_le

theorem of_aligned {p' q' : Parser} (h : p.Leads q) (hp : p.Aligned p') (hq : q.Aligned q') :
    p'.Leads q' := by
  constructor <;> simp only [Closed, left, atEnd, hp.current, hp.upcoming, hp.consumed, hq.current,
    hq.upcoming, hq.consumed]
  · exact h.closed
  · exact h.left_le
  · exact h.consumed_le
  · exact h.still
  · exact h.moved

/-- A parser that only differs in what it has recorded stands where it stood. -/
theorem recorded (h : p.Closed) (hq : p.Aligned q) : p.Leads q :=
  (refl h).of_aligned ⟨rfl, rfl, rfl⟩ hq

theorem advance (h : p.Closed) : p.Leads p.advance where
  closed := closed_advance h
  left_le := left_advance_le p
  consumed_le := Nat.le_succ _
  still he := absurd he (Nat.succ_ne_self _)
  moved _ he := left_advance_lt h he

end Leads

theorem leads_synchronizeWithin :
    ∀ (n : Nat) {p : Parser}, p.Closed → p.Leads (synchronizeWithin n p)
  | 0, _, h => .refl h
  | n + 1, p, h => by
    rw [synchronizeWithin]
    split
    · exact .refl h
    · exact (Leads.advance h).trans (leads_synchronizeWithin n (closed_advance h))

/-- Recovery goes on behind the place where the rejected statement started. -/
theorem leads_recover {p q : Parser} (h : p.Leads q) (he : p.atEnd = false) :
    p.Leads (p.recover q) ∧ (p.recover q).left < p.left := by
  have sync : ∀ r : Parser, p.Leads r → r.left < p.left →
      p.Leads r.synchronize ∧ r.synchronize.left < p.left := by
    intro r hr hlt
    have hs := leads_synchronizeWithin (r.upcoming.length + 1) hr.closed
    exact ⟨hr.trans hs, Nat.lt_of_le_of_lt hs.left_le hlt⟩
  have hq : p.Leads { q with rejected := q.rejected + 1 } :=
    h.of_aligned ⟨rfl, rfl, rfl⟩ ⟨rfl, rfl, rfl⟩
  have hat : q.consumed = p.consumed → q.atEnd = false := fun hc => by
    rw [atEnd, h.still hc]
    exact he
  simp only [recover]
  split
  next hc =>
    exact sync _ (hq.trans (.advance hq.closed))
      (Nat.lt_of_lt_of_le (left_advance_lt hq.closed (hat hc.1)) h.left_le)
  next hc =>
    have hne : q.consumed ≠ p.consumed := fun hc' => hc ⟨hc', by simpa [atEnd] using hat hc'⟩
    exact sync _ hq (h.moved (Nat.lt_of_le_of_ne h.consumed_le (Ne.symm hne)) he)

end Parser

/-! ## Basic readers -/

namespace Parse

open DocScript.Parser

variable {β γ : Type}

/-- `x`, run from `p`, does not run out of fuel and never goes back, and if it succeeds it takes at
least `k` tokens. -/
def Moves (x : Parse β) (p : Parser) (k : Nat) : Prop :=
  After x p (fun _ q => p.Leads q ∧ q.left + k ≤ p.left) (fun e q => e = .rejected ∧ p.Leads q)

namespace Moves

variable {x : Parse β} {f : β → Parse γ} {p : Parser} {j k : Nat}

theorem weaken (h : x.Moves p k) (hj : j ≤ k) : x.Moves p j :=
  After.mono h (fun _ _ h => ⟨h.1, by omega⟩) fun _ _ => id

/-- The second reader starts where the first one ended. -/
theorem bind (h : x.Moves p k)
    (hf : ∀ b q, q.Closed → q.left + k ≤ p.left → (f b).Moves q (j - k)) : (x >>= f).Moves p j := by
  refine After.bind (After.mono h (fun _ _ => id) fun _ _ => id) fun b q hq => ?_
  exact After.mono (hf b q hq.1.closed hq.2) (fun _ r hr => ⟨hq.1.trans hr.1, by omega⟩)
    fun _ r hr => ⟨hr.1, hq.1.trans hr.2⟩

theorem pure (h : p.Closed) (b : β) : (Pure.pure b : Parse β).Moves p 0 :=
  ⟨.refl h, Nat.le_refl _⟩

theorem reject (h : p.Closed) (problem : Problem) : (Parse.reject problem : Parse β).Moves p k :=
  ⟨rfl, .recorded h (aligned_complain p _ problem)⟩

theorem advance (h : p.Closed) (he : p.atEnd = false) : Parse.advance.Moves p 1 :=
  ⟨.advance h, left_advance_lt h he⟩

theorem expect (h : p.Closed) {kind : TokenKind} (hk : kind ≠ .endOfFile) :
    (Parse.expect kind).Moves p 1 :=
  (after_expect kind).2 ⟨fun hc => advance h (atEnd_eq_false hc hk),
    fun _ => ⟨rfl, .recorded h (aligned_complain p _ _)⟩⟩

theorem identifier (h : p.Closed) : Parse.identifier.Moves p 1 :=
  after_identifier.2 ⟨fun _ hc => advance h (atEnd_eq_false hc nofun),
    fun _ => ⟨rfl, .recorded h (aligned_complain p _ _)⟩⟩

theorem lineEnd (h : p.Closed) : Parse.lineEnd.Moves p 0 :=
  after_lineEnd.2 ⟨fun _ => ⟨.advance h, left_advance_le p⟩, fun _ _ => ⟨.refl h, Nat.le_refl _⟩,
    fun _ _ => ⟨rfl, .recorded h (aligned_complain p _ _)⟩⟩

theorem declare (h : p.Closed) (name : String) (scope : Scope) (t : Token) :
    (Parse.declare name scope t).Moves p 0 :=
  (after_declare name scope t).2
    ⟨fun _ => ⟨.recorded h ⟨rfl, rfl, rfl⟩, Nat.le_refl _⟩,
      fun _ _ => ⟨rfl, .recorded h (aligned_complain p _ _)⟩⟩

/-- What follows a token that may stand here depends on whether it was taken. -/
theorem eat_bind (h : p.Closed) {kind : TokenKind} (hk : kind ≠ .endOfFile)
    {f : Bool → Parse γ} (ht : ∀ q, q.Closed → q.left + 1 ≤ p.left → (f true).Moves q (k - 1))
    (hf : (f false).Moves p k) : (eat kind >>= f).Moves p k := by
  refine (after_bind _ _).2 ((after_eat kind).2 ⟨fun hc => ?_, fun _ => hf⟩)
  have ha := left_advance_lt h (atEnd_eq_false hc hk)
  have hl := Leads.advance h
  exact After.mono (ht _ hl.closed ha) (fun _ q hq => ⟨hl.trans hq.1, by omega⟩)
    fun _ q hq => ⟨hq.1, hl.trans hq.2⟩

theorem inFunction (params : List String) (h : x.Moves (p.enterFunction params) k) :
    (Parse.inFunction params x).Moves p k := by
  refine (after_inFunction params x).2 (After.mono h (fun _ q hq => ?_) fun _ q hq => ?_)
  · refine ⟨hq.1.of_aligned ⟨rfl, rfl, rfl⟩ (aligned_leaveFunction q), ?_⟩
    rw [left, (aligned_leaveFunction q).upcoming]
    exact hq.2
  · exact ⟨hq.1, hq.2.of_aligned ⟨rfl, rfl, rfl⟩ (aligned_leaveFunction q)⟩

theorem inLoop (h : x.Moves p.enterLoop k) : (Parse.inLoop x).Moves p k := by
  refine (after_inLoop x).2 (After.mono h (fun _ q hq => ?_) fun _ q hq => ?_)
  · exact ⟨hq.1.of_aligned ⟨rfl, rfl, rfl⟩ ⟨rfl, rfl, rfl⟩, hq.2⟩
  · exact ⟨hq.1, hq.2.of_aligned ⟨rfl, rfl, rfl⟩ ⟨rfl, rfl, rfl⟩⟩

theorem peek_bind {f : Token → Parse γ} (h : (f p.current).Moves p k) : (peek >>= f).Moves p k :=
  h

theorem peekKind_bind {f : TokenKind → Parse γ} (h : (f p.current.kind).Moves p k) :
    (peekKind >>= f).Moves p k :=
  h

theorem previous_bind {f : Token → Parse γ} (h : (f p.previous).Moves p k) :
    (previous >>= f).Moves p k :=
  h

/-- An occurrence of a variable takes no token. -/
theorem resolve_bind (h : p.Closed) {name : String} {f : Variable → Parse γ}
    (hf : ∀ v q, q.Closed → q.left = p.left → q.current = p.current → (f v).Moves q k) :
    (resolve name >>= f).Moves p k := by
  have hq := hf ⟨name, p.body.scopeOf name⟩ { p with body := p.body.refer name } h rfl rfl
  exact (after_bind _ _).2 ((after_resolve name).2 (After.mono hq
    (fun _ _ hr => ⟨hr.1.of_aligned ⟨rfl, rfl, rfl⟩ ⟨rfl, rfl, rfl⟩, hr.2⟩)
    fun _ _ hr => ⟨hr.1, hr.2.of_aligned ⟨rfl, rfl, rfl⟩ ⟨rfl, rfl, rfl⟩⟩))

theorem reject_bind (h : p.Closed) (problem : Problem) {f : β → Parse γ} :
    (Parse.reject problem >>= f).Moves p k :=
  ⟨rfl, .recorded h (aligned_complain p _ problem)⟩

theorem rejectPrevious_bind (h : p.Closed) (problem : Problem) {f : β → Parse γ} :
    (Parse.rejectPrevious problem >>= f).Moves p k :=
  ⟨rfl, .recorded h (aligned_complain p _ problem)⟩

theorem rejectAt_bind (h : p.Closed) (t : Token) (problem : Problem) {f : β → Parse γ} :
    (Parse.rejectAt t problem >>= f).Moves p k :=
  ⟨rfl, .recorded h (aligned_complain p _ problem)⟩

theorem body_bind {f : Body → Parse γ} (h : (f p.body).Moves p k) : (body >>= f).Moves p k :=
  h

theorem at?_bind {kind : TokenKind} {f : Bool → Parse γ}
    (h : (f (p.current.kind = kind)).Moves p k) : (at? kind >>= f).Moves p k :=
  h

theorem atEnd_bind {f : Bool → Parse γ} (h : (f p.atEnd).Moves p k) : (atEnd >>= f).Moves p k :=
  h

end Moves

end Parse

end DocScript
