import DocScript.Proofs.Grammar.Records
import DocScript.Proofs.Token.Joined
import Mathlib.Data.List.Forall2

/-!
# Two parsers abreast

A script that goes on where another one ends is read like that one up to there. To show this, a parser `p` of the
first script and a parser `q` of the longer one are followed side by side : in front of both stand tokens of the same
kinds, then `p` comes to the end of the text and `q` to the first token of the rest (`Outlook.Beside`).

The two could part company only if a reader looked past the last token of the first script. It does so between
statements, where it looks for an `else`, say, and there the rest has something else to offer. Inside a line and inside
a block it does not : tokens tell how many blocks and brackets are open (`Stance`), and a text does not end inside a
block. That it does not end inside a line is not known from the tokens, but follows from reading it without complaint.
Hence this is shown along the way : `Outlook.apart` grants a rest only if the first script ends between lines, and
otherwise the two parsers read the same.

`Parse.Follows P x y view Q` says that `y` does what `x` does, from parsers that are related by `P`, unless something
was wrong : it succeeds, with a result that looks the same through `view`, and leaves the parsers related by `Q`.
-/

namespace DocScript

/-! ## Stances -/

namespace Stance

/-- The stance behind an expression that starts in the stance `s`. -/
def ended (s : Stance) : Stance := { s with within := true, canEnd := true }

/-- An operator between two operands leaves the brackets as they are. -/
theorem ended_pass_binary (s : Stance) {k : TokenKind} {op : BinaryOp} (h : BinaryOp.ofToken? k = some op) :
    (s.pass k).ended = s.ended := by
  unfold BinaryOp.ofToken? at h
  split at h <;> first | rfl | contradiction

theorem ended_pass_unary (s : Stance) {k : TokenKind} {op : UnaryOp} (h : UnaryOp.ofToken? k = some op) :
    (s.pass k).ended = s.ended := by
  unfold UnaryOp.ofToken? at h
  split at h <;> first | rfl | contradiction

end Stance

/-! ## Parsers side by side -/

/-- The bodies differ at most in the names that a module used, which do not matter there. -/
structure Body.Alike (b b' : Body) : Prop where
  isFunction : b'.isFunction = b.isFunction
  loopDepth : b'.loopDepth = b.loopDepth
  declared : b'.declared = b.declared
  referenced : b.isFunction = true → b'.referenced = b.referenced

namespace Body.Alike

variable {b b' : Body}

theorem refl (b : Body) : b.Alike b := ⟨rfl, rfl, rfl, fun _ => rfl⟩

theorem trans {b'' : Body} (h : b.Alike b') (h' : b'.Alike b'') : b.Alike b'' :=
  ⟨h'.isFunction.trans h.isFunction, h'.loopDepth.trans h.loopDepth, h'.declared.trans h.declared,
    fun hf => (h'.referenced (h.isFunction.trans hf)).trans (h.referenced hf)⟩

theorem scopeOf (h : b.Alike b') (name : String) : b'.scopeOf name = b.scopeOf name := by
  rw [Body.scopeOf, Body.scopeOf, h.declared]

theorem refer (h : b.Alike b') (name : String) : (b.refer name).Alike (b'.refer name) :=
  ⟨h.isFunction, h.loopDepth, h.declared, fun hf => congrArg (name :: ·) (h.referenced hf)⟩

theorem declare (h : b.Alike b') (name : String) (scope : Scope) :
    (b.declare name scope).Alike (b'.declare name scope) :=
  ⟨h.isFunction, h.loopDepth, congrArg ((name, scope) :: ·) h.declared, h.referenced⟩

theorem objection? (h : b.Alike b') (hf : b.isFunction = true) (name : String) (scope : Scope) :
    b'.objection? name scope = b.objection? name scope := by
  rw [Body.objection?, Body.objection?, h.declared, h.referenced hf]

end Body.Alike

/-- Whether the token only goes on with a statement, or opens a block. -/
def TokenKind.startsNothing : TokenKind → Bool
  | .keyword .elif | .keyword .else_ | .keyword .except | .keyword .finally_ | .indent => true
  | _ => false

/-- How a script ends, and what stands in place of its end in a longer one. -/
structure Outlook where
  /-- The stance in front of the end of the text. -/
  last : Stance
  /-- The kinds of the tokens that follow. -/
  rest : List TokenKind
  level : last.blocks = 0
  quiet : last.canEnd = true → last.depth ≠ 0
  apart : last.within = false ∨ rest = [.endOfFile]
  ne_nil : rest ≠ []
  sound : ∀ k ∈ rest, k.isError = false
  head : ∀ {k : TokenKind}, k.startsNothing = true → rest.head? ≠ some k

/-- The kinds of the tokens in front of a parser. -/
def Parser.kinds (p : Parser) : List TokenKind := p.current.kind :: p.upcoming.map Token.kind

theorem Parser.kinds_advance {p : Parser} {k k' : TokenKind} {ks : List TokenKind} (h : p.kinds = k :: k' :: ks)
    (hk : k'.isError = false) : p.advance.kinds = k' :: ks ∧ p.advance.errors = p.errors := by
  obtain ⟨t, ts, hu, rfl, rfl⟩ := List.map_eq_cons_iff.1 (List.cons.inj h).2
  have hs : p.source.scanError? t = none := by
    unfold Source.scanError?
    split
    · next e he => simp [he, TokenKind.isError] at hk
    · rfl
  simp [advance, kinds, hu, nextToken, hs]

namespace Outlook

variable (o : Outlook)

/-- In front of `p` and `q` stand the same tokens, in the stance `s`; then `p` comes to its end and `q` to the
rest. -/
structure Beside (s : Stance) (p q : Parser) : Prop where
  ahead : ∃ ks, p.kinds = ks ++ [.endOfFile] ∧ q.kinds = ks ++ o.rest ∧ ks.foldl .pass s = o.last ∧
    ∀ k ∈ ks, k.isError = false ∧ k ≠ .endOfFile
  clean : q.Clean
  body : p.body.Alike q.body
  enclosing : List.Forall₂ Body.Alike p.enclosing q.enclosing

/-- What is more, both stand at a token of the same kind. -/
structure Abreast (s : Stance) (p q : Parser) : Prop extends o.Beside s p q where
  current : q.current.kind = p.current.kind

/-- And the current tokens are of the kind `k`. -/
structure At (k : TokenKind) (s : Stance) (p q : Parser) : Prop extends o.Abreast s p q where
  kind : p.current.kind = k

/-- Inside a line, whether it can end here or not. -/
def Inside (blocks depth : Nat) (p q : Parser) : Prop := ∃ c, o.Abreast ⟨blocks, depth, true, c⟩ p q

variable {o} {s : Stance} {p q : Parser} {k : TokenKind}

namespace Beside

/-- The current token, which is not the end of the text, and what follows it. -/
theorem exists_cons (h : o.Beside s p q) (he : p.current.kind ≠ .endOfFile) :
    ∃ ks, p.kinds = p.current.kind :: (ks ++ [.endOfFile]) ∧ q.kinds = p.current.kind :: (ks ++ o.rest) ∧
      ks.foldl .pass (s.pass p.current.kind) = o.last ∧ ∀ k ∈ ks, k.isError = false ∧ k ≠ .endOfFile := by
  obtain ⟨_ | ⟨k, ks⟩, hp, hq, hlast, hks⟩ := h.ahead
  · exact absurd (List.cons.inj hp).1 he
  · have hk : p.current.kind = k := (List.cons.inj hp).1
    rw [hk]
    exact ⟨ks, hp, hq, hlast, fun k hk => hks k (List.mem_cons_of_mem _ hk)⟩

theorem abreast_of_ne (h : o.Beside s p q) (he : p.current.kind ≠ .endOfFile) : o.Abreast s p q := by
  obtain ⟨ks, -, hq, -⟩ := h.exists_cons he
  exact ⟨h, (List.cons.inj hq).1⟩

/-- At the end of the text the stance is the last one. -/
theorem eq_last (h : o.Beside s p q) (he : p.current.kind = .endOfFile) : s = o.last ∧ q.kinds = o.rest := by
  obtain ⟨_ | ⟨k, ks⟩, hp, hq, hlast, hks⟩ := h.ahead
  · exact ⟨hlast, hq⟩
  · have hk : p.current.kind = k := (List.cons.inj hp).1
    exact absurd (hk.symm.trans he) (hks k List.mem_cons_self).2

/-- A text does not end inside a block, nor does one that a rest follows inside a line. -/
theorem abreast (h : o.Beside s p q) (hs : s.within = true ∨ s.blocks ≠ 0) : o.Abreast s p q := by
  by_cases he : p.current.kind = .endOfFile
  · obtain ⟨rfl, hq⟩ := h.eq_last he
    rcases hs with hs | hs
    · have hrest : o.rest = [.endOfFile] := o.apart.resolve_left (by simp [hs])
      rw [hrest] at hq
      exact ⟨h, (List.cons.inj hq).1.trans he.symm⟩
    · exact absurd o.level hs
  · exact h.abreast_of_ne he

/-- Where the rest does not begin with a token of the kind `k`, both parsers stand at one or none does. -/
theorem current_iff (h : o.Beside s p q) (hk : k ≠ .endOfFile) (hr : o.rest.head? ≠ some k) :
    q.current.kind = k ↔ p.current.kind = k := by
  by_cases he : p.current.kind = .endOfFile
  · obtain ⟨-, hq⟩ := h.eq_last he
    refine iff_of_false (fun hc => hr ?_) fun hc => hk (hc.symm.trans he)
    rw [← hq, ← hc]
    rfl
  · rw [(h.abreast_of_ne he).current]

theorem advance (h : o.Beside s p q) (hc : p.current.kind = k) (hk : k ≠ .endOfFile) :
    o.Beside (s.pass k) p.advance q.advance := by
  subst hc
  obtain ⟨ks, hp, hq, hlast, hks⟩ := h.exists_cons hk
  have hnext (p : Parser) (rest : List TokenKind) (hne : rest ≠ []) (hsound : ∀ k ∈ rest, k.isError = false)
      (hkinds : ∃ k, p.kinds = k :: (ks ++ rest)) : p.advance.kinds = ks ++ rest ∧ p.advance.errors = p.errors := by
    obtain ⟨k, hkinds⟩ := hkinds
    cases ks with
    | nil =>
      obtain ⟨k', rest, rfl⟩ := List.exists_cons_of_ne_nil hne
      exact Parser.kinds_advance hkinds (hsound k' List.mem_cons_self)
    | cons k' ks => exact Parser.kinds_advance hkinds (hks k' List.mem_cons_self).1
  have hp' := hnext p [.endOfFile] (by simp) (by simp [TokenKind.isError]) ⟨_, hp⟩
  have hq' := hnext q o.rest o.ne_nil o.sound ⟨_, hq⟩
  refine ⟨⟨ks, hp'.1, hq'.1, hlast, hks⟩, ?_, h.body, h.enclosing⟩
  rw [Parser.Clean, hq'.2]
  exact h.clean

theorem refer (h : o.Beside s p q) (name : String) :
    o.Beside s { p with body := p.body.refer name } { q with body := q.body.refer name } :=
  ⟨h.ahead, h.clean, h.body.refer name, h.enclosing⟩

theorem enterFunction (h : o.Beside s p q) (params : List String) :
    o.Beside s (p.enterFunction params) (q.enterFunction params) :=
  ⟨h.ahead, h.clean, .refl _, .cons h.body h.enclosing⟩

theorem leaveFunction (h : o.Beside s p q) : o.Beside s p.leaveFunction q.leaveFunction := by
  have henclosing := h.enclosing
  unfold Parser.leaveFunction
  generalize p.enclosing = bs, q.enclosing = bs' at henclosing
  cases henclosing with
  | nil => exact h
  | cons hb hbs => exact ⟨h.ahead, h.clean, hb, hbs⟩

theorem enterLoop (h : o.Beside s p q) : o.Beside s p.enterLoop q.enterLoop :=
  ⟨h.ahead, h.clean, ⟨h.body.isFunction, congrArg (· + 1) h.body.loopDepth, h.body.declared, h.body.referenced⟩,
    h.enclosing⟩

theorem leaveLoop (h : o.Beside s p q) : o.Beside s p.leaveLoop q.leaveLoop :=
  ⟨h.ahead, h.clean, ⟨h.body.isFunction, congrArg (· - 1) h.body.loopDepth, h.body.declared, h.body.referenced⟩,
    h.enclosing⟩

end Beside

namespace Abreast

/-- A lexeme leads into a line. -/
theorem advance (h : o.Abreast s p q) (hc : p.current.kind = k) (hk : k.isLexeme = true) :
    o.Abreast (s.pass k) p.advance q.advance := by
  have he : k ≠ .endOfFile := fun he => by simp [he, TokenKind.isLexeme] at hk
  exact (h.toBeside.advance hc he).abreast (.inl (by rw [s.pass_of_isLexeme hk]))

theorem refer (h : o.Abreast s p q) (name : String) :
    o.Abreast s { p with body := p.body.refer name } { q with body := q.body.refer name } :=
  ⟨h.toBeside.refer name, h.current⟩

theorem enterFunction (h : o.Abreast s p q) (params : List String) :
    o.Abreast s (p.enterFunction params) (q.enterFunction params) :=
  ⟨h.toBeside.enterFunction params, h.current⟩

theorem leaveFunction (h : o.Abreast s p q) : o.Abreast s p.leaveFunction q.leaveFunction := by
  refine ⟨h.toBeside.leaveFunction, ?_⟩
  rw [(Parser.aligned_leaveFunction p).current, (Parser.aligned_leaveFunction q).current]
  exact h.current

end Abreast

end Outlook

/-! ## Readers side by side -/

namespace Parse

variable {β γ ν μ : Type}

/-- From parsers that `P` relates, as long as nothing was wrong, `y` succeeds if `x` does, with the same view of the
result, and leaves parsers that `Q` relates. If `x` is rejected, something was wrong. -/
def Follows (P : Parser → Parser → Prop) (x y : Parse β) (view : β → ν) (Q : β → Parser → Parser → Prop) : Prop :=
  ∀ p q, (p.Clean → P p q) →
    After x p (fun a p' => p'.Clean → p.Clean ∧ ∃ b q', y q = .ok b q' ∧ view b = view a ∧ Q a p' q')
      (fun e p' => e = .rejected → ¬p'.Clean)

namespace Follows

variable {P P' : Parser → Parser → Prop} {x y : Parse β} {f g : β → Parse γ} {view : β → ν} {view' : γ → μ}
  {Q : β → Parser → Parser → Prop} {R : γ → Parser → Parser → Prop}

theorem pure {a b : β} (hv : view b = view a) (h : ∀ p q, P p q → Q a p q) :
    Follows P (Pure.pure a) (Pure.pure b) view Q :=
  fun p q hp hc => ⟨hc, b, q, rfl, hv, h p q (hp hc)⟩

theorem bind (h : Follows P x y view Q) (hf : ∀ a b, view b = view a → Follows (Q a) (f a) (g b) view' R) :
    Follows P (x >>= f) (y >>= g) view' R := by
  intro p q hp
  refine (h p q hp).bind fun a p' hx => ?_
  by_cases hc : p'.Clean
  · obtain ⟨hpc, b, q', hy, hv, hQ⟩ := hx hc
    refine (hf a b hv p' q' fun _ => hQ).mono (fun c p'' hr hc' => ?_) fun _ _ => id
    obtain ⟨-, d, q'', hg, hv', hR⟩ := hr hc'
    refine ⟨hpc, d, q'', ?_, hv', hR⟩
    simp only [Bind.bind, EStateM.bind, hy, hg]
  · -- what was wrong once stays wrong, whatever `y` did
    refine (hf a a rfl p' q fun hc' => absurd hc' hc).mono (fun c p'' hr hc' => ?_) fun _ _ => id
    exact absurd (hr hc').1 hc

theorem weaken (h : Follows P x y view Q) (hP : ∀ p q, P' p q → P p q) : Follows P' x y view Q :=
  fun p q hp => h p q fun hc => hP p q (hp hc)

theorem outOfFuel : Follows P Parse.outOfFuel y view Q :=
  fun _ _ _ he => absurd he (by simp)

theorem rejectAt_bind (t : Token) (problem : Problem) (f : γ → Parse β) :
    Follows P (Parse.rejectAt t problem >>= f) y view Q :=
  fun p _ _ _ => p.not_clean_complain t problem

theorem reject_bind (problem : Problem) (f : γ → Parse β) : Follows P (Parse.reject problem >>= f) y view Q :=
  fun p _ _ _ => p.not_clean_complain p.current problem

theorem rejectPrevious_bind (problem : Problem) (f : γ → Parse β) :
    Follows P (Parse.rejectPrevious problem >>= f) y view Q :=
  fun p _ _ _ => p.not_clean_complain p.previous problem

theorem reject (problem : Problem) : Follows P (Parse.reject problem) y view Q :=
  fun p _ _ _ => p.not_clean_complain p.current problem

theorem outOfFuel_bind (f : γ → Parse β) : Follows P (Parse.outOfFuel >>= f) y view Q :=
  fun _ _ _ he => absurd he (by simp)

/-- A step that always succeeds. -/
theorem of_forall {a b : Parser → β} {p' q' : Parser → Parser} (hx : ∀ p, x p = .ok (a p) (p' p))
    (hy : ∀ q, y q = .ok (b q) (q' q)) (hc : ∀ p, (p' p).Clean → p.Clean)
    (h : ∀ p q, P p q → view (b q) = view (a p) ∧ Q (a p) (p' p) (q' q)) : Follows P x y view Q := by
  intro p q hp
  rw [after_of_ok (hx p)]
  intro hclean
  have hpc := hc p hclean
  exact ⟨hpc, b q, q' q, hy q, h p q (hp hpc)⟩

theorem previous : Follows P Parse.previous Parse.previous (fun _ => ()) fun _ => P :=
  .of_forall (fun _ => rfl) (fun _ => rfl) (fun _ => id) fun _ _ h => ⟨rfl, h⟩

theorem peekSpan : Follows P Parse.peek Parse.peek (fun _ => ()) fun _ => P :=
  .of_forall (fun _ => rfl) (fun _ => rfl) (fun _ => id) fun _ _ h => ⟨rfl, h⟩

/-! ### Looking at the current token -/

theorem at? (hP : ∀ {p q}, P p q → q.current.kind = p.current.kind) (k : TokenKind) :
    Follows P (Parse.at? k) (Parse.at? k) id fun _ => P :=
  .of_forall (fun _ => rfl) (fun _ => rfl) (fun _ => id) fun _ _ h => ⟨by rw [hP h], h⟩

theorem atEnd (hP : ∀ {p q}, P p q → q.current.kind = p.current.kind) :
    Follows P Parse.atEnd Parse.atEnd id fun _ => P :=
  .of_forall (fun _ => rfl) (fun _ => rfl) (fun _ => id) fun p q h => ⟨by simp [Parser.atEnd, hP h], h⟩

variable {o : Outlook} {s : Stance} {k : TokenKind}

theorem peekKind : Follows (o.Abreast s) Parse.peekKind Parse.peekKind id fun k => o.At k s :=
  .of_forall (fun _ => rfl) (fun _ => rfl) (fun _ => id) fun _ _ h => ⟨h.current, h, rfl⟩

theorem peek : Follows (o.Abreast s) Parse.peek Parse.peek Token.kind fun t => o.At t.kind s :=
  .of_forall (fun _ => rfl) (fun _ => rfl) (fun _ => id) fun _ _ h => ⟨h.current, h, rfl⟩

theorem advance (hk : k.isLexeme = true) :
    Follows (o.At k s) Parse.advance Parse.advance (fun _ => ()) fun _ => o.Abreast (s.pass k) :=
  .of_forall (fun _ => rfl) (fun _ => rfl) (fun _ => Parser.Clean.of_advance) fun _ _ h =>
    ⟨rfl, h.toAbreast.advance h.kind hk⟩

/-- A token that may stand here or not is taken by both or by none. -/
theorem eat {Q : Bool → Parser → Parser → Prop} (hP : ∀ {p q}, P p q → (q.current.kind = k ↔ p.current.kind = k))
    (ht : ∀ {p q}, P p q → p.current.kind = k → Q true p.advance q.advance)
    (hf : ∀ {p q}, P p q → p.current.kind ≠ k → Q false p q) :
    Follows P (Parse.eat k) (Parse.eat k) id Q := by
  intro p q hp
  refine (after_eat k).2 ⟨fun hk hc => ?_, fun hk hc => ?_⟩
  · have h := hp hc.of_advance
    exact ⟨hc.of_advance, true, q.advance, if_pos ((hP h).2 hk), rfl, ht h hk⟩
  · have h := hp hc
    exact ⟨hc, false, q, if_neg fun hq => hk ((hP h).1 hq), rfl, hf h hk⟩

variable {f g : Bool → Parse γ} {R : γ → Parser → Parser → Prop}

theorem cases_bind {x y : Parse Bool} {Q : Bool → Parser → Parser → Prop} (h : Follows P x y id Q)
    (ht : Follows (Q true) (f true) (g true) view' R) (hf : Follows (Q false) (f false) (g false) view' R) :
    Follows P (x >>= f) (y >>= g) view' R := by
  refine h.bind fun a b hb => ?_
  obtain rfl : b = a := hb
  cases b with
  | true => exact ht
  | false => exact hf

theorem eat_bind (hk : k.isLexeme = true) (ht : Follows (o.Abreast (s.pass k)) (f true) (g true) view' R)
    (hf : Follows (o.Abreast s) (f false) (g false) view' R) :
    Follows (o.Abreast s) (Parse.eat k >>= f) (Parse.eat k >>= g) view' R :=
  cases_bind (Q := fun b => if b then o.Abreast (s.pass k) else o.Abreast s)
    (.eat (fun h => by rw [h.current]) (fun h he => h.advance he hk) fun h _ => h) ht hf

/-- Between lines the rest may begin where the first script ends; it does not begin with the token that is asked
for. -/
theorem eat_bind_apart (hk : k ≠ .endOfFile) (hr : o.rest.head? ≠ some k)
    (ht : Follows (o.Beside (s.pass k)) (f true) (g true) view' R)
    (hf : Follows (o.Beside s) (f false) (g false) view' R) :
    Follows (o.Beside s) (Parse.eat k >>= f) (Parse.eat k >>= g) view' R :=
  cases_bind (Q := fun b => if b then o.Beside (s.pass k) else o.Beside s)
    (.eat (fun h => h.current_iff hk hr) (fun h he => h.advance he hk) fun h _ => h) ht hf

theorem at?_bind (ht : Follows (o.At k s) (f true) (g true) view' R)
    (hf : Follows (o.Abreast s) (f false) (g false) view' R) :
    Follows (o.Abreast s) (Parse.at? k >>= f) (Parse.at? k >>= g) view' R := by
  refine cases_bind (Q := fun b => if b then o.At k s else o.Abreast s) (.of_forall (fun _ => rfl) (fun _ => rfl)
    (fun _ => id) fun p q h => ⟨by simp [h.current], ?_⟩) ht hf
  by_cases he : p.current.kind = k
  · simpa [he] using ⟨h, he⟩
  · simpa [he] using h

theorem at?_bind_apart (hk : k ≠ .endOfFile) (hr : o.rest.head? ≠ some k)
    (ht : Follows (o.At k s) (f true) (g true) view' R) (hf : Follows (o.Beside s) (f false) (g false) view' R) :
    Follows (o.Beside s) (Parse.at? k >>= f) (Parse.at? k >>= g) view' R := by
  refine cases_bind (Q := fun b => if b then o.At k s else o.Beside s) (.of_forall (fun _ => rfl) (fun _ => rfl)
    (fun _ => id) fun p q h => ⟨by simp [h.current_iff hk hr], ?_⟩) ht hf
  by_cases he : p.current.kind = k
  · simpa [he] using ⟨h.abreast_of_ne (he.symm ▸ hk), he⟩
  · simpa [he] using h

/-- Inside a block the text does not end. -/
theorem atEnd_bind_inside (hs : s.blocks ≠ 0) (ht : Follows (fun _ _ => False) (f true) (g true) view' R)
    (hf : Follows (o.Abreast s) (f false) (g false) view' R) :
    Follows (o.Abreast s) (Parse.atEnd >>= f) (Parse.atEnd >>= g) view' R := by
  refine cases_bind (Q := fun b => if b then fun _ _ => False else o.Abreast s) (.of_forall (fun _ => rfl)
    (fun _ => rfl) (fun _ => id) fun p q h => ⟨by simp [Parser.atEnd, h.current], ?_⟩) ht hf
  have hend : p.atEnd = false := by
    refine Parser.atEnd_eq_false rfl fun he => hs ?_
    rw [(h.eq_last he).1, o.level]
  rwa [hend]

/-! ### Taking tokens that have to stand here -/

/-- If the first parser stands at the token so does the other, and if not, something is wrong. -/
theorem expect_beside (hk : k ≠ .endOfFile) :
    Follows (o.Beside s) (Parse.expect k) (Parse.expect k) (fun _ => ()) fun _ => o.Beside (s.pass k) := by
  intro p q hp
  refine (after_expect k).2 ⟨fun he hc => ?_, fun _ _ => p.not_clean_complain _ _⟩
  have h := hp hc.of_advance
  have hq : q.current.kind = k := (h.abreast_of_ne (he.symm ▸ hk)).current.trans he
  exact ⟨hc.of_advance, q.current, q.advance, if_pos hq, rfl, h.advance he hk⟩

theorem mono {Q' : β → Parser → Parser → Prop} (h : Follows P x y view Q) (hQ : ∀ a p q, Q a p q → Q' a p q) :
    Follows P x y view Q' := by
  intro p q hp
  refine (h p q hp).mono (fun a p' hx hc => ?_) fun _ _ => id
  obtain ⟨hpc, b, q', hy, hv, hq⟩ := hx hc
  exact ⟨hpc, b, q', hy, hv, hQ a p' q' hq⟩

theorem expect (hk : k.isLexeme = true) :
    Follows (o.Abreast s) (Parse.expect k) (Parse.expect k) (fun _ => ()) fun _ => o.Abreast (s.pass k) := by
  have hne : k ≠ .endOfFile := fun he => by simp [he, TokenKind.isLexeme] at hk
  refine ((expect_beside hne).weaken fun _ _ => Outlook.Abreast.toBeside).mono fun _ _ _ h => h.abreast (.inl ?_)
  rw [s.pass_of_isLexeme hk]

/-- What closes a bracket or a list of parameters may follow a comma. -/
theorem expect_inside {blocks depth : Nat} (hk : k.isLexeme = true) :
    Follows (o.Inside blocks depth) (Parse.expect k) (Parse.expect k) (fun _ => ())
      fun _ => o.Abreast ⟨blocks, Layout.bracket depth k, true, k.canEndLine⟩ := by
  have hexpect (c : Bool) := expect (o := o) (s := ⟨blocks, depth, true, c⟩) hk
  simp only [Stance.pass_of_isLexeme _ hk] at hexpect
  intro p q hp
  by_cases hc : p.Clean
  · obtain ⟨c, h⟩ := hp hc
    exact hexpect c p q fun _ => h
  · exact hexpect true p q fun h => absurd h hc

theorem identifier : Follows (o.Abreast s) Parse.identifier Parse.identifier Prod.fst fun _ => o.Abreast s.ended := by
  intro p q hp
  refine after_identifier.2 ⟨fun name he hc => ?_, fun _ _ => p.not_clean_complain _ _⟩
  have h := hp hc.of_advance
  have hq : q.current.kind = .identifier name := h.current.trans he
  exact ⟨hc.of_advance, (name, q.current.span), q.advance, by simp [Parse.identifier, hq], rfl, h.advance he rfl⟩

/-- Both read the same name. -/
theorem identifier_bind {f g : String × Span → Parse γ} {R : γ → Parser → Parser → Prop}
    (h : ∀ name span span', Follows (o.Abreast s.ended) (f (name, span)) (g (name, span')) view' R) :
    Follows (o.Abreast s) (Parse.identifier >>= f) (Parse.identifier >>= g) view' R := by
  refine identifier.bind fun x y hname => ?_
  obtain ⟨name, span⟩ := x
  obtain ⟨name', span'⟩ := y
  obtain rfl : name' = name := hname
  exact h name' span span'

/-- A line does not end with the text : there would have been the end of the line first. -/
theorem lineEnd {n : Nat} : Follows (o.Abreast (Stance.between n).ended) Parse.lineEnd Parse.lineEnd id
    fun _ => o.Beside (.between n) := by
  intro p q hp
  refine after_lineEnd.2 ⟨fun he hc => ?_, fun _ he hc => ?_, fun _ _ _ => p.not_clean_complain _ _⟩
  · have h := hp hc.of_advance
    have hq : q.current.kind = .newline := h.current.trans he
    exact ⟨hc.of_advance, (), q.advance, if_pos hq, rfl, h.toBeside.advance he (by simp)⟩
  · have hlast := ((hp hc).eq_last (by simpa [Parser.atEnd] using he)).1
    have hquiet := o.quiet
    rw [← hlast] at hquiet
    exact absurd rfl (hquiet rfl)

/-- Where the first script ends, nothing can be said unless `x` has complaints there. -/
theorem of_abreast (h : Follows (o.Abreast s) x y view Q)
    (hend : ∀ p, p.atEnd = true → After x p (fun _ p' => ¬p'.Clean) fun e p' => e = .rejected → ¬p'.Clean) :
    Follows (o.Beside s) x y view Q := by
  intro p q hp
  by_cases hc : p.Clean ∧ p.atEnd = true
  · exact (hend p hc.2).mono (fun _ _ hn hc' => absurd hc' hn) fun _ _ => id
  · refine h p q fun hc' => (hp hc').abreast_of_ne fun he => hc ⟨hc', ?_⟩
    simp [Parser.atEnd, he]

/-! ### Bodies -/

theorem resolve (name : String) :
    Follows (o.Abreast s) (Parse.resolve name) (Parse.resolve name) id fun _ => o.Abreast s :=
  .of_forall (fun _ => rfl) (fun _ => rfl) (fun _ => id) fun _ _ h =>
    ⟨by rw [h.body.scopeOf], h.refer name⟩

theorem resolve_at (name : String) :
    Follows (o.At k s) (Parse.resolve name) (Parse.resolve name) id fun _ => o.At k s :=
  .of_forall (fun _ => rfl) (fun _ => rfl) (fun _ => id) fun _ _ h =>
    ⟨by rw [h.body.scopeOf], h.toAbreast.refer name, h.kind⟩

theorem body : Follows (o.Abreast s) Parse.body Parse.body (fun b => (b.isFunction, b.loopDepth))
    fun b p q => o.Abreast s p q ∧ p.body = b :=
  .of_forall (fun _ => rfl) (fun _ => rfl) (fun _ => id) fun _ _ h =>
    ⟨Prod.ext h.body.isFunction h.body.loopDepth, h, rfl⟩

/-- What is said of the body at hand stays true while a reader leaves the body alone. -/
theorem frame (h : Follows P x y view Q) (B : Body → Prop)
    (hx : ∀ p, After x p (fun _ p' => p'.body = p.body) fun _ _ => True) :
    Follows (fun p q => P p q ∧ B p.body) x y view fun a p q => Q a p q ∧ B p.body := by
  intro p q hp
  refine ((h p q fun hc => (hp hc).1).and (hx p)).mono ?_ fun _ _ => And.left
  rintro a p' ⟨hy, hb⟩ hc
  obtain ⟨hpc, b, q', hy, hv, hQ⟩ := hy hc
  exact ⟨hpc, b, q', hy, hv, hQ, hb ▸ (hp hpc).2⟩

/-- Inside a function the names in use are the same, so both object to a declaration or none does. -/
theorem declare (name : String) (scope : Scope) (t t' : Token) :
    Follows (fun p q => o.Abreast s p q ∧ p.body.isFunction = true) (Parse.declare name scope t)
      (Parse.declare name scope t') id fun _ p q => o.Abreast s p q ∧ p.body.isFunction = true := by
  intro p q hp
  refine (after_declare name scope t).2 ⟨fun ho hc => ?_, fun _ _ _ => p.not_clean_complain _ _⟩
  obtain ⟨h, hf⟩ := hp hc
  have ho' := (h.body.objection? hf name scope).trans ho
  exact ⟨hc, (), { q with body := q.body.declare name scope }, by simp [Parse.declare, ho'], rfl,
    ⟨⟨h.ahead, h.clean, h.body.declare name scope, h.enclosing⟩, h.current⟩, hf⟩

theorem inFunction {R : Parser → Parser → Prop} (params : List String) (h : Follows P x y view fun _ => R)
    (hP : ∀ {p q}, P p q → P (p.enterFunction params) (q.enterFunction params))
    (hR : ∀ {p q}, R p q → R p.leaveFunction q.leaveFunction) :
    Follows P (Parse.inFunction params x) (Parse.inFunction params y) view fun _ => R := by
  intro p q hp
  refine (after_inFunction params x).2 ((h _ (q.enterFunction params) fun hc => hP (hp hc)).mono ?_ ?_)
  · intro a p' hx hc
    obtain ⟨hpc, b, q', hy, hv, hq⟩ := hx (p'.clean_leaveFunction.1 hc)
    exact ⟨hpc, b, q'.leaveFunction, by simp [Parse.inFunction, hy], hv, hR hq⟩
  · exact fun e p' he hr => mt p'.clean_leaveFunction.1 (he hr)

theorem inLoop {s' : Stance} (h : Follows (o.Abreast s) x y view fun _ => o.Beside s') :
    Follows (o.Abreast s) (Parse.inLoop x) (Parse.inLoop y) view fun _ => o.Beside s' := by
  intro p q hp
  have hloop (hc : p.Clean) : o.Abreast s p.enterLoop q.enterLoop := ⟨(hp hc).enterLoop, (hp hc).current⟩
  refine (after_inLoop x).2 ((h p.enterLoop q.enterLoop hloop).mono (fun a p' hx hc => ?_) fun _ _ => id)
  obtain ⟨hpc, b, q', hy, hv, hq⟩ := hx hc
  exact ⟨hpc, b, q'.leaveLoop, by simp [Parse.inLoop, hy], hv, hq.leaveLoop⟩

/-- Behind a rejected statement the first parser is not clean. -/
theorem recovering {x y : Parse (Option (Stmt Span))} {view : Option (Stmt Span) → ν}
    {Q : Option (Stmt Span) → Parser → Parser → Prop} (h : Follows P x y view Q) :
    Follows P (Parse.recovering x) (Parse.recovering y) view Q := by
  intro p q hp
  refine (after_recovering x).2 ((h p q hp).mono (fun a p' hx hc => ?_) fun e p' hx => ?_)
  · obtain ⟨hpc, b, q', hy, hv, hq⟩ := hx hc
    exact ⟨hpc, b, q', by simp [Parse.recovering, hy], hv, hq⟩
  · cases e with
    | rejected => exact fun hc => absurd hc.of_recover (hx rfl)
    | outOfFuel => exact hx

end Follows

end Parse

end DocScript
