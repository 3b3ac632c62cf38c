import DocScript.Proofs.BadStatements
import DocScript.Proofs.Grammar.Records
import DocScript.Proofs.Token.Lines

/-!
# Diagnostics account for everything

A diagnostic is recorded for each error token, when the parser passes it, and for each statement that
is rejected. So the diagnostics of a parser together with the error tokens in front of it are, at every
time, the error tokens of the script and the statements rejected so far; while a rejected statement is
given up, there is one more (`Parser.Settles`, `Parser.Owes`).

A rejected statement leaves a `bad` one in the program, unless the statement around it is rejected too,
and then that one leaves a `bad` statement. `Parse.Accounts` carries both facts through the readers,
with the number of `bad` statements in what was read so far.
-/

namespace DocScript

/-! ## Error tokens -/

/-- How many of the tokens could not be read. -/
def errorCount (ts : List Token) : Nat := ts.countP fun t => t.kind.isError

theorem errorCount_cons (t : Token) (ts : List Token) :
    errorCount (t :: ts) = (if t.kind.isError then 1 else 0) + errorCount ts := by
  simp [errorCount, List.countP_cons, Nat.add_comm]

theorem Source.isSome_scanError? (s : Source) (t : Token) :
    (s.scanError? t).isSome = t.kind.isError := by
  unfold scanError? TokenKind.isError
  split <;> simp_all

/-- Each error token in front of the next token becomes one diagnostic. -/
theorem total_nextToken (source : Source) (last : Token) :
    ∀ (ts : List Token) (ds : Diagnostics),
      (nextToken source last ts ds).2.2.total + errorCount (nextToken source last ts ds).2.1 =
        ds.total + errorCount ts
  | [], _ => rfl
  | t :: ts, ds => by
    have hs := source.isSome_scanError? t
    rw [nextToken, errorCount_cons]
    cases h : source.scanError? t with
    | some d =>
      rw [h, Option.isSome_some] at hs
      have ih := total_nextToken source last ts (ds.push d)
      have hd : (ds.push d).total = ds.total + 1 := rfl
      simp only [← hs, if_true]
      omega
    | none =>
      rw [h, Option.isSome_none] at hs
      simp [← hs]

/-- What the next token leaves is a part of the stream. -/
theorem nextToken_suffix (source : Source) (last : Token) : ∀ (ts : List Token) (ds : Diagnostics),
    (nextToken source last ts ds).2.1 = [] ∨
      (nextToken source last ts ds).1 :: (nextToken source last ts ds).2.1 <:+ ts
  | [], _ => .inl rfl
  | t :: ts, ds => by
    rw [nextToken]
    split
    · exact (nextToken_suffix source last ts _).imp_right fun h => h.trans (List.suffix_cons t ts)
    · exact .inr (List.suffix_refl _)

/-- Nothing is stored exactly if nothing was counted. -/
def Diagnostics.Sound (ds : Diagnostics) : Prop := ds.stored = [] ↔ ds.total = 0

theorem Diagnostics.sound_push (ds : Diagnostics) (d : Diagnostic) : (ds.push d).Sound :=
  iff_of_false (ds.stored_push_ne_nil d) (Nat.succ_ne_zero ds.total)

theorem sound_nextToken (source : Source) (last : Token) : ∀ (ts : List Token) {ds : Diagnostics},
    ds.Sound → (nextToken source last ts ds).2.2.Sound
  | [], _, h => h
  | t :: ts, ds, h => by
    rw [nextToken]
    split
    · next d _ => exact sound_nextToken source last ts (ds.sound_push d)
    · exact h

theorem Diagnostics.total_foldl_push (l : List Diagnostic) (ds : Diagnostics) :
    (l.foldl push ds).total = ds.total + l.length := by
  induction l generalizing ds with
  | nil => rfl
  | cons d l ih =>
    rw [List.foldl_cons, ih]
    simp only [push, List.length_cons]
    omega

/-- Each error token of a script is one diagnostic of its scanner. -/
theorem Source.total_scanErrors (s : Source) : s.scanErrors.total = errorCount s.tokens := by
  rw [scanErrors, Diagnostics.total_foldl_push, List.length_filterMap_eq_countP, errorCount]
  simp [Diagnostics.empty, s.isSome_scanError?]

/-! ## Parsers -/

namespace Parser

/-- The diagnostics that were recorded or will be when the tokens in front are passed. -/
def due (p : Parser) : Nat := p.errors.total + errorCount p.upcoming

theorem due_advance (p : Parser) : p.advance.due = p.due :=
  total_nextToken p.source p.current p.upcoming p.errors

/-- Nothing follows the end of the text, and the diagnostics that are stored are the first ones of
those that are counted. -/
structure Tidy (p : Parser) : Prop where
  ended : (p.current :: p.upcoming).Pairwise fun t _ => t.kind ≠ .endOfFile
  sound : p.errors.Sound

theorem Tidy.advance {p : Parser} (h : p.Tidy) : p.advance.Tidy := by
  refine ⟨?_, sound_nextToken p.source p.current p.upcoming h.sound⟩
  rcases nextToken_suffix p.source p.current p.upcoming p.errors with hn | hs
  · have hn' : p.advance.upcoming = [] := hn
    rw [hn']
    exact List.pairwise_singleton ..
  · exact (List.pairwise_cons.1 h.ended).2.sublist hs.sublist

/-- Everything that is due at the end of the text is recorded. -/
theorem Tidy.due {p : Parser} (h : p.Tidy) (he : p.atEnd = true) : p.due = p.errors.total := by
  have hk : p.current.kind = .endOfFile := by simpa [atEnd] using he
  have hn : p.upcoming = [] :=
    List.eq_nil_iff_forall_not_mem.2 fun u hu => (List.pairwise_cons.1 h.ended).1 u hu hk
  simp [Parser.due, hn, errorCount]

/-- From `p` to `q` each rejected statement has its diagnostic, and `bads` of them are left as `bad`
statements : one at least if any was rejected. -/
structure Settles (p q : Parser) (bads : Nat) : Prop where
  tidy : p.Tidy → q.Tidy
  due : q.due + p.rejected = p.due + q.rejected
  le : p.rejected + bads ≤ q.rejected
  pos : p.rejected < q.rejected → 0 < bads

/-- From `p` to `q` there is one diagnostic more than statements that were rejected. -/
structure Owes (p q : Parser) : Prop where
  tidy : p.Tidy → q.Tidy
  due : q.due + p.rejected = p.due + q.rejected + 1
  le : p.rejected ≤ q.rejected

/-- `p` and `q` have the same diagnostics and rejected statements. -/
structure Even (p q : Parser) : Prop where
  tidy : p.Tidy → q.Tidy
  due : q.due = p.due
  rejected : q.rejected = p.rejected

variable {p q r : Parser} {i j : Nat}

theorem Even.refl : p.Even p := ⟨id, rfl, rfl⟩

theorem Even.trans (h : p.Even q) (h' : q.Even r) : p.Even r :=
  ⟨h'.tidy ∘ h.tidy, h'.due.trans h.due, h'.rejected.trans h.rejected⟩

/-- Bodies do not matter. -/
theorem Even.of_eq {body : Body} {enclosing : List Body} (h : q = { p with body, enclosing }) : p.Even q := by
  subst h
  exact ⟨fun ht => ⟨ht.ended, ht.sound⟩, rfl, rfl⟩

theorem even_advance (p : Parser) : p.Even p.advance := ⟨Tidy.advance, p.due_advance, rfl⟩

theorem even_leaveFunction (p : Parser) : p.Even p.leaveFunction := by
  unfold leaveFunction
  split
  · exact .of_eq rfl
  · exact .refl

theorem even_synchronizeWithin : ∀ (n : Nat) (p : Parser), p.Even (synchronizeWithin n p)
  | 0, p => .refl
  | n + 1, p => by
    rw [synchronizeWithin]
    split
    · exact .refl
    · exact p.even_advance.trans (even_synchronizeWithin n p.advance)

theorem Settles.of_even (h : p.Even q) : p.Settles q 0 where
  tidy := h.tidy
  due := by rw [h.due, h.rejected]
  le := by rw [h.rejected]; exact Nat.le_refl _
  pos hlt := by rw [h.rejected] at hlt; exact absurd hlt (Nat.lt_irrefl _)

theorem Settles.trans (h : p.Settles q i) (h' : q.Settles r j) : p.Settles r (i + j) where
  tidy := h'.tidy ∘ h.tidy
  due := by have := h.due; have := h'.due; omega
  le := by have := h.le; have := h'.le; omega
  pos hlt := by
    rcases Nat.lt_or_ge p.rejected q.rejected with hq | hq
    · have := h.pos hq
      omega
    · have := h'.pos (by omega)
      omega

theorem Settles.owes (h : p.Settles q i) (h' : q.Owes r) : p.Owes r where
  tidy := h'.tidy ∘ h.tidy
  due := by have := h.due; have := h'.due; omega
  le := by have := h.le; have := h'.le; omega

/-- A problem is one diagnostic. -/
theorem owes_complain (p : Parser) (t : Token) (problem : Problem) : p.Owes (p.complain t problem) where
  tidy h := ⟨h.ended, p.errors.sound_push _⟩
  due := by simp only [Parser.due, complain, Diagnostics.push]; omega
  le := Nat.le_refl _

theorem Owes.of_even (h : p.Owes q) (h' : q.Even r) : p.Owes r where
  tidy := h'.tidy ∘ h.tidy
  due := by rw [h'.due, h'.rejected, h.due]
  le := by rw [h'.rejected]; exact h.le

/-- Recovery books the diagnostic on the rejected statement, for which a `bad` one is left. -/
theorem Owes.recover (h : p.Owes q) : p.Settles (p.recover q) 1 := by
  have hs : Parser.Settles p { q with rejected := q.rejected + 1 } 1 := by
    have hd := h.due
    have hl := h.le
    refine ⟨fun ht => ⟨(h.tidy ht).ended, (h.tidy ht).sound⟩, ?_, Nat.succ_le_succ hl, fun _ => Nat.one_pos⟩
    simp only [Parser.due] at hd ⊢
    omega
  have even : ∀ r : Parser, Parser.Even { q with rejected := q.rejected + 1 } r →
      p.Settles r.synchronize 1 := fun r hr =>
    hs.trans (.of_even (hr.trans (even_synchronizeWithin _ r)))
  simp only [Parser.recover]
  split
  · exact even _ (even_advance _)
  · exact even _ .refl

end Parser

/-! ## Basic readers -/

namespace Parse

open DocScript.Parser

variable {β γ : Type}

/-- With `k` `bad` statements in what was read before, `x` gives something with which there are
`bads`. Each statement that it rejects on the way has its diagnostic, and if `x` itself is rejected
there is one diagnostic for that. -/
def Accounts (x : Parse β) (k : Nat) (bads : β → Nat) : Prop :=
  ∀ p : Parser, After x p (fun a q => ∃ i, bads a = k + i ∧ p.Settles q i)
    (fun e q => e = .rejected → p.Owes q)

namespace Accounts

variable {x : Parse β} {f : β → Parse γ} {k : Nat} {g : β → Nat} {h : γ → Nat}

theorem pure {a : β} (ha : k = g a) : (Pure.pure a : Parse β).Accounts k g :=
  fun _ => ⟨0, ha.symm, .of_even .refl⟩

theorem bind (hx : x.Accounts k g) (hf : ∀ a, (f a).Accounts (g a) h) :
    (x >>= f).Accounts k h := by
  intro p
  refine (hx p).bind fun a q hq => ?_
  obtain ⟨i, hi, hs⟩ := hq
  refine (hf a q).mono (fun c r hr => ?_) fun e r hr he => hs.owes (hr he)
  obtain ⟨j, hj, hs'⟩ := hr
  exact ⟨i + j, by omega, hs.trans hs'⟩

theorem of_eq {j : Nat} (hx : x.Accounts k g) (he : j = k) : x.Accounts j g := he ▸ hx

theorem outOfFuel : (Parse.outOfFuel : Parse β).Accounts k g :=
  fun _ he => nomatch he

/-- A step that records nothing and rejects nothing. -/
theorem of_even (hx : ∀ p, After x p (fun _ q => p.Even q) (fun e q => e = .rejected → p.Owes q)) :
    x.Accounts k fun _ => k :=
  fun p => (hx p).mono (fun _ _ hq => ⟨0, rfl, .of_even hq⟩) fun _ _ => id

theorem rejectAt_bind (t : Token) (problem : Problem) :
    (Parse.rejectAt t problem >>= f).Accounts k h :=
  fun p _ => p.owes_complain t problem

theorem reject_bind (problem : Problem) : (Parse.reject problem >>= f).Accounts k h :=
  fun p _ => p.owes_complain _ problem

theorem rejectPrevious_bind (problem : Problem) : (Parse.rejectPrevious problem >>= f).Accounts k h :=
  fun p _ => p.owes_complain _ problem

theorem reject (problem : Problem) : (Parse.reject problem : Parse β).Accounts k g :=
  fun p _ => p.owes_complain _ problem

theorem peek : Parse.peek.Accounts k fun _ => k := .of_even fun _ => .refl

theorem peekKind : Parse.peekKind.Accounts k fun _ => k := .of_even fun _ => .refl

theorem previous : Parse.previous.Accounts k fun _ => k := .of_even fun _ => .refl

theorem at? (kind : TokenKind) : (Parse.at? kind).Accounts k fun _ => k := .of_even fun _ => .refl

theorem atEnd : Parse.atEnd.Accounts k fun _ => k := .of_even fun _ => .refl

theorem body : Parse.body.Accounts k fun _ => k := .of_even fun _ => .refl

theorem resolve (name : String) : (Parse.resolve name).Accounts k fun _ => k :=
  .of_even fun _ => .of_eq rfl

theorem advance : Parse.advance.Accounts k fun _ => k := .of_even even_advance

theorem eat (kind : TokenKind) : (Parse.eat kind).Accounts k fun _ => k :=
  .of_even fun p => (after_eat kind).2 ⟨fun _ => p.even_advance, fun _ => .refl⟩

theorem expect (kind : TokenKind) : (Parse.expect kind).Accounts k fun _ => k :=
  .of_even fun p => (after_expect kind).2 ⟨fun _ => p.even_advance, fun _ _ => p.owes_complain _ _⟩

theorem identifier : Parse.identifier.Accounts k fun _ => k :=
  .of_even fun p => after_identifier.2
    ⟨fun _ _ => p.even_advance, fun _ _ => p.owes_complain _ _⟩

theorem lineEnd : Parse.lineEnd.Accounts k fun _ => k :=
  .of_even fun p => after_lineEnd.2
    ⟨fun _ => p.even_advance, fun _ _ => .refl, fun _ _ _ => p.owes_complain _ _⟩

theorem declare (name : String) (scope : Scope) (t : Token) :
    (Parse.declare name scope t).Accounts k fun _ => k :=
  .of_even fun p => (after_declare name scope t).2
    ⟨fun _ => .of_eq rfl, fun _ _ _ => p.owes_complain _ _⟩

theorem inFunction (params : List String) (hx : x.Accounts k g) :
    (Parse.inFunction params x).Accounts k g := by
  intro p
  have start : p.Even (p.enterFunction params) := .of_eq rfl
  refine (after_inFunction params x).2 ((hx _).mono (fun a q hq => ?_) fun e q hq he => ?_)
  · obtain ⟨i, hi, hs⟩ := hq
    have hp := (Settles.of_even start).trans (hs.trans (.of_even q.even_leaveFunction))
    exact ⟨i, hi, by simpa using hp⟩
  · exact (Settles.of_even start).owes ((hq he).of_even q.even_leaveFunction)

theorem inLoop (hx : x.Accounts k g) : (Parse.inLoop x).Accounts k g := by
  intro p
  have start : p.Even p.enterLoop := .of_eq rfl
  have leave (q : Parser) : q.Even q.leaveLoop := .of_eq rfl
  refine (after_inLoop x).2 ((hx _).mono (fun a q hq => ?_) fun e q hq he => ?_)
  · obtain ⟨i, hi, hs⟩ := hq
    have hp := (Settles.of_even start).trans (hs.trans (.of_even (leave q)))
    exact ⟨i, hi, by simpa using hp⟩
  · exact (Settles.of_even start).owes ((hq he).of_even (leave q))

/-- A rejected statement is made up for by a `bad` one. -/
theorem recovering {x : Parse (Option (Stmt Span))}
    (hx : x.Accounts k fun s => k + badsOfStmts s.toList) :
    (Parse.recovering x).Accounts k fun s => k + badsOfStmts s.toList := by
  intro p
  refine (after_recovering x).2 ((hx p).mono (fun _ _ => id) fun e q hq => ?_)
  cases e with
  | rejected => exact ⟨1, by simp, (hq rfl).recover⟩
  | outOfFuel => exact hq

end Accounts

/-! ## Expressions -/

theorem params_accounts {k : Nat} (close : TokenKind) :
    ∀ n, (params close n).Accounts k fun _ => k
  | 0 => .outOfFuel
  | n + 1 => by
    rw [params]
    refine (Accounts.at? close).bind fun _ => ?_
    split
    · exact .pure rfl
    · refine Accounts.identifier.bind fun _ => (Accounts.eat _).bind fun _ => ?_
      split
      · exact (params_accounts close n).bind fun _ => .pure rfl
      · exact .pure rfl

theorem nameKey_accounts {k : Nat} : nameKey.Accounts k fun e => k + e.bads :=
  Accounts.identifier.bind fun _ => .pure (by simp)

mutual

theorem expression_accounts : ∀ n k, (expression n).Accounts k fun e => k + e.bads
  | 0, _ => .outOfFuel
  | n + 1, k => operation_accounts n 0 k

theorem operation_accounts : ∀ n min k, (operation n min).Accounts k fun e => k + e.bads
  | 0, _, _ => .outOfFuel
  | n + 1, min, k => by
    rw [operation]
    exact (unary_accounts n k).bind fun left => operators_accounts n min left k

theorem operators_accounts : ∀ n min (left : Expr Span) k,
    (operators n min left).Accounts (k + left.bads) fun e => k + e.bads
  | 0, _, _, _ => .outOfFuel
  | n + 1, min, left, k => by
    rw [operators]
    refine Accounts.peekKind.bind fun _ => ?_
    split
    · exact .pure rfl
    · split
      · exact .pure rfl
      · refine Accounts.advance.bind fun _ => (operation_accounts n _ _).bind fun right => ?_
        exact (operators_accounts n min _ k).of_eq (by simp [Nat.add_assoc])

theorem unary_accounts : ∀ n k, (unary n).Accounts k fun e => k + e.bads
  | 0, _ => .outOfFuel
  | n + 1, k => by
    rw [unary]
    refine Accounts.peek.bind fun t => ?_
    split
    · exact Accounts.advance.bind fun _ => (unary_accounts n k).bind fun e => .pure (by simp)
    · split
      · exact lambda_accounts n k
      · exact (primary_accounts n k).bind fun e => postfixes_accounts n e k

theorem lambda_accounts : ∀ n k, (lambda n).Accounts k fun e => k + e.bads
  | 0, _ => .outOfFuel
  | n + 1, k => by
    rw [lambda]
    refine Accounts.advance.bind fun start => (params_accounts _ n).bind fun ps => ?_
    refine (Accounts.expect _).bind fun _ => ?_
    refine (Accounts.inFunction ps (expression_accounts n k)).bind fun e => ?_
    exact .pure (by simp [lambdaOf])

theorem postfixes_accounts : ∀ n (e : Expr Span) k,
    (postfixes n e).Accounts (k + e.bads) fun e => k + e.bads
  | 0, _, _ => .outOfFuel
  | n + 1, e, k => by
    rw [postfixes]
    refine Accounts.peekKind.bind fun _ => ?_
    split
    · refine Accounts.advance.bind fun _ => (commaList_accounts _ n _).bind fun as => ?_
      refine (Accounts.expect _).bind fun _ => ?_
      exact (postfixes_accounts n _ k).of_eq (by simp [Nat.add_assoc])
    · refine Accounts.advance.bind fun _ => (expression_accounts n _).bind fun i => ?_
      refine (Accounts.expect _).bind fun _ => ?_
      exact (postfixes_accounts n _ k).of_eq (by simp [Nat.add_assoc])
    · refine Accounts.advance.bind fun _ => nameKey_accounts.bind fun i => ?_
      exact (postfixes_accounts n _ k).of_eq (by simp [Nat.add_assoc])
    · refine Accounts.advance.bind fun _ => (arrowKey_accounts n _).bind fun i => ?_
      refine Accounts.previous.bind fun _ => ?_
      exact (postfixes_accounts n _ k).of_eq (by simp [Nat.add_assoc])
    · refine (dictBody_accounts n _).bind fun es => ?_
      exact (postfixes_accounts n _ k).of_eq (by simp [Nat.add_assoc])
    · exact .pure rfl

theorem arrowKey_accounts : ∀ n k, (arrowKey n).Accounts k fun e => k + e.bads
  | 0, _ => .outOfFuel
  | n + 1, k => by
    rw [arrowKey]
    refine (Accounts.eat _).bind fun _ => ?_
    split
    · refine (expression_accounts n k).bind fun i => ?_
      exact (Accounts.expect _).bind fun _ => .pure rfl
    · exact nameKey_accounts

theorem primary_accounts : ∀ n k, (primary n).Accounts k fun e => k + e.bads
  | 0, _ => .outOfFuel
  | n + 1, k => by
    rw [primary]
    refine Accounts.peek.bind fun t => ?_
    split
    · exact Accounts.advance.bind fun _ => .pure (by simp)
    · exact Accounts.advance.bind fun _ => .pure (by simp)
    · exact Accounts.advance.bind fun _ => .pure (by simp)
    · exact Accounts.advance.bind fun _ => .pure (by simp)
    · exact Accounts.advance.bind fun _ => .pure (by simp)
    · exact (Accounts.resolve _).bind fun _ => Accounts.advance.bind fun _ => .pure (by simp)
    · refine Accounts.advance.bind fun _ => (expression_accounts n k).bind fun e => ?_
      exact (Accounts.expect _).bind fun _ => .pure (by simp)
    · refine Accounts.advance.bind fun _ => (commaList_accounts _ n k).bind fun is => ?_
      exact (Accounts.expect _).bind fun _ => .pure (by simp)
    · exact (dictBody_accounts n k).bind fun es => .pure (by simp)
    · exact .reject _

theorem commaList_accounts (close : TokenKind) :
    ∀ n k, (commaList close n).Accounts k fun es => k + badsOfExprs es
  | 0, _ => .outOfFuel
  | n + 1, k => by
    rw [commaList]
    refine (Accounts.at? close).bind fun _ => ?_
    split
    · exact .pure (by simp)
    · refine (expression_accounts n k).bind fun e => (Accounts.eat _).bind fun _ => ?_
      split
      · exact (commaList_accounts close n _).bind fun es => .pure (by simp [Nat.add_assoc])
      · exact .pure (by simp)

theorem dictBody_accounts : ∀ n k, (dictBody n).Accounts k fun es => k + badsOfEntries es.1
  | 0, _ => .outOfFuel
  | n + 1, k => by
    rw [dictBody]
    refine (Accounts.expect _).bind fun _ => (dictEntries_accounts n k).bind fun es => ?_
    exact (Accounts.expect _).bind fun _ => .pure rfl

theorem dictEntries_accounts : ∀ n k, (dictEntries n).Accounts k fun es => k + badsOfEntries es
  | 0, _ => .outOfFuel
  | n + 1, k => by
    rw [dictEntries]
    refine (Accounts.at? _).bind fun _ => ?_
    split
    · exact .pure (by simp)
    · refine (dictKey_accounts n k).bind fun i => (Accounts.expect _).bind fun _ => ?_
      refine (expression_accounts n _).bind fun v => (Accounts.eat _).bind fun _ => ?_
      split
      · exact (dictEntries_accounts n _).bind fun es => .pure (by simp [Nat.add_assoc])
      · exact .pure (by simp [Nat.add_assoc])

theorem dictKey_accounts : ∀ n k, (dictKey n).Accounts k fun e => k + e.bads
  | 0, _ => .outOfFuel
  | n + 1, k => by
    rw [dictKey]
    refine Accounts.peek.bind fun t => ?_
    split
    · refine Accounts.advance.bind fun _ => (Accounts.at? _).bind fun _ => ?_
      split
      · exact .pure (by simp)
      · refine (Accounts.resolve _).bind fun v => ?_
        refine ((postfixes_accounts n (.var t.span v) k).of_eq (by simp)).bind fun e => ?_
        exact operators_accounts n 0 e k
    · exact expression_accounts n k

end

theorem expressions_accounts : ∀ n k, (expressions n).Accounts k fun es => k + badsOfExprs es
  | 0, _ => .outOfFuel
  | n + 1, k => by
    rw [expressions]
    refine (expression_accounts n k).bind fun e => (Accounts.eat _).bind fun _ => ?_
    split
    · exact (expressions_accounts n _).bind fun es => .pure (by simp [Nat.add_assoc])
    · exact .pure (by simp)

/-! ## Statements -/

theorem loopVariables_accounts {k : Nat} : ∀ n, (loopVariables n).Accounts k fun _ => k
  | 0 => .outOfFuel
  | n + 1 => by
    rw [loopVariables]
    refine Accounts.identifier.bind fun _ => (Accounts.resolve _).bind fun _ => ?_
    refine (Accounts.eat _).bind fun _ => ?_
    split
    · exact (loopVariables_accounts n).bind fun _ => .pure rfl
    · exact .pure rfl

theorem declaredNames_accounts {k : Nat} (scope : Scope) :
    ∀ n, (declaredNames scope n).Accounts k fun _ => k
  | 0 => .outOfFuel
  | n + 1 => by
    rw [declaredNames]
    refine Accounts.peek.bind fun t => Accounts.identifier.bind fun _ => ?_
    refine (Accounts.declare _ scope t).bind fun _ => (Accounts.eat _).bind fun _ => ?_
    split
    · exact (declaredNames_accounts scope n).bind fun _ => .pure rfl
    · exact .pure rfl

theorem decorators_accounts : ∀ n k, (decorators n).Accounts k fun ds => k + badsOfExprs ds
  | 0, _ => .outOfFuel
  | n + 1, k => by
    rw [decorators]
    refine (Accounts.eat _).bind fun _ => ?_
    split
    · refine (expression_accounts n k).bind fun d => (Accounts.expect _).bind fun _ => ?_
      exact (decorators_accounts n _).bind fun ds => .pure (by simp [Nat.add_assoc])
    · exact .pure (by simp)

theorem handlerBinding_accounts {k : Nat} : handlerBinding.Accounts k fun _ => k := by
  rw [handlerBinding]
  refine (Accounts.eat _).bind fun _ => ?_
  split
  · exact Accounts.identifier.bind fun _ => (Accounts.resolve _).bind fun _ => .pure rfl
  · exact .pure rfl

section

variable {k : Nat}

theorem raiseStmt_accounts (n : Nat) : (raiseStmt n).Accounts k fun s => k + s.bads :=
  Accounts.advance.bind fun _ => (expression_accounts n k).bind fun _ =>
    Accounts.lineEnd.bind fun _ => .pure (by simp)

theorem returnStmt_accounts (n : Nat) : (returnStmt n).Accounts k fun s => k + s.bads := by
  refine Accounts.advance.bind fun _ => Accounts.body.bind fun _ => ?_
  split
  · exact .rejectPrevious_bind _
  · refine (Accounts.at? _).bind fun _ => Accounts.atEnd.bind fun _ => ?_
    split
    · refine (Accounts.pure (g := fun vs => k + badsOfExprs vs) (by simp)).bind fun vs => ?_
      exact Accounts.lineEnd.bind fun _ => .pure (by simp)
    · refine (expressions_accounts n k).bind fun vs => ?_
      exact Accounts.lineEnd.bind fun _ => .pure (by simp)

theorem loopControl_accounts (w : Keyword) {stmt : Span → Stmt Span} (h : ∀ a, (stmt a).bads = 0) :
    (loopControl w stmt).Accounts k fun s => k + s.bads := by
  refine Accounts.advance.bind fun t => Accounts.body.bind fun _ => ?_
  split
  · exact .rejectPrevious_bind _
  · exact Accounts.lineEnd.bind fun _ => .pure (by simp [h])

theorem declaration_accounts (scope : Scope) (n : Nat) :
    (declaration scope n).Accounts k fun s => k + s.bads := by
  refine Accounts.advance.bind fun _ => Accounts.body.bind fun _ => ?_
  split
  · exact .rejectPrevious_bind _
  · refine (declaredNames_accounts scope n).bind fun _ => ?_
    exact Accounts.lineEnd.bind fun _ => .pure (by simp)

theorem assignment_accounts (n : Nat) (first : Expr Span) :
    (assignment n first).Accounts (k + first.bads) fun s => k + s.bads := by
  have rest : ∀ more : List (Expr Span),
      (do
        let eq ← expect (.symbol .eq)
        if (first :: more).any (!·.isTarget) then rejectAt eq .invalidTarget
        let values ← expressions n
        lineEnd
        return .assign (spanOver eq.span (values ++ (first :: more))) (first :: more) values :
          Parse (Stmt Span)).Accounts (k + badsOfExprs (first :: more)) fun s => k + s.bads := by
    intro more
    refine (Accounts.expect _).bind fun eq => ?_
    dsimp only
    split
    · exact .rejectAt_bind eq _
    · refine (expressions_accounts n _).bind fun vs => Accounts.lineEnd.bind fun _ => ?_
      exact .pure (by simp [Nat.add_assoc])
  refine (Accounts.eat _).bind fun _ => ?_
  dsimp only
  split
  · exact (expressions_accounts n _).bind fun more => (rest more).of_eq (by simp [Nat.add_assoc])
  · exact (rest []).of_eq (by simp)

theorem exprStmt_accounts (n : Nat) : (exprStmt n).Accounts k fun s => k + s.bads := by
  refine (expression_accounts n k).bind fun e => ?_
  refine (Accounts.at? _).bind fun _ => (Accounts.at? _).bind fun _ => ?_
  split
  · exact assignment_accounts n e
  · exact Accounts.lineEnd.bind fun _ => .pure (by simp)

end

mutual

theorem statement_accounts : ∀ n k, (statement n).Accounts k fun s => k + s.bads
  | 0, _ => .outOfFuel
  | n + 1, k => by
    rw [statement]
    refine Accounts.peekKind.bind fun _ => ?_
    split
    · exact ifStmt_accounts n k
    · exact whileStmt_accounts n k
    · exact forStmt_accounts n k
    · exact (definition_accounts n [] k).of_eq (by simp)
    · exact decorated_accounts n k
    · exact tryStmt_accounts n k
    · exact raiseStmt_accounts n
    · exact returnStmt_accounts n
    · exact loopControl_accounts _ fun _ => by simp
    · exact loopControl_accounts _ fun _ => by simp
    · exact declaration_accounts _ n
    · exact declaration_accounts _ n
    · exact declaration_accounts _ n
    · exact .reject _
    · exact exprStmt_accounts n

theorem block_accounts : ∀ n k, (block n).Accounts k fun b => k + b.bads
  | 0, _ => .outOfFuel
  | n + 1, k => by
    rw [block]
    refine (Accounts.expect _).bind fun _ => (Accounts.expect _).bind fun _ => ?_
    refine (Accounts.eat _).bind fun _ => ?_
    dsimp only
    split
    · exact .reject_bind _
    · refine (blockStmts_accounts n k).bind fun ss => Accounts.peek.bind fun _ => ?_
      exact (Accounts.eat _).bind fun _ => .pure (by simp)

theorem blockStmts_accounts : ∀ n k, (blockStmts n).Accounts k fun ss => k + badsOfStmts ss
  | 0, _ => .outOfFuel
  | n + 1, k => by
    rw [blockStmts]
    refine (Accounts.at? _).bind fun _ => Accounts.atEnd.bind fun _ => ?_
    split
    · exact .pure (by simp)
    · refine (Accounts.eat _).bind fun _ => ?_
      split
      · exact blockStmts_accounts n k
      · refine (item_accounts n k).bind fun s => (blockStmts_accounts n _).bind fun ss => ?_
        exact .pure (by simp [Nat.add_assoc])

theorem item_accounts : ∀ n k, (item n).Accounts k fun s => k + badsOfStmts s.toList
  | 0, _ => .outOfFuel
  | n + 1, k => by
    rw [item]
    refine .recovering ((Accounts.eat _).bind fun _ => ?_)
    split
    · exact Accounts.lineEnd.bind fun _ => .pure (by simp)
    · exact (statement_accounts n k).bind fun s => .pure (by simp)

theorem ifStmt_accounts : ∀ n k, (ifStmt n).Accounts k fun s => k + s.bads
  | 0, _ => .outOfFuel
  | n + 1, k => by
    rw [ifStmt]
    refine Accounts.advance.bind fun _ => (expression_accounts n k).bind fun e => ?_
    refine (block_accounts n _).bind fun y => (elsePart_accounts n _ _).bind fun m => ?_
    exact .pure (by simp [Nat.add_assoc])

theorem elsePart_accounts : ∀ n line k, (elsePart n line).Accounts k fun b => k + b.bads
  | 0, _, _ => .outOfFuel
  | n + 1, line, k => by
    rw [elsePart]
    refine (Accounts.at? _).bind fun _ => ?_
    split
    · exact (ifStmt_accounts n k).bind fun s => .pure (by simp)
    · refine (Accounts.eat _).bind fun _ => ?_
      split
      · exact block_accounts n k
      · exact .pure (by simp)

theorem whileStmt_accounts : ∀ n k, (whileStmt n).Accounts k fun s => k + s.bads
  | 0, _ => .outOfFuel
  | n + 1, k => by
    rw [whileStmt]
    refine Accounts.advance.bind fun _ => (expression_accounts n k).bind fun e => ?_
    refine (Accounts.inLoop (block_accounts n _)).bind fun b => ?_
    exact .pure (by simp [Nat.add_assoc])

theorem forStmt_accounts : ∀ n k, (forStmt n).Accounts k fun s => k + s.bads
  | 0, _ => .outOfFuel
  | n + 1, k => by
    rw [forStmt]
    refine Accounts.advance.bind fun _ => (loopVariables_accounts n).bind fun vs => ?_
    refine (Accounts.expect _).bind fun _ => (expression_accounts n k).bind fun e => ?_
    refine (Accounts.inLoop (block_accounts n _)).bind fun b => ?_
    exact .pure (by simp [Nat.add_assoc])

theorem definition_accounts : ∀ n (ds : List (Expr Span)) k,
    (definition n ds).Accounts (k + badsOfExprs ds) fun s => k + s.bads
  | 0, _, _ => .outOfFuel
  | n + 1, ds, k => by
    rw [definition]
    refine (Accounts.expect _).bind fun _ => Accounts.identifier.bind fun _ => ?_
    refine (Accounts.resolve _).bind fun _ => (Accounts.expect _).bind fun _ => ?_
    refine (params_accounts _ n).bind fun ps => (Accounts.expect _).bind fun _ => ?_
    refine (Accounts.inFunction ps (block_accounts n _)).bind fun b => ?_
    exact .pure (by simp [Nat.add_assoc])

theorem decorated_accounts : ∀ n k, (decorated n).Accounts k fun s => k + s.bads
  | 0, _ => .outOfFuel
  | n + 1, k => by
    rw [decorated]
    refine (decorators_accounts n k).bind fun ds => (Accounts.at? _).bind fun _ => ?_
    split
    · exact definition_accounts n ds k
    · exact .reject _

theorem tryStmt_accounts : ∀ n k, (tryStmt n).Accounts k fun s => k + s.bads
  | 0, _ => .outOfFuel
  | n + 1, k => by
    rw [tryStmt]
    refine Accounts.advance.bind fun _ => (block_accounts n k).bind fun b => ?_
    refine (handler_accounts n _).bind fun h => (cleanup_accounts n _).bind fun c => ?_
    dsimp only
    split
    · exact .reject_bind _
    · exact .pure (by simp [Nat.add_assoc])

theorem handler_accounts : ∀ n k, (handler n).Accounts k fun h => k + badsOfHandler h
  | 0, _ => .outOfFuel
  | n + 1, k => by
    rw [handler]
    refine (Accounts.eat _).bind fun _ => ?_
    split
    · refine handlerBinding_accounts.bind fun _ => (block_accounts n k).bind fun b => ?_
      exact .pure (by simp)
    · exact .pure (by simp)

theorem cleanup_accounts : ∀ n k, (cleanup n).Accounts k fun c => k + badsOfCleanup c
  | 0, _ => .outOfFuel
  | n + 1, k => by
    rw [cleanup]
    refine (Accounts.eat _).bind fun _ => ?_
    split
    · exact (block_accounts n k).bind fun b => .pure (by simp)
    · exact .pure (by simp)

end

/-! ## Programs -/

theorem program_accounts : ∀ n k, (program n).Accounts k fun ss => k + badsOfStmts ss
  | 0, _ => .outOfFuel
  | n + 1, k => by
    rw [program]
    refine Accounts.atEnd.bind fun _ => ?_
    split
    · exact .pure (by simp)
    · refine (Accounts.eat _).bind fun _ => ?_
      split
      · exact program_accounts n k
      · refine (Accounts.eat _).bind fun _ => ?_
        split
        · exact program_accounts n k
        · refine (item_accounts n k).bind fun s => (program_accounts n _).bind fun ss => ?_
          exact .pure (by simp [Nat.add_assoc])

/-- The program is read up to the end of the text. -/
theorem program_atEnd : ∀ (n : Nat) (p : Parser),
    After (program n) p (fun _ q => q.atEnd = true) fun _ _ => True
  | 0, _ => trivial
  | n + 1, p => by
    rw [program, after_bind, after_atEnd]
    split
    · next h => exact h
    · rw [after_bind, after_eat]
      refine ⟨fun _ => program_atEnd n _, fun _ => ?_⟩
      simp only [Bool.false_eq_true, if_false]
      rw [after_bind, after_eat]
      refine ⟨fun _ => program_atEnd n _, fun _ => ?_⟩
      simp only [Bool.false_eq_true, if_false]
      have start : After (item n) p (fun _ _ => True) fun _ _ => True := by
        unfold After
        split <;> trivial
      exact start.bind fun s q _ => (program_atEnd n q).bind fun ss r hr => hr

end Parse

/-! ## Scripts -/

theorem Parser.tidy_start (s : Source) : (Parser.start s s.tokens).Tidy := by
  have hp := s.pairwise_tokens
  refine ⟨?_, sound_nextToken s _ s.tokens (iff_of_true rfl rfl)⟩
  rcases nextToken_suffix s (.mark .endOfFile .start) s.tokens .empty with hn | hs
  · have hn' : (Parser.start s s.tokens).upcoming = [] := hn
    rw [hn']
    exact List.pairwise_singleton ..
  · exact hp.sublist hs.sublist

theorem Parser.due_start (s : Source) : (Parser.start s s.tokens).due = errorCount s.tokens := by
  have h := total_nextToken s (.mark .endOfFile .start) s.tokens .empty
  rw [show Diagnostics.empty.total = 0 from rfl, Nat.zero_add] at h
  exact h

theorem Source.parse_eq (s : Source) {p : Program Span} {q : Parser}
    (h : Parse.program (parseFuel s.tokens.length) (.start s s.tokens) = .ok p q) :
    s.parse = ⟨p, q.errors, q.rejected⟩ := by
  simp [parse, h]

/-- Reading a script settles all of it. -/
theorem Source.settles_parse (s : Source) : s.parse.errors.Sound ∧
    s.parse.errors.total = errorCount s.tokens + s.parse.rejected ∧
    s.parse.program.bads ≤ s.parse.rejected ∧ (0 < s.parse.rejected → 0 < s.parse.program.bads) := by
  obtain ⟨q, hq⟩ := s.exists_program
  have ha := Parse.program_accounts (parseFuel s.tokens.length) 0 (.start s s.tokens)
  have he := Parse.program_atEnd (parseFuel s.tokens.length) (.start s s.tokens)
  rw [after_of_ok hq] at ha he
  obtain ⟨i, hi, hs⟩ := ha
  have htidy := hs.tidy (Parser.tidy_start s)
  have herrors : s.parse.errors = q.errors := congrArg Parsed.errors (s.parse_eq hq)
  have hrejected : s.parse.rejected = q.rejected := congrArg Parsed.rejected (s.parse_eq hq)
  have hdue := hs.due
  rw [Parser.due_start, htidy.due he] at hdue
  have hle := hs.le
  have hpos := hs.pos
  simp only [Parser.start, Nat.zero_add, Nat.add_zero] at hdue hle hpos hi
  rw [herrors, hrejected, Program.bads]
  exact ⟨htidy.sound, hdue, by omega, fun h => by have := hpos h; omega⟩

/-- The diagnostics of a script are one for each error token, which are the diagnostics of its scanner, and one
for each statement that was rejected. So there are none exactly if every token could be read and no `bad`
statement is left, and those that are not the scanner's are at least as many as the `bad` statements and none
only if there are none of these. -/
theorem Source.parse_accounts (s : Source) :
    s.parse.errors.total = errorCount s.tokens + s.parse.rejected ∧
    s.scanErrors.total = errorCount s.tokens ∧
    (s.parse.errors.hasErrors = false ↔ s.scanErrors.hasErrors = false ∧ s.parse.program.bads = 0) ∧
    s.parse.program.bads ≤ s.parse.errors.total - s.scanErrors.total ∧
    (0 < s.parse.errors.total - s.scanErrors.total ↔ 0 < s.parse.program.bads) := by
  obtain ⟨-, htotal, hle, hpos⟩ := s.settles_parse
  have hscan := s.total_scanErrors
  refine ⟨htotal, hscan, ?_, by omega, by omega, by omega⟩
  simp only [Diagnostics.hasErrors, decide_eq_false_iff_not, Nat.not_lt, Nat.le_zero]
  constructor
  · intro h
    omega
  · rintro ⟨h, hb⟩
    have hr : ¬0 < s.parse.rejected := fun hr => by
      have := hpos hr
      omega
    omega

end DocScript
