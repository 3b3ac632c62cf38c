import DocScript.Grammar.Stmt
import DocScript.Proofs.BadStatements
import DocScript.Proofs.Grammar.Progress
import DocScript.Proofs.Print.Legible

/-!
# Names and numbers of programs that were read

The scanner makes names of words that are not reserved, and numbers of digits, which are not negative. The
grammar takes names and numbers from the tokens alone. So a program that was read passes the lexical check,
up to the statements that were rejected (`Source.lexical_parse`).
-/

namespace DocScript

/-! ## Tokens -/

/-- The token is such as the scanner makes it. -/
def TokenKind.isSpelt : TokenKind → Bool
  | .identifier x => Lexeme.isName x
  | .number n => Check.isUnsigned n
  | _ => true

theorem Positive.isUnsigned {x : Float} (h : Positive x) : Check.isUnsigned x = true := by
  unfold Check.isUnsigned
  rcases h with ⟨m, e, h⟩ | h <;> rw [h] <;> rfl

namespace Lexeme

theorem isSpelt_decimal (c : Char) (cs : List Char) : (decimal c cs).1.kind.isSpelt = true := by
  simp only [decimal, decimalKind]
  split
  · rfl
  · split
    · rfl
    · exact (positive_ofScientific _ _).isUnsigned

theorem isSpelt_radixKind (radix : Nat) (ds : List Char) : (radixKind radix ds).isSpelt = true := by
  unfold radixKind
  split
  · rfl
  · split
    · rfl
    · dsimp only
      split
      · exact (positive_ofNat _).isUnsigned
      · rfl

theorem isSpelt_single (c : Char) : (single c).kind.isSpelt = true := by
  unfold single
  split <;> rfl

theorem isSpelt_word {c : Char} (hc : isNameStart c = true) (cs : List Char) :
    (word c cs).1.kind.isSpelt = true := by
  simp only [word, wordKind]
  split
  · rfl
  · next h =>
    simp only [TokenKind.isSpelt, isName, h, Option.isNone_none, Bool.and_true]
    simp [isWord, hc]

theorem isSpelt_scan (c : Char) (cs : List Char) : (scan c cs).1.kind.isSpelt = true := by
  unfold scan
  split
  · simp only [string, StringBody.kind]
    split
    · split <;> rfl
    · rfl
  split
  · unfold number
    split
    · exact isSpelt_decimal ..
    · split
      · split
        · exact isSpelt_radixKind ..
        · exact isSpelt_decimal ..
      · exact isSpelt_decimal ..
  split
  · next h => exact isSpelt_word h cs
  · unfold symbol
    split
    · exact isSpelt_single c
    · split
      · rfl
      · exact isSpelt_single c

end Lexeme

theorem Segmentation.isSpelt_ofText (cs : List Char) :
    ∀ s ∈ (ofText cs).segments, s.lexeme.kind.isSpelt = true := by
  fun_induction ofText cs with
  | case1 => simp
  | case2 cs t c rest h ih =>
    simp only [cons, List.mem_cons, forall_eq_or_imp]
    exact ⟨Lexeme.isSpelt_scan c rest, ih⟩

namespace Layout

theorem isSpelt_settle (w : Nat) (levels : List Nat) : ∀ m ∈ settle w levels, m.1.isSpelt = true := by
  fun_induction settle w levels with
  | case4 level outer _ _ ih => exact List.forall_mem_cons.2 ⟨rfl, ih⟩
  | _ => simp [TokenKind.isSpelt]

theorem isSpelt_enter (l : Layout) (entered : Option Leading) (atEnd : Bool) :
    ∀ m ∈ (l.enter entered atEnd).1, m.1.isSpelt = true := by
  have hblocks : ∀ (l : Layout) (w : Nat), ∀ m ∈ l.blocks w, m.1.isSpelt = true := by
    intro l w m hm
    obtain ⟨x, hx, rfl⟩ := List.mem_map.1 hm
    exact isSpelt_settle w l.levels x hx
  unfold enter
  intro m hm
  simp only [List.mem_append] at hm
  rcases hm with (hm | hm) | hm
  · split at hm <;> simp_all [TokenKind.isSpelt]
  · split at hm
    · simp at hm
    · split at hm <;> simp_all [TokenKind.isSpelt]
  · exact hblocks _ _ m hm

end Layout

theorem isSpelt_kindsFrom {ps : List Piece} (h : ∀ k, .word k ∈ ps → k.isSpelt = true) (l : Layout)
    (entered : Option Leading) : ∀ k ∈ kindsFrom l entered ps, k.isSpelt = true := by
  have hmarks : ∀ (l : Layout) entered atEnd, ∀ k ∈ (l.enter entered atEnd).1.map Prod.fst, k.isSpelt = true := by
    intro l entered atEnd k hk
    obtain ⟨m, hm, rfl⟩ := List.mem_map.1 hk
    exact l.isSpelt_enter entered atEnd m hm
  induction ps generalizing l entered with
  | nil => exact List.forall_mem_append.2 ⟨hmarks _ _ _, by simp [TokenKind.isSpelt]⟩
  | cons piece ps ih =>
    have htail : ∀ k, .word k ∈ ps → k.isSpelt = true := fun k hk => h k (by simp [hk])
    cases piece with
    | line blanks => exact ih htail l (some blanks)
    | word kind =>
      refine List.forall_mem_append.2 ⟨hmarks _ _ _, List.forall_mem_cons.2 ⟨h kind (by simp), ih htail _ _⟩⟩

/-- All tokens of a script are such as the scanner makes them. -/
theorem Source.isSpelt_tokens (s : Source) : ∀ t ∈ s.tokens, t.kind.isSpelt = true := by
  intro t ht
  have hk : t.kind ∈ s.tokens.map Token.kind := List.mem_map_of_mem ht
  rw [s.kinds_tokens] at hk
  refine isSpelt_kindsFrom (fun k hk => ?_) _ _ _ hk
  unfold outline Segmentation.pieces at hk
  rcases List.mem_append.1 hk with hk | hk
  · obtain ⟨x, hx, hk⟩ := List.mem_flatMap.1 hk
    rcases List.mem_append.1 hk with hk | hk
    · cases he : x.trivia.entered <;> simp [he] at hk
    · obtain rfl : k = x.lexeme.kind := by simpa using hk
      exact Segmentation.isSpelt_ofText _ x hx
  · cases he : (Segmentation.ofText s.text.toList).last.entered <;> simp [he] at hk

/-! ## Readers -/

/-- The tokens in front of the parser are such as the scanner makes them. -/
def Parser.Spelt (p : Parser) : Prop :=
  p.current.kind.isSpelt = true ∧ ∀ t ∈ p.upcoming, t.kind.isSpelt = true

theorem isSpelt_nextToken (source : Source) {last : Token} (hl : last.kind.isSpelt = true) :
    ∀ (ts : List Token) (ds : Diagnostics), (∀ t ∈ ts, t.kind.isSpelt = true) →
      (nextToken source last ts ds).1.kind.isSpelt = true ∧
        ∀ t ∈ (nextToken source last ts ds).2.1, t.kind.isSpelt = true
  | [], _, _ => ⟨hl, nofun⟩
  | t :: ts, ds, h => by
    obtain ⟨ht, hts⟩ := List.forall_mem_cons.1 h
    rw [nextToken]
    split
    · exact isSpelt_nextToken source hl ts _ hts
    · exact ⟨ht, hts⟩

namespace Parser.Spelt

variable {p q : Parser}

theorem start (s : Source) : (Parser.start s s.tokens).Spelt :=
  isSpelt_nextToken s rfl s.tokens .empty s.isSpelt_tokens

theorem advance (h : p.Spelt) : p.advance.Spelt := isSpelt_nextToken p.source h.1 p.upcoming p.errors h.2

theorem synchronizeWithin (h : p.Spelt) (n : Nat) : (Parser.synchronizeWithin n p).Spelt := by
  induction n generalizing p with
  | zero => exact h
  | succ n ih =>
    rw [Parser.synchronizeWithin]
    split
    · exact h
    · exact ih h.advance

theorem recover (h : q.Spelt) : (p.recover q).Spelt := by
  refine synchronizeWithin ?_ _
  split
  · exact advance (p := { q with rejected := q.rejected + 1 }) h
  · exact h

theorem leaveFunction (h : p.Spelt) : p.leaveFunction.Spelt := by
  unfold Parser.leaveFunction
  split <;> exact h

end Parser.Spelt

namespace Parse

variable {β γ : Type}

/-- What `x` gives has the property `Q`, if the tokens are such as the scanner makes them. -/
def Gives (x : Parse β) (Q : β → Prop) : Prop :=
  ∀ p : Parser, p.Spelt → After x p (fun a q => q.Spelt ∧ Q a) (fun _ q => q.Spelt)

namespace Gives

variable {x : Parse β} {f : β → Parse γ} {Q : β → Prop} {R : γ → Prop}

theorem pure {a : β} (h : Q a) : (Pure.pure a : Parse β).Gives Q := fun _ hp => ⟨hp, h⟩

theorem bind (h : x.Gives Q) (hf : ∀ a, Q a → (f a).Gives R) : (x >>= f).Gives R :=
  fun p hp => (h p hp).bind fun a q hq => hf a hq.2 q hq.1

theorem outOfFuel : (Parse.outOfFuel : Parse β).Gives Q := fun _ hp => hp

theorem rejectAt_bind (t : Token) (problem : Problem) : (Parse.rejectAt t problem >>= f).Gives R :=
  fun _ hp => hp

theorem reject_bind (problem : Problem) : (Parse.reject problem >>= f).Gives R := fun _ hp => hp

theorem rejectPrevious_bind (problem : Problem) : (Parse.rejectPrevious problem >>= f).Gives R :=
  fun _ hp => hp

theorem reject (problem : Problem) : (Parse.reject problem : Parse β).Gives Q := fun _ hp => hp

theorem peek : Parse.peek.Gives (·.kind.isSpelt = true) := fun _ hp => ⟨hp, hp.1⟩

theorem peekKind : Parse.peekKind.Gives fun _ => True := fun _ hp => ⟨hp, trivial⟩

theorem previous : Parse.previous.Gives fun _ => True := fun _ hp => ⟨hp, trivial⟩

theorem at? (kind : TokenKind) : (Parse.at? kind).Gives fun _ => True := fun _ hp => ⟨hp, trivial⟩

theorem atEnd : Parse.atEnd.Gives fun _ => True := fun _ hp => ⟨hp, trivial⟩

theorem body : Parse.body.Gives fun _ => True := fun _ hp => ⟨hp, trivial⟩

theorem advance : Parse.advance.Gives fun _ => True := fun _ hp => ⟨hp.advance, trivial⟩

theorem eat (kind : TokenKind) : (Parse.eat kind).Gives fun _ => True :=
  fun _ hp => (after_eat kind).2 ⟨fun _ => ⟨hp.advance, trivial⟩, fun _ => ⟨hp, trivial⟩⟩

theorem expect (kind : TokenKind) : (Parse.expect kind).Gives fun _ => True :=
  fun _ hp => (after_expect kind).2 ⟨fun _ => ⟨hp.advance, trivial⟩, fun _ => hp⟩

theorem identifier : Parse.identifier.Gives (Lexeme.isName ·.1 = true) :=
  fun p hp => after_identifier.2 ⟨fun name hn => ⟨hp.advance, by simpa [hn, TokenKind.isSpelt] using hp.1⟩, fun _ => hp⟩

theorem lineEnd : Parse.lineEnd.Gives fun _ => True :=
  fun _ hp => after_lineEnd.2 ⟨fun _ => ⟨hp.advance, trivial⟩, fun _ _ => ⟨hp, trivial⟩, fun _ _ => hp⟩

theorem resolve (name : String) : (Parse.resolve name).Gives (·.name = name) := fun _ hp => ⟨hp, rfl⟩

theorem declare (name : String) (scope : Scope) (t : Token) : (Parse.declare name scope t).Gives fun _ => True :=
  fun _ hp => (after_declare name scope t).2 ⟨fun _ => ⟨hp, trivial⟩, fun _ _ => hp⟩

theorem inLoop (h : x.Gives Q) : (Parse.inLoop x).Gives Q :=
  fun p hp => (after_inLoop x).2 (h p.enterLoop hp)

theorem inFunction (params : List String) (h : x.Gives Q) : (Parse.inFunction params x).Gives Q :=
  fun p hp => (after_inFunction params x).2
    ((h (p.enterFunction params) hp).mono (fun _ _ hq => ⟨hq.1.leaveFunction, hq.2⟩) fun _ _ hq => hq.leaveFunction)

theorem recovering {x : Parse (Option (Stmt Span))} {Q : Option (Stmt Span) → Prop}
    (h : x.Gives Q) (hbad : ∀ a m, Q (some (.bad a m))) : (Parse.recovering x).Gives Q := by
  intro p hp
  refine (after_recovering x).2 ((h p hp).mono (fun _ _ => id) fun e q hq => ?_)
  cases e with
  | rejected => exact ⟨hq.recover, hbad _ _⟩
  | outOfFuel => exact hq

end Gives

/-! ## Expressions -/

theorem params_gives (close : TokenKind) : ∀ n, (params close n).Gives fun ps => ps.all Lexeme.isName = true
  | 0 => .outOfFuel
  | n + 1 => by
    rw [params]
    refine (Gives.at? close).bind fun _ _ => ?_
    split
    · exact .pure rfl
    · refine Gives.identifier.bind fun x hx => (Gives.eat _).bind fun _ _ => ?_
      split
      · exact (params_gives close n).bind fun ps hps => .pure (by rw [List.all_cons, hx, hps]; rfl)
      · exact .pure (by simp [hx])

theorem nameKey_gives : nameKey.Gives fun e => e.passes .lexical = true :=
  Gives.identifier.bind fun _ _ => .pure rfl

theorem lexical_reannotate (a : Span) (e : Expr Span) :
    (e.reannotate a).passes .lexical = e.passes .lexical := by
  cases e <;> rfl

theorem lexical_lambdaOf (start : Span) {ps : List String} {e : Expr Span} (hps : ps.all Lexeme.isName = true)
    (he : e.passes .lexical = true) : (lambdaOf start ps e).passes .lexical = true := by
  simp only [lambdaOf, Expr.passes, Function.passes, Block.passes, stmtsPass, Stmt.passes, exprsPass, he]
  simpa [Check.lexical] using hps

mutual

theorem expression_gives : ∀ n, (expression n).Gives fun e => e.passes .lexical = true
  | 0 => .outOfFuel
  | n + 1 => operation_gives n 0

theorem operation_gives : ∀ n min, (operation n min).Gives fun e => e.passes .lexical = true
  | 0, _ => .outOfFuel
  | n + 1, min => by
    rw [operation]
    exact (unary_gives n).bind fun left hl => operators_gives n min left hl

theorem operators_gives : ∀ n min left, left.passes .lexical = true →
    (operators n min left).Gives fun e => e.passes .lexical = true
  | 0, _, _, _ => .outOfFuel
  | n + 1, min, left, hl => by
    rw [operators]
    refine Gives.peekKind.bind fun _ _ => ?_
    split
    · exact .pure hl
    · split
      · exact .pure hl
      · refine Gives.advance.bind fun _ _ => (operation_gives n _).bind fun right hr => ?_
        exact operators_gives n min _ (by rw [Expr.passes, hl, hr]; rfl)

theorem unary_gives : ∀ n, (unary n).Gives fun e => e.passes .lexical = true
  | 0 => .outOfFuel
  | n + 1 => by
    rw [unary]
    refine Gives.peek.bind fun t _ => ?_
    split
    · refine Gives.advance.bind fun _ _ => (unary_gives n).bind fun e he => ?_
      exact .pure he
    · split
      · exact lambda_gives n
      · exact (primary_gives n).bind fun e he => postfixes_gives n e he

theorem lambda_gives : ∀ n, (lambda n).Gives fun e => e.passes .lexical = true
  | 0 => .outOfFuel
  | n + 1 => by
    rw [lambda]
    refine Gives.advance.bind fun start _ => (params_gives _ n).bind fun ps hps => ?_
    refine (Gives.expect _).bind fun _ _ => (Gives.inFunction ps (expression_gives n)).bind fun e he => ?_
    exact .pure (lexical_lambdaOf start.span hps he)

theorem postfixes_gives : ∀ n e, e.passes .lexical = true →
    (postfixes n e).Gives fun e => e.passes .lexical = true
  | 0, _, _ => .outOfFuel
  | n + 1, e, he => by
    rw [postfixes]
    refine Gives.peekKind.bind fun _ _ => ?_
    split
    · refine Gives.advance.bind fun _ _ => (commaList_gives _ n).bind fun as has => ?_
      exact (Gives.expect _).bind fun _ _ => postfixes_gives n _ (by rw [Expr.passes, he, has]; rfl)
    · refine Gives.advance.bind fun _ _ => (expression_gives n).bind fun k hk => ?_
      exact (Gives.expect _).bind fun _ _ => postfixes_gives n _ (by rw [Expr.passes, he, hk]; rfl)
    · refine Gives.advance.bind fun _ _ => nameKey_gives.bind fun k hk => ?_
      exact postfixes_gives n _ (by rw [Expr.passes, he, hk]; rfl)
    · refine Gives.advance.bind fun _ _ => (arrowKey_gives n).bind fun k hk => ?_
      exact Gives.previous.bind fun _ _ => postfixes_gives n _ (by rw [Expr.passes, he, hk]; rfl)
    · refine (dictBody_gives n).bind fun es hes => ?_
      exact postfixes_gives n _ (by rw [Expr.passes, he, hes]; rfl)
    · exact .pure he

theorem arrowKey_gives : ∀ n, (arrowKey n).Gives fun e => e.passes .lexical = true
  | 0 => .outOfFuel
  | n + 1 => by
    rw [arrowKey]
    refine (Gives.eat _).bind fun _ _ => ?_
    split
    · refine (expression_gives n).bind fun k hk => ?_
      exact (Gives.expect _).bind fun _ _ => .pure hk
    · exact nameKey_gives

theorem primary_gives : ∀ n, (primary n).Gives fun e => e.passes .lexical = true
  | 0 => .outOfFuel
  | n + 1 => by
    rw [primary]
    refine Gives.peek.bind fun t ht => ?_
    split
    · next hk => exact Gives.advance.bind fun _ _ => .pure (by simpa [hk, TokenKind.isSpelt, Check.lexical] using ht)
    · exact Gives.advance.bind fun _ _ => .pure rfl
    · exact Gives.advance.bind fun _ _ => .pure rfl
    · exact Gives.advance.bind fun _ _ => .pure rfl
    · exact Gives.advance.bind fun _ _ => .pure rfl
    · next hk =>
      refine (Gives.resolve _).bind fun v hv => Gives.advance.bind fun _ _ => .pure ?_
      simpa [hk, hv, TokenKind.isSpelt, Check.lexical] using ht
    · refine Gives.advance.bind fun _ _ => (expression_gives n).bind fun e he => ?_
      exact (Gives.expect _).bind fun _ _ => .pure ((lexical_reannotate _ e).trans he)
    · refine Gives.advance.bind fun _ _ => (commaList_gives _ n).bind fun is his => ?_
      exact (Gives.expect _).bind fun _ _ => .pure his
    · exact (dictBody_gives n).bind fun es hes => .pure hes
    · exact .reject _

theorem commaList_gives (close : TokenKind) : ∀ n,
    (commaList close n).Gives fun es => exprsPass .lexical es = true
  | 0 => .outOfFuel
  | n + 1 => by
    rw [commaList]
    refine (Gives.at? close).bind fun _ _ => ?_
    split
    · exact .pure rfl
    · refine (expression_gives n).bind fun e he => (Gives.eat _).bind fun _ _ => ?_
      split
      · exact (commaList_gives close n).bind fun es hes => .pure (by simp [he, hes])
      · exact .pure (by simp [he])

theorem dictBody_gives : ∀ n, (dictBody n).Gives fun es => entriesPass .lexical es.1 = true
  | 0 => .outOfFuel
  | n + 1 => by
    rw [dictBody]
    refine (Gives.expect _).bind fun _ _ => (dictEntries_gives n).bind fun es hes => ?_
    exact (Gives.expect _).bind fun _ _ => .pure hes

theorem dictEntries_gives : ∀ n, (dictEntries n).Gives fun es => entriesPass .lexical es = true
  | 0 => .outOfFuel
  | n + 1 => by
    rw [dictEntries]
    refine (Gives.at? _).bind fun _ _ => ?_
    split
    · exact .pure rfl
    · refine (dictKey_gives n).bind fun k hk => (Gives.expect _).bind fun _ _ => ?_
      refine (expression_gives n).bind fun v hv => (Gives.eat _).bind fun _ _ => ?_
      split
      · exact (dictEntries_gives n).bind fun es hes => .pure (by simp [hk, hv, hes])
      · exact .pure (by simp [hk, hv])

theorem dictKey_gives : ∀ n, (dictKey n).Gives fun e => e.passes .lexical = true
  | 0 => .outOfFuel
  | n + 1 => by
    rw [dictKey]
    refine Gives.peek.bind fun t ht => ?_
    split
    · next name hk =>
      refine Gives.advance.bind fun _ _ => (Gives.at? _).bind fun _ _ => ?_
      split
      · exact .pure rfl
      · refine (Gives.resolve _).bind fun v hv => ?_
        have hvar : (Expr.var t.span v).passes .lexical = true := by
          simpa [hk, hv, TokenKind.isSpelt, Check.lexical] using ht
        exact (postfixes_gives n _ hvar).bind fun e he => operators_gives n 0 e he
    · exact expression_gives n

end

theorem expressions_gives : ∀ n, (expressions n).Gives fun es => exprsPass .lexical es = true
  | 0 => .outOfFuel
  | n + 1 => by
    rw [expressions]
    refine (expression_gives n).bind fun e he => (Gives.eat _).bind fun _ _ => ?_
    split
    · exact (expressions_gives n).bind fun es hes => .pure (by simp [he, hes])
    · exact .pure (by simp [he])

/-! ## Statements -/

theorem loopVariables_gives : ∀ n, (loopVariables n).Gives fun vs => vs.all (Lexeme.isName ·.name) = true
  | 0 => .outOfFuel
  | n + 1 => by
    rw [loopVariables]
    refine Gives.identifier.bind fun x hx => (Gives.resolve _).bind fun v hv => (Gives.eat _).bind fun _ _ => ?_
    split
    · exact (loopVariables_gives n).bind fun vs hvs => .pure (by rw [List.all_cons, hv, hx, hvs]; rfl)
    · exact .pure (by simp [hv, hx])

theorem declaredNames_gives (scope : Scope) : ∀ n,
    (declaredNames scope n).Gives fun ns => (ns.map Prod.fst).all Lexeme.isName = true
  | 0 => .outOfFuel
  | n + 1 => by
    rw [declaredNames]
    refine Gives.peek.bind fun t _ => Gives.identifier.bind fun x hx => ?_
    refine (Gives.declare _ scope t).bind fun _ _ => (Gives.eat _).bind fun _ _ => ?_
    split
    · exact (declaredNames_gives scope n).bind fun ns hns => .pure (by rw [List.map_cons, List.all_cons, hx, hns]; rfl)
    · exact .pure (by simp [hx])

theorem decorators_gives : ∀ n, (decorators n).Gives fun ds => exprsPass .lexical ds = true
  | 0 => .outOfFuel
  | n + 1 => by
    rw [decorators]
    refine (Gives.eat _).bind fun _ _ => ?_
    split
    · refine (expression_gives n).bind fun d hd => (Gives.expect _).bind fun _ _ => ?_
      exact (decorators_gives n).bind fun ds hds => .pure (by simp [hd, hds])
    · exact .pure rfl

theorem handlerBinding_gives : handlerBinding.Gives fun v => ∀ x ∈ v, Lexeme.isName x.name = true := by
  rw [handlerBinding]
  refine (Gives.eat _).bind fun _ _ => ?_
  split
  · refine Gives.identifier.bind fun x hx => (Gives.resolve _).bind fun v hv => .pure ?_
    rintro _ ⟨⟩
    rw [hv]
    exact hx
  · exact .pure (by simp)

end Parse

/-- The statement passes the lexical check, unless a statement in it was rejected. -/
def Stmt.Spelt (s : Stmt Span) : Prop := s.bads = 0 → s.passes .lexical = true

def StmtsSpelt (ss : List (Stmt Span)) : Prop := badsOfStmts ss = 0 → stmtsPass .lexical ss = true

def Block.Spelt (b : Block Span) : Prop := b.bads = 0 → b.passes .lexical = true

/-- The variable of a handler is a name, and its block passes the check. -/
def HandlerSpelt (h : Option (Handler Span)) : Prop :=
  (∀ v b, h = some ⟨some v, b⟩ → Lexeme.isName v.name = true) ∧
    (badsOfHandler h = 0 → handlerPasses .lexical h = true)

def CleanupSpelt (c : Option (Block Span)) : Prop := badsOfCleanup c = 0 → cleanupPasses .lexical c = true

theorem stmtsPass_append {α : Type} (c : Check α) (ss ss' : List (Stmt α)) :
    stmtsPass c (ss ++ ss') = (stmtsPass c ss && stmtsPass c ss') := by
  induction ss with
  | nil => rfl
  | cons s ss ih => rw [List.cons_append, stmtsPass, stmtsPass, ih, Bool.and_assoc]

theorem StmtsSpelt.append {ss ss' : List (Stmt Span)} (h : StmtsSpelt ss) (h' : StmtsSpelt ss') :
    StmtsSpelt (ss ++ ss') := by
  intro hb
  rw [badsOfStmts_append] at hb
  rw [stmtsPass_append, h (by omega), h' (by omega)]
  rfl

theorem lexical_attempt {a : Span} {b : Block Span} {h : Option (Handler Span)} {c : Option (Block Span)}
    (hh : HandlerSpelt h) : Check.lexical.stmt (.attempt a b h c) = true := by
  match h with
  | none => rfl
  | some ⟨none, _⟩ => rfl
  | some ⟨some v, x⟩ => exact hh.1 v x rfl

namespace Parse

theorem raiseStmt_gives (n : Nat) : (raiseStmt n).Gives Stmt.Spelt := by
  refine Gives.advance.bind fun _ _ => (expression_gives n).bind fun e he => ?_
  exact Gives.lineEnd.bind fun _ _ => .pure fun _ => he

theorem returnStmt_gives (n : Nat) : (returnStmt n).Gives Stmt.Spelt := by
  refine Gives.advance.bind fun _ _ => Gives.body.bind fun b _ => ?_
  split
  · exact .rejectPrevious_bind _
  · refine (Gives.at? _).bind fun _ _ => Gives.atEnd.bind fun _ _ => ?_
    split
    · exact (Gives.pure (Q := fun vs => exprsPass .lexical vs = true) rfl).bind fun vs hvs =>
        Gives.lineEnd.bind fun _ _ => .pure fun _ => hvs
    · exact (expressions_gives n).bind fun vs hvs => Gives.lineEnd.bind fun _ _ => .pure fun _ => hvs

theorem loopControl_gives (k : Keyword) {stmt : Span → Stmt Span} (h : ∀ a, (stmt a).Spelt) :
    (loopControl k stmt).Gives Stmt.Spelt := by
  refine Gives.advance.bind fun t _ => Gives.body.bind fun b _ => ?_
  split
  · exact .rejectPrevious_bind _
  · exact Gives.lineEnd.bind fun _ _ => .pure (h _)

theorem declaration_gives (scope : Scope) (n : Nat) : (declaration scope n).Gives Stmt.Spelt := by
  refine Gives.advance.bind fun _ _ => Gives.body.bind fun b _ => ?_
  split
  · exact .rejectPrevious_bind _
  · exact (declaredNames_gives scope n).bind fun ns hns => Gives.lineEnd.bind fun _ _ => .pure fun _ => hns

theorem assignment_gives (n : Nat) {first : Expr Span} (hf : first.passes .lexical = true) :
    (assignment n first).Gives Stmt.Spelt := by
  have rest : ∀ more : List (Expr Span), exprsPass .lexical more = true →
      (do
        let eq ← expect (.symbol .eq)
        if (first :: more).any (!·.isTarget) then rejectAt eq .invalidTarget
        let values ← expressions n
        lineEnd
        return .assign (spanOver eq.span (values ++ (first :: more))) (first :: more) values :
          Parse (Stmt Span)).Gives Stmt.Spelt := by
    intro more hmore
    refine (Gives.expect _).bind fun eq _ => ?_
    dsimp only
    split
    · exact .rejectAt_bind _ _
    · refine (expressions_gives n).bind fun vs hvs => Gives.lineEnd.bind fun _ _ => .pure fun _ => ?_
      rw [Stmt.passes, exprsPass, hf, hmore, hvs]
      rfl
  refine (Gives.eat _).bind fun _ _ => ?_
  dsimp only
  split
  · exact (expressions_gives n).bind fun more hmore => rest more hmore
  · exact rest [] rfl

theorem exprStmt_gives (n : Nat) : (exprStmt n).Gives Stmt.Spelt := by
  refine (expression_gives n).bind fun e he => ?_
  refine (Gives.at? _).bind fun _ _ => (Gives.at? _).bind fun _ _ => ?_
  split
  · exact assignment_gives n he
  · exact Gives.lineEnd.bind fun _ _ => .pure fun _ => he

mutual

theorem statement_gives : ∀ n, (statement n).Gives Stmt.Spelt
  | 0 => .outOfFuel
  | n + 1 => by
    rw [statement]
    refine Gives.peekKind.bind fun _ _ => ?_
    split
    · exact ifStmt_gives n
    · exact whileStmt_gives n
    · exact forStmt_gives n
    · exact definition_gives n [] rfl
    · exact decorated_gives n
    · exact tryStmt_gives n
    · exact raiseStmt_gives n
    · exact returnStmt_gives n
    · exact loopControl_gives _ fun _ _ => rfl
    · exact loopControl_gives _ fun _ _ => rfl
    · exact declaration_gives _ n
    · exact declaration_gives _ n
    · exact declaration_gives _ n
    · exact .reject _
    · exact exprStmt_gives n

theorem block_gives : ∀ n, (block n).Gives Block.Spelt
  | 0 => .outOfFuel
  | n + 1 => by
    rw [block]
    refine (Gives.expect _).bind fun _ _ => (Gives.expect _).bind fun _ _ => ?_
    refine (Gives.eat _).bind fun _ _ => ?_
    dsimp only
    split
    · exact .reject_bind _
    · refine (blockStmts_gives n).bind fun ss hss => Gives.peek.bind fun _ _ => ?_
      exact (Gives.eat _).bind fun _ _ => .pure hss

theorem blockStmts_gives : ∀ n, (blockStmts n).Gives StmtsSpelt
  | 0 => .outOfFuel
  | n + 1 => by
    rw [blockStmts]
    refine (Gives.at? _).bind fun _ _ => Gives.atEnd.bind fun _ _ => ?_
    split
    · exact .pure fun _ => rfl
    · refine (Gives.eat _).bind fun _ _ => ?_
      split
      · exact blockStmts_gives n
      · refine (item_gives n).bind fun s hs => (blockStmts_gives n).bind fun ss hss => ?_
        exact .pure (hs.append hss)

theorem item_gives : ∀ n, (item n).Gives fun s => StmtsSpelt s.toList
  | 0 => .outOfFuel
  | n + 1 => by
    rw [item]
    refine .recovering ((Gives.eat _).bind fun _ _ => ?_) fun _ _ h => by simp at h
    split
    · exact Gives.lineEnd.bind fun _ _ => .pure fun _ => rfl
    · refine (statement_gives n).bind fun s hs => .pure fun h => ?_
      simp only [Option.toList_some, badsOfStmts, Nat.add_zero] at h
      rw [Option.toList_some, stmtsPass, hs h]
      rfl

theorem ifStmt_gives : ∀ n, (ifStmt n).Gives Stmt.Spelt
  | 0 => .outOfFuel
  | n + 1 => by
    rw [ifStmt]
    refine Gives.advance.bind fun _ _ => (expression_gives n).bind fun e he => ?_
    refine (block_gives n).bind fun y hy => (elsePart_gives n _).bind fun z hz => .pure fun h => ?_
    rw [Stmt.bads] at h
    rw [Stmt.passes, he, hy (by omega), hz (by omega)]
    rfl

theorem elsePart_gives : ∀ n line, (elsePart n line).Gives Block.Spelt
  | 0, _ => .outOfFuel
  | n + 1, line => by
    rw [elsePart]
    refine (Gives.at? _).bind fun _ _ => ?_
    split
    · refine (ifStmt_gives n).bind fun s hs => .pure fun h => ?_
      simp only [Block.bads, badsOfStmts, Nat.add_zero] at h
      rw [Block.passes, stmtsPass, hs h]
      rfl
    · refine (Gives.eat _).bind fun _ _ => ?_
      split
      · exact block_gives n
      · exact .pure fun _ => rfl

theorem whileStmt_gives : ∀ n, (whileStmt n).Gives Stmt.Spelt
  | 0 => .outOfFuel
  | n + 1 => by
    rw [whileStmt]
    refine Gives.advance.bind fun _ _ => (expression_gives n).bind fun e he => ?_
    refine (Gives.inLoop (block_gives n)).bind fun b hb => .pure fun h => ?_
    rw [Stmt.bads] at h
    rw [Stmt.passes, he, hb (by omega)]
    rfl

theorem forStmt_gives : ∀ n, (forStmt n).Gives Stmt.Spelt
  | 0 => .outOfFuel
  | n + 1 => by
    rw [forStmt]
    refine Gives.advance.bind fun _ _ => (loopVariables_gives n).bind fun vs hvs => ?_
    refine (Gives.expect _).bind fun _ _ => (expression_gives n).bind fun e he => ?_
    refine (Gives.inLoop (block_gives n)).bind fun b hb => .pure fun h => ?_
    rw [Stmt.bads] at h
    rw [Stmt.passes, he, hb (by omega)]
    simpa [Check.lexical] using hvs

theorem definition_gives : ∀ n ds, exprsPass .lexical ds = true → (definition n ds).Gives Stmt.Spelt
  | 0, _, _ => .outOfFuel
  | n + 1, ds, hds => by
    rw [definition]
    refine (Gives.expect _).bind fun _ _ => Gives.identifier.bind fun x hx => ?_
    refine (Gives.resolve _).bind fun v hv => (Gives.expect _).bind fun _ _ => ?_
    refine (params_gives _ n).bind fun ps hps => (Gives.expect _).bind fun _ _ => ?_
    refine (Gives.inFunction ps (block_gives n)).bind fun b hb => .pure fun h => ?_
    rw [Stmt.bads, Function.bads] at h
    rw [Stmt.passes, hds, Function.passes, hb (by omega)]
    simpa [Check.lexical, hv, hx] using hps

theorem decorated_gives : ∀ n, (decorated n).Gives Stmt.Spelt
  | 0 => .outOfFuel
  | n + 1 => by
    rw [decorated]
    refine (decorators_gives n).bind fun ds hds => (Gives.at? _).bind fun _ _ => ?_
    split
    · exact definition_gives n ds hds
    · exact .reject _

theorem tryStmt_gives : ∀ n, (tryStmt n).Gives Stmt.Spelt
  | 0 => .outOfFuel
  | n + 1 => by
    rw [tryStmt]
    refine Gives.advance.bind fun _ _ => (block_gives n).bind fun b hb => ?_
    refine (handler_gives n).bind fun h hh => (cleanup_gives n).bind fun c hc => ?_
    dsimp only
    split
    · exact .reject_bind _
    · refine .pure fun h => ?_
      rw [Stmt.bads] at h
      rw [Stmt.passes, lexical_attempt hh, hb (by omega), hh.2 (by omega), hc (by omega)]
      rfl

theorem handler_gives : ∀ n, (handler n).Gives HandlerSpelt
  | 0 => .outOfFuel
  | n + 1 => by
    rw [handler]
    refine (Gives.eat _).bind fun _ _ => ?_
    split
    · refine handlerBinding_gives.bind fun v hv => (block_gives n).bind fun b hb => .pure ⟨?_, hb⟩
      rintro w b' ⟨⟩
      exact hv w rfl
    · exact .pure ⟨nofun, fun _ => rfl⟩

theorem cleanup_gives : ∀ n, (cleanup n).Gives CleanupSpelt
  | 0 => .outOfFuel
  | n + 1 => by
    rw [cleanup]
    refine (Gives.eat _).bind fun _ _ => ?_
    split
    · exact (block_gives n).bind fun b hb => .pure hb
    · exact .pure fun _ => rfl

end

theorem program_gives : ∀ n, (program n).Gives StmtsSpelt
  | 0 => .outOfFuel
  | n + 1 => by
    rw [program]
    refine Gives.atEnd.bind fun _ _ => ?_
    split
    · exact .pure fun _ => rfl
    · refine (Gives.eat _).bind fun _ _ => ?_
      split
      · exact program_gives n
      · refine (Gives.eat _).bind fun _ _ => ?_
        split
        · exact program_gives n
        · refine (item_gives n).bind fun s hs => (program_gives n).bind fun ss hss => ?_
          exact .pure (hs.append hss)

end Parse

/-- A program that was read passes the lexical check, unless a statement was rejected. -/
theorem Source.lexical_parse (s : Source) (h : s.parse.program.bads = 0) :
    stmtsPass .lexical s.parse.program = true := by
  obtain ⟨q, hq⟩ := s.exists_program
  have hg := Parse.program_gives (parseFuel s.tokens.length) (.start s s.tokens) (.start s)
  rw [after_of_ok hq] at hg
  exact hg.2 h

end DocScript
