import DocScript.Proofs.Grammar.Readers
import DocScript.Proofs.Token.CarriageReturn

/-!
# What reading takes from the source

Readers see tokens; from the source itself a parser only takes what diagnostics quote, its name and its lines. So two
sources with the same tokens, the same name and the same lines are read alike : the same program, with the same spans,
and the same diagnostics (`Source.Alike.parse_eq`). `Parse.Indifferent` says this of one reader, for all outcomes.
Sources that differ in how their lines end are such a pair (`Source.parse_withReturns`).
-/

set_option linter.unusedSectionVars false

namespace DocScript

/-- Diagnostics cannot tell the sources apart. -/
structure Source.Alike (s s' : Source) : Prop where
  name : s'.name = s.name
  line : ∀ n, s'.line? n = s.line? n

/-- The parser with another source. -/
def Parser.withSource (p : Parser) (s : Source) : Parser := { p with source := s }

variable {s s' : Source} {β γ : Type}

namespace Source.Alike

variable (h : s.Alike s')

include h

theorem complain (t : Token) (code : ErrorCode) (message : String) :
    t.complain s' code message = t.complain s code message := by
  simp only [Token.complain, h.name, h.line]

theorem scanError? (t : Token) : s'.scanError? t = s.scanError? t := by
  unfold Source.scanError?
  split
  · rw [h.complain]
  · rfl

theorem nextToken (last : Token) (ts : List Token) (ds : Diagnostics) :
    DocScript.nextToken s' last ts ds = DocScript.nextToken s last ts ds := by
  induction ts generalizing ds with
  | nil => rfl
  | cons t ts ih => simp only [DocScript.nextToken, h.scanError?, ih]

variable {p : Parser} (hp : p.source = s)

include hp

theorem withSource_advance : (p.withSource s').advance = p.advance.withSource s' := by
  subst hp
  simp only [Parser.advance, Parser.withSource, h.nextToken]

theorem withSource_complain (t : Token) (problem : Problem) :
    (p.withSource s').complain t problem = (p.complain t problem).withSource s' := by
  subst hp
  simp only [Parser.complain, Parser.withSource, h.complain]

theorem withSource_synchronizeWithin (n : Nat) :
    (p.withSource s').synchronizeWithin n = (p.synchronizeWithin n).withSource s' := by
  induction n generalizing p with
  | zero => rfl
  | succ n ih =>
    have hstop : ((p.withSource s').atEnd || (p.withSource s').previous.kind = .newline ||
        Parser.isBoundary (p.withSource s').current.kind) =
          (p.atEnd || p.previous.kind = .newline || Parser.isBoundary p.current.kind) := rfl
    rw [Parser.synchronizeWithin, Parser.synchronizeWithin, hstop, h.withSource_advance hp]
    split
    · rfl
    · exact ih (p := p.advance) hp

omit hp in
theorem withSource_recover {q : Parser} (hq : q.source = s) :
    (p.withSource s').recover (q.withSource s') = (p.recover q).withSource s' := by
  have hmoved (r : Parser) (hr : r.source = s) :
      (if (r.withSource s').consumed = (p.withSource s').consumed ∧ !(r.withSource s').atEnd then
        (r.withSource s').advance else r.withSource s') =
          (if r.consumed = p.consumed ∧ !r.atEnd then r.advance else r).withSource s' := by
    by_cases hc : r.consumed = p.consumed ∧ !r.atEnd
    · rw [if_pos hc, ← h.withSource_advance hr]
      exact if_pos hc
    · rw [if_neg hc]
      exact if_neg hc
  have hmoved := hmoved { q with rejected := q.rejected + 1 } hq
  have hsource : (if q.consumed = p.consumed ∧ !q.atEnd then Parser.advance { q with rejected := q.rejected + 1 }
      else { q with rejected := q.rejected + 1 }).source = s := by
    split <;> exact hq
  refine (congrArg Parser.synchronize hmoved).trans ?_
  exact h.withSource_synchronizeWithin hsource _

end Source.Alike

theorem Parser.source_synchronizeWithin (n : Nat) (p : Parser) : (p.synchronizeWithin n).source = p.source := by
  induction n generalizing p with
  | zero => rfl
  | succ n ih =>
    rw [synchronizeWithin]
    split
    · rfl
    · exact ih p.advance

theorem Parser.source_recover (p q : Parser) : (p.recover q).source = q.source := by
  rw [recover, synchronize, source_synchronizeWithin]
  split <;> rfl

namespace Parse

/-- `x` does the same with both sources, and stays with the one that it starts with. -/
def Indifferent (s s' : Source) (x : Parse β) : Prop :=
  ∀ p, p.source = s → After x p (fun b q => q.source = s ∧ x (p.withSource s') = .ok b (q.withSource s'))
    fun e q => q.source = s ∧ x (p.withSource s') = .error e (q.withSource s')

namespace Indifferent

/-! ## Basic readers -/

theorem pure (b : β) : Indifferent s s' (Pure.pure b : Parse β) := fun _ hp => ⟨hp, rfl⟩

theorem bind {x : Parse γ} {f : γ → Parse β} (hx : Indifferent s s' x) (hf : ∀ c, Indifferent s s' (f c)) :
    Indifferent s s' (x >>= f) := by
  intro p hp
  have h := hx p hp
  unfold After at h ⊢
  simp only [Bind.bind, EStateM.bind]
  cases hr : x p with
  | error e q =>
    simp only [hr] at h ⊢
    simp only [h.2]
    exact ⟨h.1, trivial⟩
  | ok c q =>
    simp only [hr] at h ⊢
    simp only [h.2]
    exact hf c q h.1

theorem outOfFuel : Indifferent s s' (Parse.outOfFuel : Parse β) := fun _ hp => ⟨hp, rfl⟩

theorem peek : Indifferent s s' Parse.peek := fun _ hp => ⟨hp, rfl⟩

theorem peekKind : Indifferent s s' Parse.peekKind := fun _ hp => ⟨hp, rfl⟩

theorem previous : Indifferent s s' Parse.previous := fun _ hp => ⟨hp, rfl⟩

theorem at? (kind : TokenKind) : Indifferent s s' (Parse.at? kind) := fun _ hp => ⟨hp, rfl⟩

theorem atEnd : Indifferent s s' Parse.atEnd := fun _ hp => ⟨hp, rfl⟩

theorem body : Indifferent s s' Parse.body := fun _ hp => ⟨hp, rfl⟩

theorem resolve (name : String) : Indifferent s s' (Parse.resolve name) := fun _ hp => ⟨hp, rfl⟩

variable (h : s.Alike s')

include h

theorem rejectAt (t : Token) (problem : Problem) : Indifferent s s' (Parse.rejectAt t problem : Parse β) :=
  fun _ hp => ⟨hp, congrArg (EStateM.Result.error _) (h.withSource_complain hp t problem)⟩

/-- Nothing comes after a rejection. -/
theorem rejectAt_bind (t : Token) (problem : Problem) (f : γ → Parse β) :
    Indifferent s s' (Parse.rejectAt t problem >>= f) :=
  fun _ hp => ⟨hp, congrArg (EStateM.Result.error _) (h.withSource_complain hp t problem)⟩

theorem reject_bind (problem : Problem) (f : γ → Parse β) : Indifferent s s' (Parse.reject problem >>= f) :=
  fun p hp => rejectAt_bind h p.current problem f p hp

theorem rejectPrevious_bind (problem : Problem) (f : γ → Parse β) :
    Indifferent s s' (Parse.rejectPrevious problem >>= f) :=
  fun p hp => rejectAt_bind h p.previous problem f p hp

theorem reject (problem : Problem) : Indifferent s s' (Parse.reject problem : Parse β) :=
  fun p hp => rejectAt h p.current problem p hp

theorem advance : Indifferent s s' Parse.advance :=
  fun _ hp => ⟨hp, congrArg (EStateM.Result.ok _) (h.withSource_advance hp)⟩

theorem eat (kind : TokenKind) : Indifferent s s' (Parse.eat kind) := by
  intro p hp
  rw [after_eat]
  refine ⟨fun hk => ⟨hp, ?_⟩, fun hk => ⟨hp, ?_⟩⟩
  · rw [Parse.eat, if_pos (show (p.withSource s').current.kind = kind from hk), h.withSource_advance hp]
  · rw [Parse.eat, if_neg (show ¬(p.withSource s').current.kind = kind from hk)]

theorem expect (kind : TokenKind) : Indifferent s s' (Parse.expect kind) := by
  intro p hp
  rw [after_expect]
  refine ⟨fun hk => ⟨hp, ?_⟩, fun hk => ⟨hp, ?_⟩⟩
  · rw [Parse.expect, if_pos (show (p.withSource s').current.kind = kind from hk), h.withSource_advance hp]
    rfl
  · rw [Parse.expect, if_neg (show ¬(p.withSource s').current.kind = kind from hk)]
    exact congrArg (EStateM.Result.error _) (h.withSource_complain hp _ _)

theorem identifier : Indifferent s s' Parse.identifier := by
  intro p hp
  have hcurrent : (p.withSource s').current = p.current := rfl
  simp only [After, Parse.identifier, hcurrent]
  cases hk : p.current.kind with
  | identifier name => exact ⟨hp, congrArg (EStateM.Result.ok _) (h.withSource_advance hp)⟩
  | _ => exact reject h .expectedIdentifier p hp

theorem lineEnd : Indifferent s s' Parse.lineEnd := by
  intro p hp
  have hcurrent : (p.withSource s').current = p.current := rfl
  have hend : (p.withSource s').atEnd = p.atEnd := rfl
  simp only [After, Parse.lineEnd, hcurrent, hend]
  by_cases hk : p.current.kind = .newline
  · simp only [if_pos hk]
    exact ⟨hp, congrArg (EStateM.Result.ok _) (h.withSource_advance hp)⟩
  · simp only [if_neg hk]
    cases p.atEnd with
    | true => exact ⟨hp, rfl⟩
    | false => exact reject h .expectedLineEnd p hp

theorem declare (name : String) (scope : Scope) (t : Token) : Indifferent s s' (Parse.declare name scope t) := by
  intro p hp
  have hbody : (p.withSource s').body = p.body := rfl
  simp only [After, Parse.declare, hbody]
  cases p.body.objection? name scope with
  | some problem => exact rejectAt h t problem p hp
  | none => exact ⟨hp, rfl⟩

omit h in
theorem inFunction (params : List String) {x : Parse β} (hx : Indifferent s s' x) :
    Indifferent s s' (Parse.inFunction params x) := by
  intro p hp
  have hleave (q : Parser) : (q.withSource s').leaveFunction = q.leaveFunction.withSource s' := by
    rcases q with ⟨_, _, _, _, _, _, _, _, _ | _⟩ <;> rfl
  have hsource (q : Parser) : q.leaveFunction.source = q.source := by
    rcases q with ⟨_, _, _, _, _, _, _, _, _ | _⟩ <;> rfl
  rw [after_inFunction]
  refine (hx (p.enterFunction params) hp).mono (fun b q hq => ?_) fun e q hq => ?_
  · refine ⟨(hsource q).trans hq.1, ?_⟩
    simp only [Parse.inFunction, show (p.withSource s').enterFunction params = (p.enterFunction params).withSource s' from rfl,
      hq.2, hleave]
  · refine ⟨(hsource q).trans hq.1, ?_⟩
    simp only [Parse.inFunction, show (p.withSource s').enterFunction params = (p.enterFunction params).withSource s' from rfl,
      hq.2, hleave]

omit h in
theorem inLoop {x : Parse β} (hx : Indifferent s s' x) : Indifferent s s' (Parse.inLoop x) := by
  intro p hp
  have henter : (p.withSource s').enterLoop = p.enterLoop.withSource s' := rfl
  rw [after_inLoop]
  refine (hx p.enterLoop hp).mono (fun b q hq => ⟨hq.1, ?_⟩) fun e q hq => ⟨hq.1, ?_⟩
  · simp only [Parse.inLoop, henter, hq.2]
    rfl
  · simp only [Parse.inLoop, henter, hq.2]
    rfl

theorem recovering {x : Parse (Option (Stmt Span))} (hx : Indifferent s s' x) :
    Indifferent s s' (Parse.recovering x) := by
  intro p hp
  rw [after_recovering]
  refine (hx p hp).mono (fun b q hq => ⟨hq.1, ?_⟩) fun e q hq => ?_
  · simp only [Parse.recovering, hq.2]
  · cases e with
    | outOfFuel =>
      refine ⟨hq.1, ?_⟩
      simp only [Parse.recovering, hq.2]
    | rejected =>
      refine ⟨(Parser.source_recover p q).trans hq.1, ?_⟩
      simp only [Parse.recovering, hq.2, h.withSource_recover hq.1]
      rfl

end Indifferent

variable (h : s.Alike s')

include h

/-! ## Expressions -/

theorem params_indifferent (close : TokenKind) : ∀ n, Indifferent s s' (params close n)
  | 0 => .outOfFuel
  | n + 1 => by
    rw [params]
    refine (Indifferent.at? close).bind fun _ => ?_
    split
    · exact .pure _
    · refine (Indifferent.identifier h).bind fun _ => (Indifferent.eat h _).bind fun _ => ?_
      split
      · exact (params_indifferent close n).bind fun _ => .pure _
      · exact .pure _

theorem nameKey_indifferent : Indifferent s s' nameKey :=
  (Indifferent.identifier h).bind fun _ => .pure _

mutual

theorem expression_indifferent (n : Nat) : Indifferent s s' (expression n) := by
  cases n with
  | zero => exact .outOfFuel
  | succ n => exact operation_indifferent n 0

theorem operation_indifferent : ∀ n min, Indifferent s s' (operation n min)
  | 0, _ => .outOfFuel
  | n + 1, min => (unary_indifferent n).bind fun left => operators_indifferent n min left

theorem operators_indifferent : ∀ n min left, Indifferent s s' (operators n min left)
  | 0, _, _ => .outOfFuel
  | n + 1, min, left => by
    rw [operators]
    refine Indifferent.peekKind.bind fun _ => ?_
    split
    · exact .pure _
    · split
      · exact .pure _
      · refine (Indifferent.advance h).bind fun _ => (operation_indifferent n _).bind fun right => ?_
        exact operators_indifferent n min _

theorem unary_indifferent (n : Nat) : Indifferent s s' (unary n) := by
  cases n with
  | zero => exact .outOfFuel
  | succ n =>
    rw [unary]
    refine Indifferent.peek.bind fun _ => ?_
    split
    · exact (Indifferent.advance h).bind fun _ => (unary_indifferent n).bind fun _ => .pure _
    · split
      · exact lambda_indifferent n
      · exact (primary_indifferent n).bind fun e => postfixes_indifferent n e

theorem lambda_indifferent (n : Nat) : Indifferent s s' (lambda n) := by
  cases n with
  | zero => exact .outOfFuel
  | succ n =>
    rw [lambda]
    refine (Indifferent.advance h).bind fun _ => (params_indifferent h _ n).bind fun ps => ?_
    refine (Indifferent.expect h _).bind fun _ => ?_
    exact (Indifferent.inFunction ps (expression_indifferent n)).bind fun _ => .pure _

theorem postfixes_indifferent : ∀ n e, Indifferent s s' (postfixes n e)
  | 0, _ => .outOfFuel
  | n + 1, e => by
    rw [postfixes]
    refine Indifferent.peekKind.bind fun _ => ?_
    split
    · refine (Indifferent.advance h).bind fun _ => (commaList_indifferent _ n).bind fun _ => ?_
      exact (Indifferent.expect h _).bind fun _ => postfixes_indifferent n _
    · refine (Indifferent.advance h).bind fun _ => (expression_indifferent n).bind fun _ => ?_
      exact (Indifferent.expect h _).bind fun _ => postfixes_indifferent n _
    · refine (Indifferent.advance h).bind fun _ => (nameKey_indifferent h).bind fun _ => ?_
      exact postfixes_indifferent n _
    · refine (Indifferent.advance h).bind fun _ => (arrowKey_indifferent n).bind fun _ => ?_
      exact Indifferent.previous.bind fun _ => postfixes_indifferent n _
    · exact (dictBody_indifferent n).bind fun _ => postfixes_indifferent n _
    · exact .pure _

theorem arrowKey_indifferent (n : Nat) : Indifferent s s' (arrowKey n) := by
  cases n with
  | zero => exact .outOfFuel
  | succ n =>
    rw [arrowKey]
    refine (Indifferent.eat h _).bind fun _ => ?_
    split
    · exact (expression_indifferent n).bind fun _ => (Indifferent.expect h _).bind fun _ => .pure _
    · exact nameKey_indifferent h

theorem primary_indifferent (n : Nat) : Indifferent s s' (primary n) := by
  cases n with
  | zero => exact .outOfFuel
  | succ n =>
    rw [primary]
    refine Indifferent.peek.bind fun _ => ?_
    split
    · exact (Indifferent.advance h).bind fun _ => .pure _
    · exact (Indifferent.advance h).bind fun _ => .pure _
    · exact (Indifferent.advance h).bind fun _ => .pure _
    · exact (Indifferent.advance h).bind fun _ => .pure _
    · exact (Indifferent.advance h).bind fun _ => .pure _
    · exact (Indifferent.resolve _).bind fun _ => (Indifferent.advance h).bind fun _ => .pure _
    · refine (Indifferent.advance h).bind fun _ => (expression_indifferent n).bind fun _ => ?_
      exact (Indifferent.expect h _).bind fun _ => .pure _
    · refine (Indifferent.advance h).bind fun _ => (commaList_indifferent _ n).bind fun _ => ?_
      exact (Indifferent.expect h _).bind fun _ => .pure _
    · exact (dictBody_indifferent n).bind fun _ => .pure _
    · exact .reject h _

theorem commaList_indifferent (close : TokenKind) (n : Nat) : Indifferent s s' (commaList close n) := by
  cases n with
  | zero => exact .outOfFuel
  | succ n =>
    rw [commaList]
    refine (Indifferent.at? close).bind fun _ => ?_
    split
    · exact .pure _
    · refine (expression_indifferent n).bind fun _ => (Indifferent.eat h _).bind fun _ => ?_
      split
      · exact (commaList_indifferent close n).bind fun _ => .pure _
      · exact .pure _

theorem dictBody_indifferent (n : Nat) : Indifferent s s' (dictBody n) := by
  cases n with
  | zero => exact .outOfFuel
  | succ n =>
    rw [dictBody]
    refine (Indifferent.expect h _).bind fun _ => (dictEntries_indifferent n).bind fun _ => ?_
    exact (Indifferent.expect h _).bind fun _ => .pure _

theorem dictEntries_indifferent (n : Nat) : Indifferent s s' (dictEntries n) := by
  cases n with
  | zero => exact .outOfFuel
  | succ n =>
    rw [dictEntries]
    refine (Indifferent.at? _).bind fun _ => ?_
    split
    · exact .pure _
    · refine (dictKey_indifferent n).bind fun _ => (Indifferent.expect h _).bind fun _ => ?_
      refine (expression_indifferent n).bind fun _ => (Indifferent.eat h _).bind fun _ => ?_
      split
      · exact (dictEntries_indifferent n).bind fun _ => .pure _
      · exact .pure _

theorem dictKey_indifferent (n : Nat) : Indifferent s s' (dictKey n) := by
  cases n with
  | zero => exact .outOfFuel
  | succ n =>
    rw [dictKey]
    refine Indifferent.peek.bind fun _ => ?_
    split
    · refine (Indifferent.advance h).bind fun _ => (Indifferent.at? _).bind fun _ => ?_
      split
      · exact .pure _
      · refine (Indifferent.resolve _).bind fun _ => (postfixes_indifferent n _).bind fun _ => ?_
        exact operators_indifferent n 0 _
    · exact expression_indifferent n

end

theorem expressions_indifferent : ∀ n, Indifferent s s' (expressions n)
  | 0 => .outOfFuel
  | n + 1 => by
    rw [expressions]
    refine (expression_indifferent h n).bind fun _ => (Indifferent.eat h _).bind fun _ => ?_
    split
    · exact (expressions_indifferent n).bind fun _ => .pure _
    · exact .pure _

/-! ## Statements without blocks -/

theorem loopVariables_indifferent : ∀ n, Indifferent s s' (loopVariables n)
  | 0 => .outOfFuel
  | n + 1 => by
    rw [loopVariables]
    refine (Indifferent.identifier h).bind fun _ => (Indifferent.resolve _).bind fun _ => ?_
    refine (Indifferent.eat h _).bind fun _ => ?_
    split
    · exact (loopVariables_indifferent n).bind fun _ => .pure _
    · exact .pure _

theorem declaredNames_indifferent (scope : Scope) : ∀ n, Indifferent s s' (declaredNames scope n)
  | 0 => .outOfFuel
  | n + 1 => by
    rw [declaredNames]
    refine Indifferent.peek.bind fun _ => (Indifferent.identifier h).bind fun _ => ?_
    refine (Indifferent.declare h _ _ _).bind fun _ => (Indifferent.eat h _).bind fun _ => ?_
    split
    · exact (declaredNames_indifferent scope n).bind fun _ => .pure _
    · exact .pure _

theorem decorators_indifferent : ∀ n, Indifferent s s' (decorators n)
  | 0 => .outOfFuel
  | n + 1 => by
    rw [decorators]
    refine (Indifferent.eat h _).bind fun _ => ?_
    split
    · refine (expression_indifferent h n).bind fun _ => (Indifferent.expect h _).bind fun _ => ?_
      exact (decorators_indifferent n).bind fun _ => .pure _
    · exact .pure _

theorem handlerBinding_indifferent : Indifferent s s' handlerBinding := by
  rw [handlerBinding]
  refine (Indifferent.eat h _).bind fun _ => ?_
  split
  · exact (Indifferent.identifier h).bind fun _ => (Indifferent.resolve _).bind fun _ => .pure _
  · exact .pure _

theorem raiseStmt_indifferent (n : Nat) : Indifferent s s' (raiseStmt n) := by
  rw [raiseStmt]
  refine (Indifferent.advance h).bind fun _ => (expression_indifferent h n).bind fun _ => ?_
  exact (Indifferent.lineEnd h).bind fun _ => .pure _

theorem returnStmt_indifferent (n : Nat) : Indifferent s s' (returnStmt n) := by
  refine (Indifferent.advance h).bind fun _ => Indifferent.body.bind fun _ => ?_
  split
  · exact .rejectPrevious_bind h _ _
  · refine (Indifferent.at? _).bind fun _ => Indifferent.atEnd.bind fun _ => ?_
    split
    · exact (Indifferent.lineEnd h).bind fun _ => .pure _
    · exact (expressions_indifferent h n).bind fun _ => (Indifferent.lineEnd h).bind fun _ => .pure _

theorem loopControl_indifferent (k : Keyword) (stmt : Span → Stmt Span) : Indifferent s s' (loopControl k stmt) := by
  refine (Indifferent.advance h).bind fun _ => Indifferent.body.bind fun _ => ?_
  split
  · exact .rejectPrevious_bind h _ _
  · exact (Indifferent.lineEnd h).bind fun _ => .pure _

theorem declaration_indifferent (scope : Scope) (n : Nat) : Indifferent s s' (declaration scope n) := by
  refine (Indifferent.advance h).bind fun _ => Indifferent.body.bind fun _ => ?_
  split
  · exact .rejectPrevious_bind h _ _
  · refine (declaredNames_indifferent h scope n).bind fun _ => ?_
    exact (Indifferent.lineEnd h).bind fun _ => .pure _

theorem assignment_indifferent (n : Nat) (first : Expr Span) : Indifferent s s' (assignment n first) := by
  have rest : ∀ more : List (Expr Span), Indifferent s s' (do
      let eq ← expect (.symbol .eq)
      if (first :: more).any (!·.isTarget) then rejectAt eq .invalidTarget
      let values ← expressions n
      lineEnd
      return Stmt.assign (spanOver eq.span (values ++ (first :: more))) (first :: more) values) := by
    intro more
    refine (Indifferent.expect h _).bind fun _ => ?_
    dsimp only
    split
    · exact .rejectAt_bind h _ _ _
    · exact (expressions_indifferent h n).bind fun _ => (Indifferent.lineEnd h).bind fun _ => .pure _
  refine (Indifferent.eat h _).bind fun _ => ?_
  dsimp only
  split
  · exact (expressions_indifferent h n).bind fun more => rest more
  · exact rest []

theorem exprStmt_indifferent (n : Nat) : Indifferent s s' (exprStmt n) := by
  refine (expression_indifferent h n).bind fun _ => (Indifferent.at? _).bind fun _ => (Indifferent.at? _).bind fun _ => ?_
  split
  · exact assignment_indifferent h n _
  · exact (Indifferent.lineEnd h).bind fun _ => .pure _

/-! ## Statements with blocks -/

mutual

theorem statement_indifferent (n : Nat) : Indifferent s s' (statement n) := by
  cases n with
  | zero => exact .outOfFuel
  | succ n =>
    rw [statement]
    refine Indifferent.peekKind.bind fun _ => ?_
    split
    · exact ifStmt_indifferent n
    · exact whileStmt_indifferent n
    · exact forStmt_indifferent n
    · exact definition_indifferent n []
    · exact decorated_indifferent n
    · exact tryStmt_indifferent n
    · exact raiseStmt_indifferent h n
    · exact returnStmt_indifferent h n
    · exact loopControl_indifferent h _ _
    · exact loopControl_indifferent h _ _
    · exact declaration_indifferent h _ n
    · exact declaration_indifferent h _ n
    · exact declaration_indifferent h _ n
    · exact .reject h _
    · exact exprStmt_indifferent h n

theorem block_indifferent (n : Nat) : Indifferent s s' (block n) := by
  cases n with
  | zero => exact .outOfFuel
  | succ n =>
    rw [block]
    refine (Indifferent.expect h _).bind fun _ => (Indifferent.expect h _).bind fun _ => ?_
    refine (Indifferent.eat h _).bind fun _ => ?_
    dsimp only
    split
    · exact .reject_bind h _ _
    · refine (blockStmts_indifferent n).bind fun _ => Indifferent.peek.bind fun _ => ?_
      exact (Indifferent.eat h _).bind fun _ => .pure _

theorem blockStmts_indifferent (n : Nat) : Indifferent s s' (blockStmts n) := by
  cases n with
  | zero => exact .outOfFuel
  | succ n =>
    rw [blockStmts]
    refine (Indifferent.at? _).bind fun _ => Indifferent.atEnd.bind fun _ => ?_
    split
    · exact .pure _
    · refine (Indifferent.eat h _).bind fun _ => ?_
      split
      · exact blockStmts_indifferent n
      · exact (item_indifferent n).bind fun _ => (blockStmts_indifferent n).bind fun _ => .pure _

theorem item_indifferent (n : Nat) : Indifferent s s' (item n) := by
  cases n with
  | zero => exact .outOfFuel
  | succ n =>
    rw [item]
    refine .recovering h ((Indifferent.eat h _).bind fun _ => ?_)
    split
    · exact (Indifferent.lineEnd h).bind fun _ => .pure _
    · exact (statement_indifferent n).bind fun _ => .pure _

theorem ifStmt_indifferent (n : Nat) : Indifferent s s' (ifStmt n) := by
  cases n with
  | zero => exact .outOfFuel
  | succ n =>
    rw [ifStmt]
    refine (Indifferent.advance h).bind fun _ => (expression_indifferent h n).bind fun _ => ?_
    exact (block_indifferent n).bind fun _ => (elsePart_indifferent n _).bind fun _ => .pure _

theorem elsePart_indifferent : ∀ n line, Indifferent s s' (elsePart n line)
  | 0, _ => .outOfFuel
  | n + 1, line => by
    rw [elsePart]
    refine (Indifferent.at? _).bind fun _ => ?_
    split
    · exact (ifStmt_indifferent n).bind fun _ => .pure _
    · refine (Indifferent.eat h _).bind fun _ => ?_
      split
      · exact block_indifferent n
      · exact .pure _

theorem whileStmt_indifferent (n : Nat) : Indifferent s s' (whileStmt n) := by
  cases n with
  | zero => exact .outOfFuel
  | succ n =>
    rw [whileStmt]
    refine (Indifferent.advance h).bind fun _ => (expression_indifferent h n).bind fun _ => ?_
    exact (Indifferent.inLoop (block_indifferent n)).bind fun _ => .pure _

theorem forStmt_indifferent (n : Nat) : Indifferent s s' (forStmt n) := by
  cases n with
  | zero => exact .outOfFuel
  | succ n =>
    rw [forStmt]
    refine (Indifferent.advance h).bind fun _ => (loopVariables_indifferent h n).bind fun _ => ?_
    refine (Indifferent.expect h _).bind fun _ => (expression_indifferent h n).bind fun _ => ?_
    exact (Indifferent.inLoop (block_indifferent n)).bind fun _ => .pure _

theorem definition_indifferent : ∀ n ds, Indifferent s s' (definition n ds)
  | 0, _ => .outOfFuel
  | n + 1, ds => by
    rw [definition]
    refine (Indifferent.expect h _).bind fun _ => (Indifferent.identifier h).bind fun _ => ?_
    refine (Indifferent.resolve _).bind fun _ => (Indifferent.expect h _).bind fun _ => ?_
    refine (params_indifferent h _ n).bind fun ps => (Indifferent.expect h _).bind fun _ => ?_
    exact (Indifferent.inFunction ps (block_indifferent n)).bind fun _ => .pure _

theorem decorated_indifferent (n : Nat) : Indifferent s s' (decorated n) := by
  cases n with
  | zero => exact .outOfFuel
  | succ n =>
    rw [decorated]
    refine (decorators_indifferent h n).bind fun ds => (Indifferent.at? _).bind fun _ => ?_
    split
    · exact definition_indifferent n ds
    · exact .reject h _

theorem tryStmt_indifferent (n : Nat) : Indifferent s s' (tryStmt n) := by
  cases n with
  | zero => exact .outOfFuel
  | succ n =>
    rw [tryStmt]
    refine (Indifferent.advance h).bind fun _ => (block_indifferent n).bind fun _ => ?_
    refine (handler_indifferent n).bind fun _ => (cleanup_indifferent n).bind fun _ => ?_
    dsimp only
    split
    · exact .reject_bind h _ _
    · exact .pure _

theorem handler_indifferent (n : Nat) : Indifferent s s' (handler n) := by
  cases n with
  | zero => exact .outOfFuel
  | succ n =>
    rw [handler]
    refine (Indifferent.eat h _).bind fun _ => ?_
    split
    · exact (handlerBinding_indifferent h).bind fun _ => (block_indifferent n).bind fun _ => .pure _
    · exact .pure _

theorem cleanup_indifferent (n : Nat) : Indifferent s s' (cleanup n) := by
  cases n with
  | zero => exact .outOfFuel
  | succ n =>
    rw [cleanup]
    refine (Indifferent.eat h _).bind fun _ => ?_
    split
    · exact (block_indifferent n).bind fun _ => .pure _
    · exact .pure _

end

theorem program_indifferent : ∀ n, Indifferent s s' (program n)
  | 0 => .outOfFuel
  | n + 1 => by
    rw [program]
    refine Indifferent.atEnd.bind fun _ => ?_
    split
    · exact .pure _
    · refine (Indifferent.eat h _).bind fun _ => ?_
      split
      · exact program_indifferent n
      · refine (Indifferent.eat h _).bind fun _ => ?_
        split
        · exact program_indifferent n
        · exact (item_indifferent h n).bind fun _ => (program_indifferent n).bind fun _ => .pure _

end Parse

/-! ## Scripts -/

namespace Source.Alike

variable (h : s.Alike s')

include h

theorem start_eq (tokens : List Token) : Parser.start s' tokens = (Parser.start s tokens).withSource s' := by
  simp only [Parser.start, Parser.withSource, h.nextToken]

theorem scanErrors_eq (ht : s'.tokens = s.tokens) : s'.scanErrors = s.scanErrors := by
  simp only [Source.scanErrors, ht, funext h.scanError?]

/-- Sources with the same tokens that diagnostics cannot tell apart are read alike. -/
theorem parse_eq (ht : s'.tokens = s.tokens) : s'.parse = s.parse := by
  have hread := Parse.program_indifferent h (parseFuel s.tokens.length) (.start s s.tokens) rfl
  unfold After at hread
  simp only [Source.parse, ht, h.start_eq]
  cases hr : Parse.program (parseFuel s.tokens.length) (.start s s.tokens) with
  | ok p q =>
    simp only [hr] at hread ⊢
    simp only [hread.2]
    rfl
  | error e q =>
    simp only [hr] at hread ⊢
    simp only [hread.2]
    rfl

end Source.Alike

/-! ## Line endings -/

theorem Source.alike_withReturns (s : Source) : s.Alike s.withReturns := ⟨rfl, s.line?_withReturns⟩

/-- Whether lines end with a line feed or with a carriage return in front of it makes no difference : the tokens with
their places, the program with its places and the diagnostics with the lines that they quote are the same, unless a
string goes over a line end. -/
theorem Source.parse_withReturns (s : Source) (h : Unbroken s.text.toList) :
    s.withReturns.tokens = s.tokens ∧ s.withReturns.scanErrors = s.scanErrors ∧ s.withReturns.parse = s.parse := by
  have ht : s.withReturns.tokens = s.tokens := by rw [tokens, tokens, s.trace_withReturns h]
  exact ⟨ht, s.alike_withReturns.scanErrors_eq ht, s.alike_withReturns.parse_eq ht⟩

/-- A comment, a block, a bracket over two lines, a faulty number, a carriage return that was there before, a faulty
statement and a string that is not closed. -/
def Source.mixed : Source :=
  ⟨"mixed", "if a: // yes\n  b = [1,\n 0x]\r\n  c = = 2\n\nd = \"open\\n"⟩

theorem Source.parse_withReturns_mixed :
    Unbroken Source.mixed.text.toList ∧
      Source.mixed.withReturns.text =
        "if a: // yes\r\n  b = [1,\r\n 0x]\r\r\n  c = = 2\r\n\r\nd = \"open\\n" ∧
      Source.mixed.withReturns.tokens = Source.mixed.tokens ∧
      Source.mixed.withReturns.scanErrors = Source.mixed.scanErrors ∧
      Source.mixed.withReturns.parse = Source.mixed.parse := by
  have h : Unbroken Source.mixed.text.toList := by decide +kernel
  exact ⟨h, by decide +kernel, Source.parse_withReturns Source.mixed h⟩

end DocScript
