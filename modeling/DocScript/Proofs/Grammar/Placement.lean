import DocScript.Proofs.Grammar.Progress
import DocScript.Proofs.Placement

/-!
# Scripts are read as well-placed programs

A parser knows where it reads : whether inside a function, inside how many loops of that function, and
which bodies enclose it. This is its `nesting`. Every reader leaves the nesting as it found it, whether
it succeeds or is rejected, and what it gives is well placed there (`Parse.Keeps`). The checks of the
grammar rest on this : a statement inside a rejected one may fail at any token, and the next statement
still meets the loops and functions that are really around it.
-/

namespace DocScript

/-- Where a parser reads. -/
structure Nesting where
  isFunction : Bool
  loopDepth : Nat
  enclosing : List Body

namespace Nesting

/-- The place of a statement that is read there. -/
def place (c : Nesting) : Place := ⟨c.isFunction, 0 < c.loopDepth⟩

/-- One loop deeper. -/
def deeper (c : Nesting) : Nesting := { c with loopDepth := c.loopDepth + 1 }

theorem place_deeper (c : Nesting) : c.deeper.place = c.place.loop := by
  simp [place, deeper, Place.loop]

/-- Inside a function whose definition is read there, in the body `b`. -/
def function (c : Nesting) (b : Body) : Nesting := ⟨true, 0, b :: c.enclosing⟩

end Nesting

namespace Parser

def nesting (p : Parser) : Nesting := ⟨p.body.isFunction, p.body.loopDepth, p.enclosing⟩

theorem nesting_synchronizeWithin :
    ∀ (n : Nat) (p : Parser), (synchronizeWithin n p).nesting = p.nesting
  | 0, _ => rfl
  | n + 1, p => by
    rw [synchronizeWithin]
    split
    · rfl
    · exact nesting_synchronizeWithin n p.advance

/-- Recovery goes on where the rejected statement was given up. -/
theorem nesting_recover (p q : Parser) : (p.recover q).nesting = q.nesting := by
  simp only [recover, synchronize]
  split
  · exact nesting_synchronizeWithin _ _
  · exact nesting_synchronizeWithin _ _

/-- Leaving a function, one is back in the body around it. -/
theorem nesting_leaveFunction {p q : Parser} (h : q.nesting = p.nesting.function p.body) :
    q.leaveFunction.nesting = p.nesting := by
  have he : q.enclosing = p.body :: p.enclosing := congrArg Nesting.enclosing h
  simp [leaveFunction, he, nesting]

theorem nesting_leaveLoop {p : Parser} {c : Nesting} (h : p.nesting = c.deeper) :
    p.leaveLoop.nesting = c := by
  have hd : p.body.loopDepth = c.loopDepth + 1 := congrArg Nesting.loopDepth h
  have hf : p.body.isFunction = c.isFunction := congrArg Nesting.isFunction h
  have he : p.enclosing = c.enclosing := congrArg Nesting.enclosing h
  simp [leaveLoop, nesting, hd, hf, he]

end Parser

/-! ## Basic readers -/

namespace Parse

variable {β γ : Type}

/-- Run at the nesting `c`, `x` ends at the same nesting, and if it succeeds `Q` holds of what it
gives. -/
def Keeps (x : Parse β) (c : Nesting) (Q : β → Prop) : Prop :=
  ∀ p : Parser, p.nesting = c →
    After x p (fun b q => q.nesting = c ∧ Q b) (fun _ q => q.nesting = c)

namespace Keeps

variable {x : Parse β} {f : β → Parse γ} {c : Nesting} {Q : β → Prop} {R : γ → Prop}

theorem pure {b : β} (h : Q b) : (Pure.pure b : Parse β).Keeps c Q :=
  fun _ hp => ⟨hp, h⟩

theorem bind (h : x.Keeps c Q) (hf : ∀ b, Q b → (f b).Keeps c R) : (x >>= f).Keeps c R :=
  fun p hp => (h p hp).bind fun b q hq => hf b hq.2 q hq.1

theorem outOfFuel : (Parse.outOfFuel : Parse β).Keeps c Q :=
  fun _ hp => hp

theorem rejectAt (t : Token) (problem : Problem) : (Parse.rejectAt t problem : Parse β).Keeps c Q :=
  fun _ hp => hp

theorem reject (problem : Problem) : (Parse.reject problem : Parse β).Keeps c Q :=
  fun _ hp => hp

theorem rejectPrevious (problem : Problem) : (Parse.rejectPrevious problem : Parse β).Keeps c Q :=
  fun _ hp => hp

theorem peek : Parse.peek.Keeps c fun _ => True :=
  fun _ hp => ⟨hp, trivial⟩

theorem peekKind : Parse.peekKind.Keeps c fun _ => True :=
  fun _ hp => ⟨hp, trivial⟩

theorem previous : Parse.previous.Keeps c fun _ => True :=
  fun _ hp => ⟨hp, trivial⟩

theorem advance : Parse.advance.Keeps c fun _ => True :=
  fun _ hp => ⟨hp, trivial⟩

theorem at? (kind : TokenKind) : (Parse.at? kind).Keeps c fun _ => True :=
  fun _ hp => ⟨hp, trivial⟩

theorem atEnd : Parse.atEnd.Keeps c fun _ => True :=
  fun _ hp => ⟨hp, trivial⟩

theorem body : Parse.body.Keeps c fun b => b.isFunction = c.isFunction ∧ b.loopDepth = c.loopDepth :=
  fun _ hp => ⟨hp, congrArg Nesting.isFunction hp, congrArg Nesting.loopDepth hp⟩

theorem resolve (name : String) : (Parse.resolve name).Keeps c fun _ => True :=
  fun _ hp => ⟨hp, trivial⟩

theorem eat (kind : TokenKind) : (Parse.eat kind).Keeps c fun _ => True :=
  fun _ hp => (after_eat kind).2 ⟨fun _ => ⟨hp, trivial⟩, fun _ => ⟨hp, trivial⟩⟩

theorem expect (kind : TokenKind) : (Parse.expect kind).Keeps c fun _ => True :=
  fun _ hp => (after_expect kind).2 ⟨fun _ => ⟨hp, trivial⟩, fun _ => hp⟩

theorem identifier : Parse.identifier.Keeps c fun _ => True :=
  fun _ hp => after_identifier.2 ⟨fun _ _ => ⟨hp, trivial⟩, fun _ => hp⟩

theorem lineEnd : Parse.lineEnd.Keeps c fun _ => True :=
  fun _ hp => after_lineEnd.2
    ⟨fun _ => ⟨hp, trivial⟩, fun _ _ => ⟨hp, trivial⟩, fun _ _ => hp⟩

theorem declare (name : String) (scope : Scope) (t : Token) :
    (Parse.declare name scope t).Keeps c fun _ => True :=
  fun _ hp => (after_declare name scope t).2 ⟨fun _ => ⟨hp, trivial⟩, fun _ _ => hp⟩

/-- The body of a function is left on every way out of it. -/
theorem inFunction (params : List String) (h : ∀ b, x.Keeps (c.function b) Q) :
    (Parse.inFunction params x).Keeps c Q := by
  rintro p rfl
  refine (after_inFunction params x).2 ((h p.body (p.enterFunction params) rfl).mono
    (fun _ q hq => ?_) fun _ q hq => ?_)
  · exact ⟨Parser.nesting_leaveFunction hq.1, hq.2⟩
  · exact Parser.nesting_leaveFunction hq

/-- So is a loop. -/
theorem inLoop (h : x.Keeps c.deeper Q) : (Parse.inLoop x).Keeps c Q := by
  rintro p rfl
  refine (after_inLoop x).2 ((h p.enterLoop rfl).mono (fun _ q hq => ?_) fun _ q hq => ?_)
  · exact ⟨Parser.nesting_leaveLoop hq.1, hq.2⟩
  · exact Parser.nesting_leaveLoop hq

/-- A rejected statement leaves a `bad` one at the nesting where it started. -/
theorem recovering {x : Parse (Option (Stmt Span))} {Q : Option (Stmt Span) → Prop}
    (h : x.Keeps c Q) (hb : ∀ span message, Q (some (.bad span message))) :
    (Parse.recovering x).Keeps c Q := by
  intro p hp
  refine (after_recovering x).2 ((h p hp).mono (fun _ _ => id) fun e q hq => ?_)
  cases e with
  | rejected => exact ⟨(Parser.nesting_recover p q).trans hq, hb _ _⟩
  | outOfFuel => exact hq

end Keeps

/-! ## Expressions -/

variable {c : Nesting}

theorem params_keeps (close : TokenKind) : ∀ n, (params close n).Keeps c fun _ => True
  | 0 => .outOfFuel
  | n + 1 => by
    rw [params]
    refine (Keeps.at? close).bind fun _ _ => ?_
    split
    · exact .pure trivial
    · refine Keeps.identifier.bind fun _ _ => (Keeps.eat _).bind fun _ _ => ?_
      split
      · exact (params_keeps close n).bind fun _ _ => .pure trivial
      · exact .pure trivial

theorem nameKey_keeps : nameKey.Keeps c Expr.Placed :=
  Keeps.identifier.bind fun _ _ => .pure trivial

theorem placed_lambdaOf (start : Span) (ps : List String) {e : Expr Span} (h : e.Placed) :
    (lambdaOf start ps e).Placed := by
  simp [lambdaOf, Expr.Placed, Function.returnsOne, Function.Placed, Block.Placed, StmtsPlaced,
    Stmt.Placed, Place.function, ExprsPlaced, h]

mutual

theorem expression_keeps : ∀ n c, (expression n).Keeps c Expr.Placed
  | 0, _ => .outOfFuel
  | n + 1, c => operation_keeps n 0 c

theorem operation_keeps : ∀ n min c, (operation n min).Keeps c Expr.Placed
  | 0, _, _ => .outOfFuel
  | n + 1, min, c => by
    rw [operation]
    exact (unary_keeps n c).bind fun left hl => operators_keeps n min hl c

theorem operators_keeps :
    ∀ n min {left : Expr Span}, left.Placed → ∀ c, (operators n min left).Keeps c Expr.Placed
  | 0, _, _, _, _ => .outOfFuel
  | n + 1, min, left, hl, c => by
    rw [operators]
    refine Keeps.peekKind.bind fun _ _ => ?_
    split
    · exact .pure hl
    · split
      · exact .pure hl
      · refine Keeps.advance.bind fun _ _ => (operation_keeps n _ c).bind fun right hr => ?_
        refine operators_keeps n min ?_ c
        exact ⟨hl, hr⟩

theorem unary_keeps : ∀ n c, (unary n).Keeps c Expr.Placed
  | 0, _ => .outOfFuel
  | n + 1, c => by
    rw [unary]
    refine Keeps.peek.bind fun t _ => ?_
    split
    · exact Keeps.advance.bind fun _ _ => (unary_keeps n c).bind fun _ he => .pure he
    · split
      · exact lambda_keeps n c
      · exact (primary_keeps n c).bind fun _ he => postfixes_keeps n he c

theorem lambda_keeps : ∀ n c, (lambda n).Keeps c Expr.Placed
  | 0, _ => .outOfFuel
  | n + 1, c => by
    rw [lambda]
    refine Keeps.advance.bind fun start _ => (params_keeps _ n).bind fun ps _ => ?_
    refine (Keeps.expect _).bind fun _ _ => ?_
    refine (Keeps.inFunction ps fun b => expression_keeps n (c.function b)).bind fun e he => ?_
    exact .pure (placed_lambdaOf start.span ps he)

theorem postfixes_keeps :
    ∀ n {e : Expr Span}, e.Placed → ∀ c, (postfixes n e).Keeps c Expr.Placed
  | 0, _, _, _ => .outOfFuel
  | n + 1, e, he, c => by
    rw [postfixes]
    refine Keeps.peekKind.bind fun _ _ => ?_
    split
    · refine Keeps.advance.bind fun _ _ => (commaList_keeps _ n c).bind fun as has => ?_
      refine (Keeps.expect _).bind fun _ _ => postfixes_keeps n ?_ c
      exact ⟨he, has⟩
    · refine Keeps.advance.bind fun _ _ => (expression_keeps n c).bind fun k hk => ?_
      refine (Keeps.expect _).bind fun _ _ => postfixes_keeps n ?_ c
      exact ⟨he, hk⟩
    · refine Keeps.advance.bind fun _ _ => nameKey_keeps.bind fun k hk => ?_
      refine postfixes_keeps n ?_ c
      exact ⟨he, hk⟩
    · refine Keeps.advance.bind fun _ _ => (arrowKey_keeps n c).bind fun k hk => ?_
      refine Keeps.previous.bind fun _ _ => postfixes_keeps n ?_ c
      exact ⟨he, hk⟩
    · refine (dictBody_keeps n c).bind fun es hes => postfixes_keeps n ?_ c
      exact ⟨he, hes⟩
    · exact .pure he

theorem arrowKey_keeps : ∀ n c, (arrowKey n).Keeps c Expr.Placed
  | 0, _ => .outOfFuel
  | n + 1, c => by
    rw [arrowKey]
    refine (Keeps.eat _).bind fun _ _ => ?_
    split
    · refine (expression_keeps n c).bind fun k hk => ?_
      exact (Keeps.expect _).bind fun _ _ => .pure hk
    · exact nameKey_keeps

theorem primary_keeps : ∀ n c, (primary n).Keeps c Expr.Placed
  | 0, _ => .outOfFuel
  | n + 1, c => by
    rw [primary]
    refine Keeps.peek.bind fun t _ => ?_
    split
    · exact Keeps.advance.bind fun _ _ => .pure trivial
    · exact Keeps.advance.bind fun _ _ => .pure trivial
    · exact Keeps.advance.bind fun _ _ => .pure trivial
    · exact Keeps.advance.bind fun _ _ => .pure trivial
    · exact Keeps.advance.bind fun _ _ => .pure trivial
    · exact (Keeps.resolve _).bind fun _ _ => Keeps.advance.bind fun _ _ => .pure trivial
    · refine Keeps.advance.bind fun _ _ => (expression_keeps n c).bind fun e he => ?_
      exact (Keeps.expect _).bind fun _ _ => .pure ((Expr.placed_reannotate _ e).2 he)
    · refine Keeps.advance.bind fun _ _ => (commaList_keeps _ n c).bind fun is his => ?_
      exact (Keeps.expect _).bind fun _ _ => .pure his
    · exact (dictBody_keeps n c).bind fun es hes => .pure hes
    · exact .reject _

theorem commaList_keeps (close : TokenKind) : ∀ n c, (commaList close n).Keeps c ExprsPlaced
  | 0, _ => .outOfFuel
  | n + 1, c => by
    rw [commaList]
    refine (Keeps.at? close).bind fun _ _ => ?_
    split
    · exact .pure trivial
    · refine (expression_keeps n c).bind fun e he => (Keeps.eat _).bind fun _ _ => ?_
      split
      · exact (commaList_keeps close n c).bind fun es hes => .pure ⟨he, hes⟩
      · exact .pure ⟨he, trivial⟩

theorem dictBody_keeps : ∀ n c, (dictBody n).Keeps c fun es => EntriesPlaced es.1
  | 0, _ => .outOfFuel
  | n + 1, c => by
    rw [dictBody]
    refine (Keeps.expect _).bind fun _ _ => (dictEntries_keeps n c).bind fun es hes => ?_
    exact (Keeps.expect _).bind fun _ _ => .pure hes

theorem dictEntries_keeps : ∀ n c, (dictEntries n).Keeps c EntriesPlaced
  | 0, _ => .outOfFuel
  | n + 1, c => by
    rw [dictEntries]
    refine (Keeps.at? _).bind fun _ _ => ?_
    split
    · exact .pure trivial
    · refine (dictKey_keeps n c).bind fun k hk => (Keeps.expect _).bind fun _ _ => ?_
      refine (expression_keeps n c).bind fun v hv => (Keeps.eat _).bind fun _ _ => ?_
      split
      · exact (dictEntries_keeps n c).bind fun es hes => .pure ⟨⟨hk, hv⟩, hes⟩
      · exact .pure ⟨⟨hk, hv⟩, trivial⟩

theorem dictKey_keeps : ∀ n c, (dictKey n).Keeps c Expr.Placed
  | 0, _ => .outOfFuel
  | n + 1, c => by
    rw [dictKey]
    refine Keeps.peek.bind fun t _ => ?_
    split
    · refine Keeps.advance.bind fun _ _ => (Keeps.at? _).bind fun _ _ => ?_
      split
      · exact .pure trivial
      · refine (Keeps.resolve _).bind fun v _ => ?_
        exact (postfixes_keeps n (e := .var t.span v) trivial c).bind fun e he =>
          operators_keeps n 0 he c
    · exact expression_keeps n c

end

/-- There is at least one expression in a list without brackets. -/
theorem expressions_keeps : ∀ n c, (expressions n).Keeps c fun es => es ≠ [] ∧ ExprsPlaced es
  | 0, _ => .outOfFuel
  | n + 1, c => by
    rw [expressions]
    refine (expression_keeps n c).bind fun e he => (Keeps.eat _).bind fun _ _ => ?_
    split
    · exact (expressions_keeps n c).bind fun es hes => .pure ⟨List.cons_ne_nil _ _, he, hes.2⟩
    · exact .pure ⟨List.cons_ne_nil _ _, he, trivial⟩

/-! ## Statements -/

theorem loopVariables_keeps : ∀ n c, (loopVariables n).Keeps c fun vs => vs ≠ []
  | 0, _ => .outOfFuel
  | n + 1, c => by
    rw [loopVariables]
    refine Keeps.identifier.bind fun _ _ => (Keeps.resolve _).bind fun v _ => ?_
    refine (Keeps.eat _).bind fun _ _ => ?_
    split
    · exact (loopVariables_keeps n c).bind fun vs _ => .pure (List.cons_ne_nil v vs)
    · exact .pure (List.cons_ne_nil v [])

theorem declaredNames_keeps (scope : Scope) :
    ∀ n c, (declaredNames scope n).Keeps c fun ns => ns ≠ []
  | 0, _ => .outOfFuel
  | n + 1, c => by
    rw [declaredNames]
    refine Keeps.peek.bind fun _ _ => Keeps.identifier.bind fun x _ => ?_
    refine (Keeps.declare _ scope _).bind fun _ _ => (Keeps.eat _).bind fun _ _ => ?_
    split
    · exact (declaredNames_keeps scope n c).bind fun xs _ => .pure (List.cons_ne_nil _ _)
    · exact .pure (List.cons_ne_nil _ _)

theorem decorators_keeps : ∀ n c, (decorators n).Keeps c ExprsPlaced
  | 0, _ => .outOfFuel
  | n + 1, c => by
    rw [decorators]
    refine (Keeps.eat _).bind fun _ _ => ?_
    split
    · refine (expression_keeps n c).bind fun d hd => (Keeps.expect _).bind fun _ _ => ?_
      exact (decorators_keeps n c).bind fun ds hds => .pure ⟨hd, hds⟩
    · exact .pure trivial

theorem handlerBinding_keeps : handlerBinding.Keeps c fun _ => True := by
  rw [handlerBinding]
  refine (Keeps.eat _).bind fun _ _ => ?_
  split
  · exact Keeps.identifier.bind fun _ _ => (Keeps.resolve _).bind fun _ _ => .pure trivial
  · exact .pure trivial

theorem raiseStmt_keeps (n : Nat) : (raiseStmt n).Keeps c (Stmt.Placed c.place) :=
  Keeps.advance.bind fun _ _ => (expression_keeps n c).bind fun _ he =>
    Keeps.lineEnd.bind fun _ _ => .pure he

/-- A `return` is read inside functions only. -/
theorem returnStmt_keeps (n : Nat) : (returnStmt n).Keeps c (Stmt.Placed c.place) := by
  refine Keeps.advance.bind fun _ _ => Keeps.body.bind fun b hb => ?_
  split
  · exact (Keeps.rejectPrevious (Q := fun _ => False) _).bind fun _ h => h.elim
  · next hf =>
    have hc : c.place.inFunction = true := by simpa [Nesting.place, hb.1] using hf
    refine (Keeps.at? _).bind fun _ _ => Keeps.atEnd.bind fun _ _ => ?_
    split
    · refine (Keeps.pure (b := []) (Q := ExprsPlaced) trivial).bind fun vs hvs => ?_
      exact Keeps.lineEnd.bind fun _ _ => .pure ⟨hc, hvs⟩
    · refine (expressions_keeps n c).bind fun vs hvs => ?_
      exact Keeps.lineEnd.bind fun _ _ => .pure ⟨hc, hvs.2⟩

/-- `break` and `continue` are read inside loops only. -/
theorem loopControl_keeps (k : Keyword) {stmt : Span → Stmt Span}
    (h : ∀ span, c.place.inLoop = true → (stmt span).Placed c.place) :
    (loopControl k stmt).Keeps c (Stmt.Placed c.place) := by
  refine Keeps.advance.bind fun t _ => Keeps.body.bind fun b hb => ?_
  split
  · exact (Keeps.rejectPrevious (Q := fun _ => False) _).bind fun _ h => h.elim
  · next hd =>
    have hc : c.place.inLoop = true := by
      rw [hb.2] at hd
      simpa [Nesting.place] using Nat.pos_of_ne_zero hd
    exact Keeps.lineEnd.bind fun _ _ => .pure (h t.span hc)

/-- Declarations are read inside functions only. -/
theorem declaration_keeps {scope : Scope} (hs : scope ≠ .dynamic) (n : Nat) :
    (declaration scope n).Keeps c (Stmt.Placed c.place) := by
  refine Keeps.advance.bind fun _ _ => Keeps.body.bind fun b hb => ?_
  split
  · exact (Keeps.rejectPrevious (Q := fun _ => False) _).bind fun _ h => h.elim
  · next hf =>
    have hc : c.place.inFunction = true := by simpa [Nesting.place, hb.1] using hf
    refine (declaredNames_keeps scope n c).bind fun ns hns => ?_
    exact Keeps.lineEnd.bind fun _ _ => .pure ⟨hc, hs, fun h => hns (List.map_eq_nil_iff.1 h)⟩

/-- An assignment is read only if all its targets can be assigned to. -/
theorem assignment_keeps {first : Expr Span} (hf : first.Placed) (n : Nat) :
    (assignment n first).Keeps c (Stmt.Placed c.place) := by
  have rest : ∀ more : List (Expr Span), ExprsPlaced more →
      (do
        let eq ← expect (.symbol .eq)
        if (first :: more).any (!·.isTarget) then rejectAt eq .invalidTarget
        let values ← expressions n
        lineEnd
        return .assign (spanOver eq.span (values ++ (first :: more))) (first :: more) values :
          Parse (Stmt Span)).Keeps c (Stmt.Placed c.place) := by
    intro more hm
    refine (Keeps.expect _).bind fun eq _ => ?_
    dsimp only
    split
    · exact (Keeps.rejectAt (Q := fun _ => False) eq _).bind fun _ h => h.elim
    · next ht =>
      refine (expressions_keeps n c).bind fun vs hvs => Keeps.lineEnd.bind fun _ _ => .pure ?_
      refine ⟨⟨List.cons_ne_nil _ _, ?_, hf, hm⟩, hvs⟩
      simpa using ht
  refine (Keeps.eat _).bind fun _ _ => ?_
  dsimp only
  split
  · exact (expressions_keeps n c).bind fun more hm => rest more hm.2
  · exact rest [] trivial

theorem exprStmt_keeps (n : Nat) : (exprStmt n).Keeps c (Stmt.Placed c.place) := by
  refine (expression_keeps n c).bind fun e he => ?_
  refine (Keeps.at? _).bind fun _ _ => (Keeps.at? _).bind fun _ _ => ?_
  split
  · exact assignment_keeps he n
  · exact Keeps.lineEnd.bind fun _ _ => .pure he

/-- What a statement of a block or a script leaves behind is well placed. -/
def ItemPlaced (c : Place) (s : Option (Stmt Span)) : Prop := StmtsPlaced c s.toList

mutual

theorem statement_keeps : ∀ n c, (statement n).Keeps c (Stmt.Placed c.place)
  | 0, _ => .outOfFuel
  | n + 1, c => by
    rw [statement]
    refine Keeps.peekKind.bind fun _ _ => ?_
    split
    · exact ifStmt_keeps n c
    · exact whileStmt_keeps n c
    · exact forStmt_keeps n c
    · exact @definition_keeps n [] trivial c
    · exact decorated_keeps n c
    · exact tryStmt_keeps n c
    · exact raiseStmt_keeps n
    · exact returnStmt_keeps n
    · exact loopControl_keeps _ fun _ => id
    · exact loopControl_keeps _ fun _ => id
    · exact declaration_keeps (by simp) n
    · exact declaration_keeps (by simp) n
    · exact declaration_keeps (by simp) n
    · exact .reject _
    · exact exprStmt_keeps n

theorem block_keeps : ∀ n c, (block n).Keeps c (Block.Placed c.place)
  | 0, _ => .outOfFuel
  | n + 1, c => by
    rw [block]
    refine (Keeps.expect _).bind fun _ _ => (Keeps.expect _).bind fun _ _ => ?_
    refine (Keeps.eat _).bind fun _ _ => ?_
    dsimp only
    split
    · exact (Keeps.reject (Q := fun _ => False) _).bind fun _ h => h.elim
    · refine (blockStmts_keeps n c).bind fun ss hss => Keeps.peek.bind fun _ _ => ?_
      exact (Keeps.eat _).bind fun _ _ => .pure hss

theorem blockStmts_keeps : ∀ n c, (blockStmts n).Keeps c (StmtsPlaced c.place)
  | 0, _ => .outOfFuel
  | n + 1, c => by
    rw [blockStmts]
    refine (Keeps.at? _).bind fun _ _ => Keeps.atEnd.bind fun _ _ => ?_
    split
    · exact .pure trivial
    · refine (Keeps.eat _).bind fun _ _ => ?_
      split
      · exact blockStmts_keeps n c
      · refine (item_keeps n c).bind fun s hs => (blockStmts_keeps n c).bind fun ss hss => ?_
        exact .pure ((stmtsPlaced_append _ _ _).2 ⟨hs, hss⟩)

theorem item_keeps : ∀ n c, (item n).Keeps c (ItemPlaced c.place)
  | 0, _ => .outOfFuel
  | n + 1, c => by
    rw [item]
    refine .recovering ?_ fun _ _ => ⟨trivial, trivial⟩
    refine (Keeps.eat _).bind fun _ _ => ?_
    split
    · exact Keeps.lineEnd.bind fun _ _ => .pure trivial
    · exact (statement_keeps n c).bind fun s hs => .pure ⟨hs, trivial⟩

theorem ifStmt_keeps : ∀ n c, (ifStmt n).Keeps c (Stmt.Placed c.place)
  | 0, _ => .outOfFuel
  | n + 1, c => by
    rw [ifStmt]
    refine Keeps.advance.bind fun _ _ => (expression_keeps n c).bind fun e he => ?_
    refine (block_keeps n c).bind fun y hy => (elsePart_keeps n _ c).bind fun m hm => ?_
    exact .pure ⟨he, hy, hm⟩

theorem elsePart_keeps : ∀ n line c, (elsePart n line).Keeps c (Block.Placed c.place)
  | 0, _, _ => .outOfFuel
  | n + 1, line, c => by
    rw [elsePart]
    refine (Keeps.at? _).bind fun _ _ => ?_
    split
    · exact (ifStmt_keeps n c).bind fun s hs => .pure ⟨hs, trivial⟩
    · refine (Keeps.eat _).bind fun _ _ => ?_
      split
      · exact block_keeps n c
      · exact .pure trivial

theorem whileStmt_keeps : ∀ n c, (whileStmt n).Keeps c (Stmt.Placed c.place)
  | 0, _ => .outOfFuel
  | n + 1, c => by
    rw [whileStmt]
    refine Keeps.advance.bind fun _ _ => (expression_keeps n c).bind fun e he => ?_
    refine (Keeps.inLoop (block_keeps n c.deeper)).bind fun b hb => .pure ⟨he, ?_⟩
    rwa [Nesting.place_deeper] at hb

theorem forStmt_keeps : ∀ n c, (forStmt n).Keeps c (Stmt.Placed c.place)
  | 0, _ => .outOfFuel
  | n + 1, c => by
    rw [forStmt]
    refine Keeps.advance.bind fun _ _ => (loopVariables_keeps n c).bind fun vs hvs => ?_
    refine (Keeps.expect _).bind fun _ _ => (expression_keeps n c).bind fun e he => ?_
    refine (Keeps.inLoop (block_keeps n c.deeper)).bind fun b hb => .pure ⟨hvs, he, ?_⟩
    rwa [Nesting.place_deeper] at hb

theorem definition_keeps :
    ∀ n {ds : List (Expr Span)}, ExprsPlaced ds →
      ∀ c, (definition n ds).Keeps c (Stmt.Placed c.place)
  | 0, _, _, _ => .outOfFuel
  | n + 1, ds, hds, c => by
    rw [definition]
    refine (Keeps.expect _).bind fun _ _ => Keeps.identifier.bind fun x _ => ?_
    refine (Keeps.resolve _).bind fun _ _ => (Keeps.expect _).bind fun _ _ => ?_
    refine (params_keeps _ n).bind fun ps _ => (Keeps.expect _).bind fun _ _ => ?_
    have hf : (inFunction ps (block n)).Keeps c (Block.Placed .function) :=
      .inFunction ps fun b => block_keeps n (c.function b)
    exact hf.bind fun b hb => .pure ⟨hds, hb⟩

theorem decorated_keeps : ∀ n c, (decorated n).Keeps c (Stmt.Placed c.place)
  | 0, _ => .outOfFuel
  | n + 1, c => by
    rw [decorated]
    refine (decorators_keeps n c).bind fun ds hds => (Keeps.at? _).bind fun _ _ => ?_
    split
    · exact definition_keeps n hds c
    · exact .reject _

theorem tryStmt_keeps : ∀ n c, (tryStmt n).Keeps c (Stmt.Placed c.place)
  | 0, _ => .outOfFuel
  | n + 1, c => by
    rw [tryStmt]
    refine Keeps.advance.bind fun _ _ => (block_keeps n c).bind fun b hb => ?_
    refine (handler_keeps n c).bind fun h hh => (cleanup_keeps n c).bind fun f hf => ?_
    dsimp only
    split
    · exact (Keeps.reject (Q := fun _ => False) _).bind fun _ h => h.elim
    · next hne =>
      refine .pure ⟨?_, hb, hh, hf⟩
      cases h <;> cases f <;> simp at hne ⊢

theorem handler_keeps : ∀ n c, (handler n).Keeps c (HandlerPlaced c.place)
  | 0, _ => .outOfFuel
  | n + 1, c => by
    rw [handler]
    refine (Keeps.eat _).bind fun _ _ => ?_
    split
    · exact handlerBinding_keeps.bind fun _ _ => (block_keeps n c).bind fun _ hb => .pure hb
    · exact .pure trivial

theorem cleanup_keeps : ∀ n c, (cleanup n).Keeps c (CleanupPlaced c.place)
  | 0, _ => .outOfFuel
  | n + 1, c => by
    rw [cleanup]
    refine (Keeps.eat _).bind fun _ _ => ?_
    split
    · exact (block_keeps n c).bind fun _ hb => .pure hb
    · exact .pure trivial

end

/-! ## Programs -/

theorem program_keeps : ∀ n c, (program n).Keeps c (StmtsPlaced c.place)
  | 0, _ => .outOfFuel
  | n + 1, c => by
    rw [program]
    refine Keeps.atEnd.bind fun _ _ => ?_
    split
    · exact .pure trivial
    · refine (Keeps.eat _).bind fun _ _ => ?_
      split
      · exact program_keeps n c
      · refine (Keeps.eat _).bind fun _ _ => ?_
        split
        · exact program_keeps n c
        · refine (item_keeps n c).bind fun s hs => (program_keeps n c).bind fun ss hss => ?_
          exact .pure ((stmtsPlaced_append _ _ _).2 ⟨hs, hss⟩)

end Parse

/-- The program of a script is well placed, and its reader ends where it started : outside of every
function and loop. -/
theorem Source.program_keeps (s : Source) :
    ∃ q, Parse.program (parseFuel s.tokens.length) (.start s s.tokens) = .ok s.parse.program q ∧
      q.nesting = ⟨false, 0, []⟩ ∧ s.parse.program.Placed := by
  obtain ⟨q, hq⟩ := s.exists_program
  have h := Parse.program_keeps (parseFuel s.tokens.length) ⟨false, 0, []⟩ (.start s s.tokens) rfl
  rw [after_of_ok hq] at h
  exact ⟨q, hq, h.1, h.2⟩

/-- Whatever the script is, reading it comes to an end with a program in which everything stands where
it may, at every depth, and at the end the parser is in the body of the module, outside of every loop
and with no body around it. -/
theorem Source.parse_placed (s : Source) : s.parse.program.Placed ∧
    ∃ q, Parse.program (parseFuel s.tokens.length) (.start s s.tokens) = .ok s.parse.program q ∧
      q.body.isFunction = false ∧ q.body.loopDepth = 0 ∧ q.enclosing = [] := by
  obtain ⟨q, hq, hn, hp⟩ := s.program_keeps
  exact ⟨hp, q, hq, congrArg Nesting.isFunction hn, congrArg Nesting.loopDepth hn,
    congrArg Nesting.enclosing hn⟩

end DocScript
