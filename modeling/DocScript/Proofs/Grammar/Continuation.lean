import DocScript.Proofs.Grammar.Abreast
import DocScript.Proofs.Grammar.Scoping
import DocScript.Proofs.Print.Statements

/-!
# A script is read like the beginning of a longer one

Each reader follows itself : if it reads a part of the first script without complaint, it reads the same in the longer
one, up to spans (`expression_follows`, `statement_follows`). In between, the two parsers stand at tokens of the same
kind (`Outlook.Abreast`); behind a statement they may part, if the first script ends there (`Outlook.Beside`). The
longer script takes more fuel, by any amount `m`.

`program_follows` is the run : the longer script goes on in front of the rest where the first one ends. The rest must
not start with a token that goes on with a statement, and `program_unclean` says that no script without diagnostics
does.
-/

set_option linter.unusedSectionVars false

namespace DocScript

theorem BinaryOp.isLexeme_of_ofToken? {k : TokenKind} {op : BinaryOp} (h : ofToken? k = some op) :
    k.isLexeme = true := by
  unfold ofToken? at h
  split at h <;> first | rfl | contradiction

theorem UnaryOp.isLexeme_of_ofToken? {k : TokenKind} {op : UnaryOp} (h : ofToken? k = some op) : k.isLexeme = true := by
  unfold ofToken? at h
  split at h <;> first | rfl | contradiction

theorem any_isTarget_of_erase_eq : ∀ {xs ys : List (Expr Span)}, eraseExprs ys = eraseExprs xs →
    ys.any (!·.isTarget) = xs.any (!·.isTarget)
  | [], [], _ => rfl
  | x :: xs, y :: ys, h => by
    obtain ⟨he, hes⟩ := List.cons.inj h
    rw [List.any_cons, List.any_cons, any_isTarget_of_erase_eq hes, Expr.isTarget_of_erase_eq he]
  | [], _ :: _, h => by simp [eraseExprs] at h
  | _ :: _, [], h => by simp [eraseExprs] at h

theorem eraseStmts_append {α : Type} (ss ts : List (Stmt α)) :
    eraseStmts (ss ++ ts) = eraseStmts ss ++ eraseStmts ts := by
  induction ss with
  | nil => rfl
  | cons s ss ih => rw [List.cons_append, eraseStmts, eraseStmts, ih, List.cons_append]

namespace Parse

open Outlook

variable (o : Outlook) (m : Nat)

/-! ## Expressions -/

theorem params_follows (close : TokenKind) : ∀ n blocks depth c,
    Follows (o.Abreast ⟨blocks, depth, true, c⟩) (params close n) (params close (m + n)) id
      fun _ => o.Inside blocks depth
  | 0, _, _, _ => .outOfFuel
  | n + 1, blocks, depth, c => by
    rw [← Nat.add_assoc, params, params]
    refine (Follows.at? Abreast.current close).cases_bind ?_ ?_
    · exact .pure rfl fun _ _ h => ⟨c, h⟩
    · refine Follows.identifier.bind fun x y hxy => .eat_bind rfl ?_ ?_
      · exact (params_follows close n blocks depth false).bind fun xs ys h => .pure (congrArg₂ List.cons hxy h) fun _ _ => id
      · exact .pure (congrArg (fun x => [x]) hxy) fun _ _ h => ⟨true, h⟩

theorem nameKey_follows (s : Stance) :
    Follows (o.Abreast s) nameKey nameKey Expr.erase fun _ => o.Abreast s.ended :=
  Follows.identifier.bind fun _ _ h => .pure (by simp [Expr.erase, h]) fun _ _ => id

mutual

theorem expression_follows : ∀ n s,
    Follows (o.Abreast s) (expression n) (expression (m + n)) Expr.erase fun _ => o.Abreast s.ended
  | 0, _ => .outOfFuel
  | n + 1, s => operation_follows n 0 s

theorem operation_follows : ∀ n min s,
    Follows (o.Abreast s) (operation n min) (operation (m + n) min) Expr.erase fun _ => o.Abreast s.ended
  | 0, _, _ => .outOfFuel
  | n + 1, min, s => by
    rw [← Nat.add_assoc, operation, operation]
    exact (unary_follows n s).bind fun e e' he => operators_follows n min e e' s he

theorem operators_follows : ∀ n min (e e' : Expr Span) (s : Stance), e'.erase = e.erase →
    Follows (o.Abreast s.ended) (operators n min e) (operators (m + n) min e') Expr.erase fun _ => o.Abreast s.ended
  | 0, _, _, _, _, _ => .outOfFuel
  | n + 1, min, e, e', s, he => by
    rw [← Nat.add_assoc, operators, operators]
    refine Follows.peekKind.bind fun k k' hk => ?_
    obtain rfl : k' = k := hk
    split
    · exact .pure he fun _ _ => At.toAbreast
    · next op hop =>
      split
      · exact .pure he fun _ _ => At.toAbreast
      · refine (Follows.advance (BinaryOp.isLexeme_of_ofToken? hop)).bind fun _ _ _ => ?_
        refine (operation_follows n _ _).bind fun r r' hr => ?_
        -- behind the right operand the stance is as behind the left one
        rw [Stance.ended_pass_binary _ hop]
        exact operators_follows n min _ _ s (by simp [Expr.erase, he, hr])

theorem unary_follows : ∀ n s,
    Follows (o.Abreast s) (unary n) (unary (m + n)) Expr.erase fun _ => o.Abreast s.ended
  | 0, _ => .outOfFuel
  | n + 1, s => by
    rw [← Nat.add_assoc, unary, unary]
    refine Follows.peek.bind fun t t' ht => ?_
    rw [ht]
    split
    · next op hop =>
      refine (Follows.advance (UnaryOp.isLexeme_of_ofToken? hop)).bind fun _ _ _ => ?_
      refine (unary_follows n _).bind fun e e' he => ?_
      rw [Stance.ended_pass_unary _ hop]
      exact .pure (by simp [Expr.erase, he]) fun _ _ => id
    · split
      · next hk =>
        rw [hk]
        exact lambda_follows n s
      · refine ((primary_follows n s).weaken fun _ _ => At.toAbreast).bind fun e e' he => ?_
        exact postfixes_follows n e e' s he

theorem lambda_follows : ∀ n s,
    Follows (o.At (.keyword .lambda) s) (lambda n) (lambda (m + n)) Expr.erase fun _ => o.Abreast s.ended
  | 0, _ => .outOfFuel
  | n + 1, s => by
    rw [← Nat.add_assoc, lambda, lambda]
    refine (Follows.advance rfl).bind fun t t' _ => (params_follows o m _ n _ _ _).bind fun ps ps' hps => ?_
    obtain rfl : ps' = ps := hps
    refine (Follows.expect_inside rfl).bind fun _ _ _ => ?_
    refine (Follows.inFunction ps' (expression_follows n _) (fun h => h.enterFunction ps')
      Abreast.leaveFunction).bind fun e e' he => ?_
    exact .pure (by simp [lambdaOf, Expr.erase, Function.erase, Block.erase, eraseStmts, Stmt.erase, eraseExprs, he])
      fun _ _ => id

theorem postfixes_follows : ∀ n (e e' : Expr Span) (s : Stance), e'.erase = e.erase →
    Follows (o.Abreast s.ended) (postfixes n e) (postfixes (m + n) e') Expr.erase fun _ => o.Abreast s.ended
  | 0, _, _, _, _ => .outOfFuel
  | n + 1, e, e', s, he => by
    rw [← Nat.add_assoc, postfixes, postfixes]
    refine Follows.peekKind.bind fun k k' hk => ?_
    obtain rfl : k' = k := hk
    split
    · refine (Follows.advance rfl).bind fun _ _ _ => (commaList_follows _ n _ _ _).bind fun as as' has => ?_
      refine (Follows.expect_inside rfl).bind fun _ _ _ => ?_
      exact postfixes_follows n _ _ s (by simp [Expr.erase, he, has])
    · refine (Follows.advance rfl).bind fun _ _ _ => (expression_follows n _).bind fun i i' hi => ?_
      refine (Follows.expect rfl).bind fun _ _ _ => ?_
      exact postfixes_follows n _ _ s (by simp [Expr.erase, he, hi])
    · refine (Follows.advance rfl).bind fun _ _ _ => (nameKey_follows o _).bind fun i i' hi => ?_
      exact postfixes_follows n _ _ s (by simp [Expr.erase, he, hi])
    · refine (Follows.advance rfl).bind fun _ _ _ => (arrowKey_follows n _).bind fun i i' hi => ?_
      refine Follows.previous.bind fun _ _ _ => ?_
      exact postfixes_follows n _ _ s (by simp [Expr.erase, he, hi])
    · refine ((dictBody_follows n _).weaken fun _ _ => At.toAbreast).bind fun x x' hx => ?_
      exact postfixes_follows n _ _ s (by simp [Expr.erase, he, hx])
    · exact .pure he fun _ _ => At.toAbreast

theorem arrowKey_follows : ∀ n s,
    Follows (o.Abreast s) (arrowKey n) (arrowKey (m + n)) Expr.erase fun _ => o.Abreast s.ended
  | 0, _ => .outOfFuel
  | n + 1, s => by
    rw [← Nat.add_assoc, arrowKey, arrowKey]
    refine .eat_bind rfl ?_ (nameKey_follows o s)
    refine (expression_follows n _).bind fun e e' he => (Follows.expect rfl).bind fun _ _ _ => ?_
    exact .pure he fun _ _ => id

theorem primary_follows : ∀ n s,
    Follows (o.Abreast s) (primary n) (primary (m + n)) Expr.erase fun _ => o.Abreast s.ended
  | 0, _ => .outOfFuel
  | n + 1, s => by
    rw [← Nat.add_assoc, primary, primary]
    refine Follows.peek.bind fun t t' ht => ?_
    rw [ht]
    generalize t.kind = k
    split
    · exact (Follows.advance rfl).bind fun _ _ _ => .pure rfl fun _ _ => id
    · exact (Follows.advance rfl).bind fun _ _ _ => .pure rfl fun _ _ => id
    · exact (Follows.advance rfl).bind fun _ _ _ => .pure rfl fun _ _ => id
    · exact (Follows.advance rfl).bind fun _ _ _ => .pure rfl fun _ _ => id
    · exact (Follows.advance rfl).bind fun _ _ _ => .pure rfl fun _ _ => id
    · refine (Follows.resolve_at _).bind fun v v' hv => ?_
      obtain rfl : v' = v := hv
      exact (Follows.advance rfl).bind fun _ _ _ => .pure rfl fun _ _ => id
    · refine (Follows.advance rfl).bind fun _ _ _ => (expression_follows n _).bind fun e e' he => ?_
      refine (Follows.expect rfl).bind fun _ _ _ => ?_
      exact .pure (by rw [Expr.erase_reannotate, Expr.erase_reannotate, he]) fun _ _ => id
    · refine (Follows.advance rfl).bind fun _ _ _ => (commaList_follows _ n _ _ _).bind fun es es' hes => ?_
      refine (Follows.expect_inside rfl).bind fun _ _ _ => ?_
      exact .pure (by simp [Expr.erase, hes]) fun _ _ => id
    · refine ((dictBody_follows n _).weaken fun _ _ => At.toAbreast).bind fun x x' hx => ?_
      exact .pure (by simp [Expr.erase, hx]) fun _ _ => id
    · exact .reject _

theorem commaList_follows (close : TokenKind) : ∀ n blocks depth c,
    Follows (o.Abreast ⟨blocks, depth, true, c⟩) (commaList close n) (commaList close (m + n)) eraseExprs
      fun _ => o.Inside blocks depth
  | 0, _, _, _ => .outOfFuel
  | n + 1, blocks, depth, c => by
    rw [← Nat.add_assoc, commaList, commaList]
    refine (Follows.at? Abreast.current close).cases_bind ?_ ?_
    · exact .pure rfl fun _ _ h => ⟨c, h⟩
    · refine (expression_follows n _).bind fun e e' he => .eat_bind rfl ?_ ?_
      · refine (commaList_follows close n blocks depth false).bind fun es es' hes => ?_
        exact .pure (congrArg₂ List.cons he hes) fun _ _ => id
      · exact .pure (by simp [eraseExprs, he]) fun _ _ h => ⟨true, h⟩

theorem dictBody_follows : ∀ n s,
    Follows (o.Abreast s) (dictBody n) (dictBody (m + n)) (fun x => eraseEntries x.1) fun _ => o.Abreast s.ended
  | 0, _ => .outOfFuel
  | n + 1, s => by
    rw [← Nat.add_assoc, dictBody, dictBody]
    refine (Follows.expect rfl).bind fun _ _ _ => (dictEntries_follows n _ _ _).bind fun es es' hes => ?_
    exact (Follows.expect_inside rfl).bind fun _ _ _ => .pure hes fun _ _ => id

theorem dictEntries_follows : ∀ n blocks depth c,
    Follows (o.Abreast ⟨blocks, depth, true, c⟩) (dictEntries n) (dictEntries (m + n)) eraseEntries
      fun _ => o.Inside blocks depth
  | 0, _, _, _ => .outOfFuel
  | n + 1, blocks, depth, c => by
    rw [← Nat.add_assoc, dictEntries, dictEntries]
    refine (Follows.at? Abreast.current _).cases_bind ?_ ?_
    · exact .pure rfl fun _ _ h => ⟨c, h⟩
    · refine (dictKey_follows n _).bind fun i i' hi => (Follows.expect rfl).bind fun _ _ _ => ?_
      refine (expression_follows n _).bind fun e e' he => .eat_bind rfl ?_ ?_
      · refine (dictEntries_follows n blocks depth false).bind fun es es' hes => ?_
        exact .pure (by simp [eraseEntries, hi, he, hes]) fun _ _ => id
      · exact .pure (by simp [eraseEntries, hi, he]) fun _ _ h => ⟨true, h⟩

theorem dictKey_follows : ∀ n s,
    Follows (o.Abreast s) (dictKey n) (dictKey (m + n)) Expr.erase fun _ => o.Abreast s.ended
  | 0, _ => .outOfFuel
  | n + 1, s => by
    rw [← Nat.add_assoc, dictKey, dictKey]
    refine Follows.peek.bind fun t t' ht => ?_
    rw [ht]
    generalize t.kind = k
    split
    · refine (Follows.advance rfl).bind fun _ _ _ => (Follows.at? Abreast.current _).cases_bind ?_ ?_
      · exact .pure rfl fun _ _ => id
      · refine (Follows.resolve _).bind fun v v' hv => ?_
        obtain rfl : v' = v := hv
        refine (postfixes_follows n (.var t.span v') (.var t'.span v') s rfl).bind fun e e' he => ?_
        exact operators_follows n 0 e e' s he
    · exact (expression_follows n s).weaken fun _ _ => At.toAbreast

end

theorem expressions_follows : ∀ n s,
    Follows (o.Abreast s) (expressions n) (expressions (m + n)) eraseExprs fun _ => o.Abreast s.ended
  | 0, _ => .outOfFuel
  | n + 1, s => by
    rw [← Nat.add_assoc, expressions, expressions]
    refine (expression_follows o m n _).bind fun e e' he => .eat_bind rfl ?_ ?_
    · refine (expressions_follows n _).bind fun es es' hes => ?_
      exact .pure (congrArg₂ List.cons he hes) fun _ _ => id
    · exact .pure (by simp [eraseExprs, he]) fun _ _ => id

/-! ## Statements of one line -/

theorem loopVariables_follows : ∀ n s,
    Follows (o.Abreast s) (loopVariables n) (loopVariables (m + n)) id fun _ => o.Abreast s.ended
  | 0, _ => .outOfFuel
  | n + 1, s => by
    rw [← Nat.add_assoc, loopVariables, loopVariables]
    refine .identifier_bind fun name _ _ => ?_
    refine (Follows.resolve name).bind fun v v' hv => ?_
    obtain rfl : v' = v := hv
    refine .eat_bind rfl ?_ (.pure rfl fun _ _ => id)
    exact (loopVariables_follows n _).bind fun vs vs' hvs => .pure (congrArg (v' :: ·) hvs) fun _ _ => id

/-- Names are declared inside a function. -/
theorem declaredNames_follows (scope : Scope) : ∀ n s,
    Follows (fun p q => o.Abreast s p q ∧ p.body.isFunction = true) (declaredNames scope n)
      (declaredNames scope (m + n)) (List.map Prod.fst) fun _ => o.Abreast s.ended
  | 0, _ => .outOfFuel
  | n + 1, s => by
    rw [← Nat.add_assoc, declaredNames, declaredNames]
    refine Follows.peekSpan.bind fun t t' _ => ?_
    have hname := Follows.identifier (o := o) (s := s)
    refine (hname.frame (·.isFunction = true) fun p => ?_).bind fun x y hname => ?_
    · exact after_identifier.2 ⟨fun _ _ => rfl, fun _ => trivial⟩
    obtain ⟨name, _⟩ := x
    obtain ⟨name', _⟩ := y
    obtain rfl : name' = name := hname
    refine (Follows.declare name' scope t t').bind fun _ _ _ => ?_
    refine (Follows.eat (k := .symbol .comma) (Q := fun b p q => (if b then o.Abreast (s.ended.pass (.symbol .comma))
      else o.Abreast s.ended) p q ∧ p.body.isFunction = true) ?_ ?_ ?_).cases_bind ?_ ?_
    · exact fun h => by rw [h.1.current]
    · exact fun h he => ⟨h.1.advance he rfl, h.2⟩
    · exact fun h _ => h
    · refine (declaredNames_follows scope n _).bind fun xs ys hxs => ?_
      exact .pure (congrArg (name' :: ·) hxs) fun _ _ => id
    · exact .pure rfl fun _ _ => And.left

theorem handlerBinding_follows (blocks depth : Nat) (c : Bool) :
    Follows (o.Abreast ⟨blocks, depth, true, c⟩) handlerBinding handlerBinding id fun _ => o.Inside blocks depth := by
  rw [handlerBinding]
  refine .eat_bind rfl ?_ (.pure rfl fun _ _ h => ⟨c, h⟩)
  refine .identifier_bind fun name _ _ => ?_
  refine (Follows.resolve name).bind fun v v' hv => .pure (congrArg some hv) fun _ _ h => ⟨true, h⟩

variable (l : Nat)

theorem raiseStmt_follows (n : Nat) :
    Follows (o.At (.keyword .raise) (.between l)) (raiseStmt n) (raiseStmt (m + n)) Stmt.erase
      fun _ => o.Beside (.between l) := by
  refine (Follows.advance rfl).bind fun _ _ _ => (expression_follows o m n _).bind fun e e' he => ?_
  exact Follows.lineEnd.bind fun _ _ _ => .pure (by simp [Stmt.erase, he]) fun _ _ => id

theorem returnStmt_follows (n : Nat) :
    Follows (o.At (.keyword .return_) (.between l)) (returnStmt n) (returnStmt (m + n)) Stmt.erase
      fun _ => o.Beside (.between l) := by
  refine (Follows.advance rfl).bind fun _ _ _ => Follows.body.bind fun b b' hb => ?_
  obtain ⟨hfunction, -⟩ := Prod.mk.inj hb
  dsimp only
  rw [hfunction]
  split
  · exact .rejectPrevious_bind _ _
  · refine (Follows.at? (fun h => h.1.current) _).bind fun x x' hx => ?_
    obtain rfl : x' = x := hx
    refine (Follows.atEnd fun h => h.1.current).bind fun y y' hy => ?_
    obtain rfl : y' = y := hy
    split
    · refine (Follows.lineEnd.weaken fun _ _ => And.left).bind fun _ _ _ => ?_
      exact .pure (by simp [Stmt.erase]) fun _ _ => id
    · refine ((expressions_follows o m n _).weaken fun _ _ => And.left).bind fun es es' hes => ?_
      exact Follows.lineEnd.bind fun _ _ _ => .pure (by simp [Stmt.erase, hes]) fun _ _ => id

theorem loopControl_follows {k : Keyword} (hk : k.canEndLine = true) {stmt : Span → Stmt Span}
    (h : ∀ a b, (stmt a).erase = (stmt b).erase) :
    Follows (o.At (.keyword k) (.between l)) (loopControl k stmt) (loopControl k stmt) Stmt.erase
      fun _ => o.Beside (.between l) := by
  have hstance : (Stance.between l).pass (.keyword k) = (Stance.between l).ended := by
    simp [Stance.pass, Stance.ended, Stance.between, TokenKind.canEndLine, hk, Layout.bracket]
  refine (Follows.advance rfl).bind fun _ _ _ => Follows.body.bind fun b b' hb => ?_
  obtain ⟨-, hloop⟩ := Prod.mk.inj hb
  dsimp only
  rw [hloop, hstance]
  split
  · exact .rejectPrevious_bind _ _
  · exact (Follows.lineEnd.weaken fun _ _ => And.left).bind fun _ _ _ => .pure (h _ _) fun _ _ => id

theorem declaration_follows (k : Keyword) (scope : Scope) (n : Nat) :
    Follows (o.At (.keyword k) (.between l)) (declaration scope n) (declaration scope (m + n)) Stmt.erase
      fun _ => o.Beside (.between l) := by
  refine (Follows.advance rfl).bind fun _ _ _ => Follows.body.bind fun b b' hb => ?_
  obtain ⟨hfunction, -⟩ := Prod.mk.inj hb
  dsimp only
  rw [hfunction]
  split
  · exact .rejectPrevious_bind _ _
  · next hf =>
    have hnames := declaredNames_follows o m scope n ((Stance.between l).pass (.keyword k))
    refine (hnames.weaken ?_).bind fun xs ys hxs => ?_
    · rintro p q ⟨h, rfl⟩
      exact ⟨h, by simpa using hf⟩
    · exact Follows.lineEnd.bind fun _ _ _ => .pure (by simp [Stmt.erase, hxs]) fun _ _ => id

theorem assignment_follows (n : Nat) {e e' : Expr Span} (he : e'.erase = e.erase) :
    Follows (o.Abreast (Stance.between l).ended) (assignment n e) (assignment (m + n) e') Stmt.erase
      fun _ => o.Beside (.between l) := by
  have rest (es es' : List (Expr Span)) (hes : eraseExprs es' = eraseExprs es) :
      Follows (o.Abreast (Stance.between l).ended)
      (do
        let eq ← expect (.symbol .eq)
        if (e :: es).any (!·.isTarget) then rejectAt eq .invalidTarget
        let values ← expressions n
        lineEnd
        return .assign (spanOver eq.span (values ++ (e :: es))) (e :: es) values)
      (do
        let eq ← expect (.symbol .eq)
        if (e' :: es').any (!·.isTarget) then rejectAt eq .invalidTarget
        let values ← expressions (m + n)
        lineEnd
        return .assign (spanOver eq.span (values ++ (e' :: es'))) (e' :: es') values)
      Stmt.erase fun _ => o.Beside (.between l) := by
    have htargets : eraseExprs (e' :: es') = eraseExprs (e :: es) := congrArg₂ List.cons he hes
    refine (Follows.expect rfl).bind fun _ _ _ => ?_
    dsimp only
    rw [any_isTarget_of_erase_eq htargets]
    split
    · exact .rejectAt_bind _ _ _
    · refine (expressions_follows o m n _).bind fun vs vs' hvs => ?_
      exact Follows.lineEnd.bind fun _ _ _ => .pure (by simp [Stmt.erase, eraseExprs, he, hes, hvs]) fun _ _ => id
  refine .eat_bind rfl ?_ ?_
  · exact (expressions_follows o m n _).bind fun es es' hes => rest es es' hes
  · exact rest [] [] rfl

theorem exprStmt_follows (n : Nat) :
    Follows (o.Abreast (.between l)) (exprStmt n) (exprStmt (m + n)) Stmt.erase fun _ => o.Beside (.between l) := by
  refine (expression_follows o m n _).bind fun e e' he => ?_
  refine (Follows.at? Abreast.current _).bind fun x x' hx => ?_
  obtain rfl : x' = x := hx
  refine (Follows.at? Abreast.current _).bind fun y y' hy => ?_
  obtain rfl : y' = y := hy
  split
  · exact assignment_follows o m l n he
  · exact Follows.lineEnd.bind fun _ _ _ => .pure (by simp [Stmt.erase, he]) fun _ _ => id

/-! ## Statements with blocks -/

/-- Behind the last decorator a definition has to follow, so a script does not end there without complaint. -/
theorem decorators_bind_follows {β ν : Type} {view : β → ν} {R : β → Parser → Parser → Prop} :
    ∀ (n : Nat) {f g : List (Expr Span) → Parse β},
      (∀ ds ds', eraseExprs ds' = eraseExprs ds → Follows (o.Abreast (.between l)) (f ds) (g ds') view R) →
      (∀ ds p, p.atEnd = true → After (f ds) p (fun _ p' => ¬p'.Clean) fun e p' => e = .rejected → ¬p'.Clean) →
      Follows (o.Abreast (.between l)) (decorators n >>= f) (decorators (m + n) >>= g) view R
  | 0, _, _, _, _ => .outOfFuel_bind _
  | n + 1, f, g, hf, hend => by
    rw [← Nat.add_assoc, decorators, decorators, bind_assoc, bind_assoc]
    refine .eat_bind rfl ?_ (hf [] [] rfl)
    simp only [if_true, bind_assoc, pure_bind]
    refine (expression_follows o m n _).bind fun d d' hd => ?_
    refine ((Follows.expect_beside (by simp)).weaken fun _ _ => Abreast.toBeside).bind fun _ _ _ => ?_
    refine (decorators_bind_follows n (fun ds ds' hds => hf _ _ ?_) fun ds => hend _).of_abreast fun p he => ?_
    · exact congrArg₂ List.cons hd hds
    · cases n with
      | zero => exact fun h => absurd h (by simp)
      | succ n =>
        have hk : p.current.kind ≠ .symbol .at_ := fun hk => by simp [Parser.atEnd, hk] at he
        rw [decorators, bind_assoc, after_bind, after_eat]
        exact ⟨fun h => absurd h hk, fun _ => hend [d] p he⟩

mutual

theorem statement_follows : ∀ n l,
    Follows (o.Abreast (.between l)) (statement n) (statement (m + n)) Stmt.erase fun _ => o.Beside (.between l)
  | 0, _ => .outOfFuel
  | n + 1, l => by
    rw [← Nat.add_assoc, statement, statement]
    refine Follows.peekKind.bind fun k k' hk => ?_
    obtain rfl : k' = k := hk
    split
    · exact ifStmt_follows n l _
    · exact whileStmt_follows n l
    · exact forStmt_follows n l
    · exact (definition_follows n l [] [] rfl).weaken fun _ _ => At.toAbreast
    · exact (decorated_follows n l).weaken fun _ _ => At.toAbreast
    · exact tryStmt_follows n l
    · exact raiseStmt_follows o m l n
    · exact returnStmt_follows o m l n
    · exact loopControl_follows o l rfl fun _ _ => rfl
    · exact loopControl_follows o l rfl fun _ _ => rfl
    · exact declaration_follows o m l _ _ n
    · exact declaration_follows o m l _ _ n
    · exact declaration_follows o m l _ _ n
    · exact .reject _
    · exact (exprStmt_follows o m l n).weaken fun _ _ => At.toAbreast

theorem block_follows : ∀ n l,
    Follows (o.Inside l 0) (block n) (block (m + n)) Block.erase fun _ => o.Beside (.between l)
  | 0, _ => .outOfFuel
  | n + 1, l => by
    rw [← Nat.add_assoc, block, block]
    refine (Follows.expect_inside rfl).bind fun _ _ _ => ?_
    refine ((Follows.expect_beside (by simp)).weaken fun _ _ => Abreast.toBeside).bind fun _ _ _ => ?_
    -- the first script may end here; then it is rejected, and the rest does not open a block in its place
    refine .eat_bind_apart (by simp) (o.head rfl) ?_ (.reject_bind _ _)
    refine (blockStmts_follows n l).bind fun ss ss' hss => Follows.peekSpan.bind fun t t' _ => ?_
    refine (Follows.eat (k := .dedent) (Q := fun _ => o.Beside (.between l)) ?_ ?_ ?_).bind fun _ _ _ => ?_
    · exact fun h => by rw [h.current]
    · exact fun h he => h.toBeside.advance he (by simp)
    · exact fun h hne => absurd h.kind hne
    · exact .pure (by simp [Block.erase, hss]) fun _ _ => id

theorem blockStmts_follows : ∀ n l,
    Follows (o.Beside (.between (l + 1))) (blockStmts n) (blockStmts (m + n)) eraseStmts
      fun _ => o.At .dedent (.between (l + 1))
  | 0, _ => .outOfFuel
  | n + 1, l => by
    rw [← Nat.add_assoc, blockStmts, blockStmts]
    -- the text does not end inside a block, so the block ends with a dedent
    refine Follows.weaken ?_ fun _ _ h => h.abreast (.inr (Nat.succ_ne_zero l))
    refine .at?_bind ?_ (.atEnd_bind_inside (Nat.succ_ne_zero l) ?_ ?_)
    · exact (Follows.atEnd fun h => h.current).bind fun _ _ _ => .pure rfl fun _ _ => id
    · exact .pure rfl fun _ _ => False.elim
    · refine (Follows.eat (k := .newline) (Q := fun b => if b then o.Beside (.between (l + 1)) else
        o.Abreast (.between (l + 1))) ?_ ?_ ?_).cases_bind ?_ ?_
      · exact fun h => by rw [h.current]
      · exact fun h he => h.toBeside.advance he (by simp)
      · exact fun h _ => h
      · exact blockStmts_follows n l
      · refine (item_follows n _).bind fun s s' hs => (blockStmts_follows n l).bind fun ss ss' hss => ?_
        exact .pure (by rw [eraseStmts_append, eraseStmts_append, hs, hss]) fun _ _ => id

theorem item_follows : ∀ n l,
    Follows (o.Abreast (.between l)) (item n) (item (m + n)) (fun s => eraseStmts s.toList)
      fun _ => o.Beside (.between l)
  | 0, _ => .outOfFuel
  | n + 1, l => by
    rw [← Nat.add_assoc, item, item]
    refine .recovering (.eat_bind rfl ?_ ?_)
    · exact Follows.lineEnd.bind fun _ _ _ => .pure rfl fun _ _ => id
    · exact (statement_follows n l).bind fun s s' hs => .pure (by simp [eraseStmts, hs]) fun _ _ => id

theorem ifStmt_follows : ∀ n l k,
    Follows (o.At (.keyword k) (.between l)) (ifStmt n) (ifStmt (m + n)) Stmt.erase fun _ => o.Beside (.between l)
  | 0, _, _ => .outOfFuel
  | n + 1, l, k => by
    rw [← Nat.add_assoc, ifStmt, ifStmt]
    refine (Follows.advance rfl).bind fun _ _ _ => (expression_follows o m n _).bind fun e e' he => ?_
    refine ((block_follows n l).weaken fun _ _ h => ⟨_, h⟩).bind fun b b' hb => ?_
    refine (elsePart_follows n l _ _).bind fun c c' hc => ?_
    exact .pure (by simp [Stmt.erase, he, hb, hc]) fun _ _ => id

theorem elsePart_follows : ∀ n l line line',
    Follows (o.Beside (.between l)) (elsePart n line) (elsePart (m + n) line') Block.erase
      fun _ => o.Beside (.between l)
  | 0, _, _, _ => .outOfFuel
  | n + 1, l, line, line' => by
    rw [← Nat.add_assoc, elsePart, elsePart]
    -- behind the block the first script may end, and the rest goes on with another statement
    refine .at?_bind_apart (by simp) (o.head rfl) ?_ (.eat_bind_apart (by simp) (o.head rfl) ?_ ?_)
    · refine (ifStmt_follows n l _).bind fun s s' hs => ?_
      exact .pure (by simp [Block.erase, eraseStmts, hs]) fun _ _ => id
    · exact (block_follows n l).weaken fun _ _ h => ⟨_, h.abreast (.inl rfl)⟩
    · exact .pure rfl fun _ _ => id

theorem whileStmt_follows : ∀ n l,
    Follows (o.At (.keyword .while_) (.between l)) (whileStmt n) (whileStmt (m + n)) Stmt.erase
      fun _ => o.Beside (.between l)
  | 0, _ => .outOfFuel
  | n + 1, l => by
    rw [← Nat.add_assoc, whileStmt, whileStmt]
    refine (Follows.advance rfl).bind fun _ _ _ => (expression_follows o m n _).bind fun e e' he => ?_
    refine (Follows.inLoop ((block_follows n l).weaken fun _ _ h => ⟨_, h⟩)).bind fun b b' hb => ?_
    exact .pure (by simp [Stmt.erase, he, hb]) fun _ _ => id

theorem forStmt_follows : ∀ n l,
    Follows (o.At (.keyword .for_) (.between l)) (forStmt n) (forStmt (m + n)) Stmt.erase
      fun _ => o.Beside (.between l)
  | 0, _ => .outOfFuel
  | n + 1, l => by
    rw [← Nat.add_assoc, forStmt, forStmt]
    refine (Follows.advance rfl).bind fun _ _ _ => (loopVariables_follows o m n _).bind fun vs vs' hvs => ?_
    refine (Follows.expect rfl).bind fun _ _ _ => (expression_follows o m n _).bind fun e e' he => ?_
    refine (Follows.inLoop ((block_follows n l).weaken fun _ _ h => ⟨_, h⟩)).bind fun b b' hb => ?_
    exact .pure (by simp [Stmt.erase, show vs' = vs from hvs, he, hb]) fun _ _ => id

theorem definition_follows : ∀ n l (ds ds' : List (Expr Span)), eraseExprs ds' = eraseExprs ds →
    Follows (o.Abreast (.between l)) (definition n ds) (definition (m + n) ds') Stmt.erase
      fun _ => o.Beside (.between l)
  | 0, _, _, _, _ => .outOfFuel
  | n + 1, l, ds, ds', hds => by
    rw [← Nat.add_assoc, definition, definition]
    refine (Follows.expect rfl).bind fun _ _ _ => ?_
    refine .identifier_bind fun name _ _ => ?_
    refine (Follows.resolve name).bind fun v v' hv => (Follows.expect rfl).bind fun _ _ _ => ?_
    obtain rfl : v' = v := hv
    refine (params_follows o m _ n _ _ _).bind fun ps ps' hps => (Follows.expect_inside rfl).bind fun _ _ _ => ?_
    obtain rfl : ps' = ps := hps
    have hblock := Follows.inFunction ps' (block_follows n l) (Exists.imp fun _ h => h.enterFunction ps')
      Beside.leaveFunction
    refine (hblock.weaken fun _ _ h => ⟨_, h⟩).bind fun b b' hb => ?_
    exact .pure (by simp [Stmt.erase, Function.erase, hds, hb]) fun _ _ => id

theorem decorated_follows : ∀ n l,
    Follows (o.Abreast (.between l)) (decorated n) (decorated (m + n)) Stmt.erase fun _ => o.Beside (.between l)
  | 0, _ => .outOfFuel
  | n + 1, l => by
    rw [← Nat.add_assoc, decorated, decorated]
    refine decorators_bind_follows o m l n (fun ds ds' hds => .at?_bind ?_ (.reject _)) fun ds p he => ?_
    · exact (definition_follows n l ds ds' hds).weaken fun _ _ => At.toAbreast
    · have hk : p.current.kind ≠ .keyword .def_ := fun hk => by simp [Parser.atEnd, hk] at he
      rw [after_bind, after_at?]
      simpa [hk] using p.not_clean_complain _ _

theorem tryStmt_follows : ∀ n l,
    Follows (o.At (.keyword .try_) (.between l)) (tryStmt n) (tryStmt (m + n)) Stmt.erase
      fun _ => o.Beside (.between l)
  | 0, _ => .outOfFuel
  | n + 1, l => by
    rw [← Nat.add_assoc, tryStmt, tryStmt]
    refine (Follows.advance rfl).bind fun _ _ _ => ?_
    refine ((block_follows n l).weaken fun _ _ h => ⟨_, h⟩).bind fun b b' hb => ?_
    refine (handler_follows n l).bind fun x x' hx => (cleanup_follows n l).bind fun c c' hc => ?_
    dsimp only
    rw [← isNone_eraseHandler x', hx, isNone_eraseHandler, ← isNone_eraseCleanup c', hc, isNone_eraseCleanup]
    split
    · exact .reject_bind _ _
    · exact .pure (by simp [Stmt.erase, hb, hx, hc]) fun _ _ => id

theorem handler_follows : ∀ n l,
    Follows (o.Beside (.between l)) (handler n) (handler (m + n)) eraseHandler fun _ => o.Beside (.between l)
  | 0, _ => .outOfFuel
  | n + 1, l => by
    rw [← Nat.add_assoc, handler, handler]
    refine .eat_bind_apart (by simp) (o.head rfl) ?_ (.pure rfl fun _ _ => id)
    refine ((handlerBinding_follows o l 0 _).weaken fun _ _ h => h.abreast (.inl rfl)).bind fun v v' hv => ?_
    refine (block_follows n l).bind fun b b' hb => ?_
    exact .pure (by simp [eraseHandler, show v' = v from hv, hb]) fun _ _ => id

theorem cleanup_follows : ∀ n l,
    Follows (o.Beside (.between l)) (cleanup n) (cleanup (m + n)) eraseCleanup fun _ => o.Beside (.between l)
  | 0, _ => .outOfFuel
  | n + 1, l => by
    rw [← Nat.add_assoc, cleanup, cleanup]
    refine .eat_bind_apart (by simp) (o.head rfl) ?_ (.pure rfl fun _ _ => id)
    refine ((block_follows n l).weaken fun _ _ h => ⟨_, h.abreast (.inl rfl)⟩).bind fun b b' hb => ?_
    exact .pure (by simp [eraseCleanup, hb]) fun _ _ => id

end

/-! ## Programs -/

variable {p q : Parser} {n : Nat}

theorem program_newline (h : q.current.kind = .newline) : program (n + 1) q = program n q.advance := by
  simp [program, bind, EStateM.bind, atEnd, Parser.atEnd, eat, h]

theorem program_dedent (h : q.current.kind = .dedent) : program (n + 1) q = program n q.advance := by
  simp [program, bind, EStateM.bind, atEnd, Parser.atEnd, eat, h]

theorem program_item {q' r : Parser} {s : Option (Stmt Span)} {ss : Program Span} (he : q.atEnd = false)
    (hn : q.current.kind ≠ .newline) (hd : q.current.kind ≠ .dedent) (hs : item n q = .ok s q')
    (hss : program n q' = .ok ss r) : program (n + 1) q = .ok (s.toList ++ ss) r := by
  simp [program, bind, EStateM.bind, pure, EStateM.pure, atEnd, he, eat, hn, hd, hs, hss]

/-- What follows the statements `ss` of the first script, which end at `p` : reading from `q` on gives statements like
these, and goes on in front of the rest. -/
def Resumes (n : Nat) (q : Parser) (ss : Program Span) (p : Parser) : Prop :=
  ∃ ts k q', eraseStmts ts = eraseStmts ss ∧ 16 ≤ k ∧ o.Beside (.between 0) p q' ∧
    ∀ us r, program (m + k) q' = .ok us r → program (m + n) q = .ok (ts ++ us) r

namespace Resumes

variable {o m} {ss : Program Span} {s s' : Option (Stmt Span)} {q₁ : Parser}

theorem mark (hq : program (m + (n + 1)) q = program (m + n) q₁) (h : Resumes o m n q₁ ss p) :
    Resumes o m (n + 1) q ss p := by
  obtain ⟨ts, k, q', hts, hk, hb, hgo⟩ := h
  exact ⟨ts, k, q', hts, hk, hb, fun us r hr => hq.trans (hgo us r hr)⟩

theorem item (he : q.atEnd = false) (hn : q.current.kind ≠ .newline) (hd : q.current.kind ≠ .dedent)
    (hq : Parse.item (m + n) q = .ok s' q₁) (hs : eraseStmts s'.toList = eraseStmts s.toList)
    (h : Resumes o m n q₁ ss p) : Resumes o m (n + 1) q (s.toList ++ ss) p := by
  obtain ⟨ts, k, q', hts, hk, hb, hgo⟩ := h
  refine ⟨s'.toList ++ ts, k, q', by rw [eraseStmts_append, eraseStmts_append, hs, hts], hk, hb, fun us r hr => ?_⟩
  rw [List.append_assoc]
  exact program_item he hn hd hq (hgo us r hr)

end Resumes

/-- The first script is read up to its end, and so is the longer one, up to the rest. -/
theorem program_follows : ∀ n p q, (p.Clean → o.Beside (.between 0) p q) → p.Closed → 8 * p.left + 16 ≤ n →
    After (program n) p (fun ss p' => p'.Clean → p.Clean ∧ Resumes o m n q ss p') fun _ _ => True
  | 0, _, _, _, _, _ => trivial
  | n + 1, p, q, h, hp, hn => by
    -- a mark that belongs to no statement is passed over by both
    have hmark {k : TokenKind} (hk : p.current.kind = k) (hne : k ≠ .endOfFile)
        (hpass : (Stance.between 0).pass k = .between 0)
        (hread : ∀ {n q}, q.current.kind = k → program (n + 1) q = program n q.advance) :
        After (program n) p.advance (fun ss p' => p'.Clean → p.Clean ∧ Resumes o m (n + 1) q ss p') fun _ _ => True := by
      have hleft := Parser.left_advance_lt hp (Parser.atEnd_eq_false hk hne)
      have hadvance (hc : p.advance.Clean) : o.Beside (.between 0) p.advance q.advance :=
        hpass ▸ (h hc.of_advance).advance hk hne
      refine (program_follows n p.advance q.advance hadvance (Parser.closed_advance hp) (by omega)).mono ?_ fun _ _ => id
      intro ss p' hss hc
      obtain ⟨hpc, hgo⟩ := hss hc
      have hq : q.current.kind = k := ((h hpc.of_advance).abreast_of_ne (hk.symm ▸ hne)).current.trans hk
      exact ⟨hpc.of_advance, hgo.mark (hread hq)⟩
    rw [program, after_bind, after_atEnd]
    split
    · exact fun hc => ⟨hc, [], n + 1, q, rfl, by omega, h hc, fun us r => id⟩
    · next he =>
      have he : p.atEnd = false := by simpa using he
      rw [after_bind, after_eat]
      refine ⟨fun hk => hmark hk (by simp) rfl program_newline, fun hn₁ => ?_⟩
      rw [if_neg (by simp), after_bind, after_eat]
      refine ⟨fun hk => hmark hk (by simp) rfl program_dedent, fun hn₂ => ?_⟩
      rw [if_neg (by simp)]
      have hne : p.current.kind ≠ .endOfFile := fun hk => by simp [Parser.atEnd, hk] at he
      have hitem := item_follows o m n 0 p q fun hc => (h hc).abreast_of_ne hne
      have hmoves := item_moves n hp he (by omega)
      refine (after_bind _ _).2 ((hitem.and hmoves).mono ?_ fun _ _ _ => trivial)
      rintro s p₁ ⟨hs, hleads, hleft⟩
      by_cases hc₁ : p₁.Clean
      · obtain ⟨hpc, s', q₁, hq₁, hs', hb₁⟩ := hs hc₁
        have hq : q.current.kind = p.current.kind := ((h hpc).abreast_of_ne hne).current
        refine (program_follows n p₁ q₁ (fun _ => hb₁) hleads.closed (by omega)).bind fun ss p' hss hc => ⟨hpc, ?_⟩
        exact (hss hc).2.item (Parser.atEnd_eq_false hq hne) (hq.symm ▸ hn₁) (hq.symm ▸ hn₂) hq₁ hs'
      · -- what was wrong once stays wrong
        refine (program_follows n p₁ q (fun hc => absurd hc hc₁) hleads.closed (by omega)).bind fun ss p' hss hc => ?_
        exact absurd (hss hc).1 hc₁

/-! ## The first token -/

variable {β γ : Type}

/-- From `p`, the reader gets nowhere : it is rejected, and something was wrong. -/
def Stuck (x : Parse β) (p : Parser) : Prop :=
  After x p (fun _ _ => False) fun e p' => e = .rejected → ¬p'.Clean

theorem Stuck.bind {x : Parse β} (h : Stuck x p) (f : β → Parse γ) : Stuck (x >>= f) p :=
  After.bind h fun _ _ => False.elim

section startsNothing

variable (h : p.current.kind.startsNothing = true)
include h

theorem primary_stuck (n : Nat) : Stuck (primary n) p := by
  cases n with
  | zero => exact fun he => absurd he (by simp)
  | succ n =>
    rw [Stuck, primary, after_bind, after_peek]
    generalize p.current.kind = k at h
    split <;> first | contradiction | exact fun _ => p.not_clean_complain p.current _

theorem unary_stuck (n : Nat) : Stuck (unary n) p := by
  cases n with
  | zero => exact fun he => absurd he (by simp)
  | succ n =>
    have hop : UnaryOp.ofToken? p.current.kind = none := by
      generalize p.current.kind = k at h
      unfold UnaryOp.ofToken?
      split <;> first | contradiction | rfl
    have hlambda : p.current.kind ≠ .keyword .lambda := fun hk => by simp [hk, TokenKind.startsNothing] at h
    rw [Stuck, unary, after_bind, after_peek, hop]
    dsimp only
    rw [if_neg hlambda]
    exact (primary_stuck h n).bind _

theorem expression_stuck (n : Nat) : Stuck (expression n) p := by
  obtain _ | _ | n := n
  · exact fun he => absurd he (by simp)
  · exact fun he => absurd he (by simp)
  · rw [expression, operation]
    exact (unary_stuck h n).bind _

theorem statement_stuck (n : Nat) : Stuck (statement n) p := by
  cases n with
  | zero => exact fun he => absurd he (by simp)
  | succ n =>
    have hexpr := expression_stuck h n
    rw [Stuck, statement, after_bind, after_peekKind]
    generalize p.current.kind = k at h
    split <;> first | contradiction | exact hexpr.bind _ | exact fun _ => p.not_clean_complain p.current _

theorem item_unclean (n : Nat) : After (item n) p (fun _ p' => ¬p'.Clean) fun _ _ => True := by
  cases n with
  | zero => trivial
  | succ n =>
    have hpass : p.current.kind ≠ .keyword .pass := fun hk => by simp [hk, TokenKind.startsNothing] at h
    rw [item, after_recovering, after_bind, after_eat]
    refine ⟨fun hk => absurd hk hpass, fun _ => ?_⟩
    rw [if_neg (by simp)]
    refine ((statement_stuck h n).bind _).mono (fun _ _ => False.elim) fun e p' hx => ?_
    cases e with
    | rejected => exact fun hc => hx rfl hc.of_recover
    | outOfFuel => trivial

/-- If a script starts with such a token, something is wrong with it. -/
theorem program_unclean (n : Nat) : After (program n) p (fun _ p' => ¬p'.Clean) fun _ _ => True := by
  cases n with
  | zero => trivial
  | succ n =>
    have hne (k : TokenKind) (hk : k.startsNothing = false) : p.current.kind ≠ k := fun hc => by simp [← hc, h] at hk
    rw [program, after_bind, after_atEnd, Parser.atEnd_eq_false rfl (hne .endOfFile rfl), if_neg (by simp),
      after_bind, after_eat]
    refine ⟨fun hk => absurd hk (hne .newline rfl), fun _ => ?_⟩
    rw [if_neg (by simp), after_bind, after_eat]
    refine ⟨fun hk => absurd hk (hne .dedent rfl), fun _ => ?_⟩
    rw [if_neg (by simp)]
    refine (item_unclean h n).bind fun s p₁ hc₁ => ?_
    -- what was wrong once stays wrong
    have hread := @program_reads [] n [] p₁ fun hc => absurd hc hc₁
    exact (after_bind _ _).2 (hread.mono (fun _ _ hr hc => hc₁ (hr hc).1) fun _ _ _ => trivial)

end startsNothing

end Parse

end DocScript
