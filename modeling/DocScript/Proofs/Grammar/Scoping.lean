import DocScript.Proofs.Grammar.Records

/-!
# Scripts are read as uniformly scoped programs

Every reader of the grammar adds the mentions of what it gives to those that the body records. Readers
that fold onto an expression read before, or go on behind it, start from a body that has its mentions
already. A function is read in a body of its own, of which only the one mention of the function is left
in the body around it.
-/

namespace DocScript

namespace Parse

/-! ## Expressions -/

variable {ps : List String} {ms : List (Mention Span)}

theorem params_reads {P : Body → Prop} (close : TokenKind) : ∀ n, (params close n).Reads P fun _ => P
  | 0 => .outOfFuel
  | n + 1 => by
    rw [params]
    refine (Reads.at? close).bind fun _ => ?_
    split
    · exact .pure fun _ => id
    · refine Reads.identifier.bind fun _ => (Reads.eat _).bind fun _ => ?_
      split
      · exact (params_reads close n).bind fun _ => .pure fun _ => id
      · exact .pure fun _ => id

theorem nameKey_reads : nameKey.Reads (Records ps ms) fun k => Records ps (ms ++ k.mentions) :=
  Reads.identifier.bind fun _ => .give (by simp)

/-- The body of a lambda has the mentions of its result. -/
theorem scoped_lambdaOf (start : Span) {e : Expr Span} {b : Body} (h : Records ps e.mentions b)
    (hb : b.isFunction = true) :
    ∃ f, lambdaOf start ps e = .lambda (start.merge e.ann) f ∧ f.Scoped ∧ f.Stamped :=
  ⟨_, rfl, Records.function_scoped (b := b) (by simpa using h),
    Records.function_stamped (b := b) (by simpa using h) hb⟩

mutual

theorem expression_reads : ∀ n ps ms,
    (expression n).Reads (Records ps ms) fun e => Records ps (ms ++ e.mentions)
  | 0, _, _ => .outOfFuel
  | n + 1, ps, ms => operation_reads n 0 ps ms

theorem operation_reads : ∀ n min ps ms,
    (operation n min).Reads (Records ps ms) fun e => Records ps (ms ++ e.mentions)
  | 0, _, _, _ => .outOfFuel
  | n + 1, min, ps, ms => by
    rw [operation]
    exact (unary_reads n ps ms).bind fun left => operators_reads n min left ps ms

theorem operators_reads : ∀ n min left ps ms,
    (operators n min left).Reads (Records ps (ms ++ left.mentions))
      fun e => Records ps (ms ++ e.mentions)
  | 0, _, _, _, _ => .outOfFuel
  | n + 1, min, left, ps, ms => by
    rw [operators]
    refine Reads.peekKind.bind fun _ => ?_
    split
    · exact .pure fun _ => id
    · split
      · exact .pure fun _ => id
      · refine Reads.advance.bind fun _ => (operation_reads n _ ps _).bind fun right => ?_
        exact (operators_reads n min _ ps ms).of_eq (by simp)

theorem unary_reads : ∀ n ps ms,
    (unary n).Reads (Records ps ms) fun e => Records ps (ms ++ e.mentions)
  | 0, _, _ => .outOfFuel
  | n + 1, ps, ms => by
    rw [unary]
    refine Reads.peek.bind fun t => ?_
    split
    · refine Reads.advance.bind fun _ => (unary_reads n ps ms).bind fun e => ?_
      exact .give (by simp)
    · split
      · exact lambda_reads n ps ms
      · exact (primary_reads n ps ms).bind fun e => postfixes_reads n e ps ms

theorem lambda_reads : ∀ n ps ms,
    (lambda n).Reads (Records ps ms) fun e => Records ps (ms ++ e.mentions)
  | 0, _, _ => .outOfFuel
  | n + 1, ps, ms => by
    rw [lambda]
    refine Reads.advance.bind fun start => (params_reads _ n).bind fun qs => ?_
    refine (Reads.expect _).bind fun _ => ?_
    refine (Reads.inFunction (expression_keeps n) (expression_reads n qs [])).bind fun e => ?_
    refine .pure fun b ⟨hb, b', h, hb'⟩ => ?_
    obtain ⟨f, hf, hs, hst⟩ := scoped_lambdaOf start.span h hb'
    rw [hf]
    exact hb.made hs hst

theorem postfixes_reads : ∀ n e ps ms,
    (postfixes n e).Reads (Records ps (ms ++ e.mentions)) fun e => Records ps (ms ++ e.mentions)
  | 0, _, _, _ => .outOfFuel
  | n + 1, e, ps, ms => by
    rw [postfixes]
    refine Reads.peekKind.bind fun _ => ?_
    split
    · refine Reads.advance.bind fun _ => (commaList_reads _ n ps _).bind fun as => ?_
      refine (Reads.expect _).bind fun _ => ?_
      exact (postfixes_reads n _ ps ms).of_eq (by simp)
    · refine Reads.advance.bind fun _ => (expression_reads n ps _).bind fun k => ?_
      refine (Reads.expect _).bind fun _ => ?_
      exact (postfixes_reads n _ ps ms).of_eq (by simp)
    · refine Reads.advance.bind fun _ => nameKey_reads.bind fun k => ?_
      exact (postfixes_reads n _ ps ms).of_eq (by simp)
    · refine Reads.advance.bind fun _ => (arrowKey_reads n ps _).bind fun k => ?_
      refine Reads.previous.bind fun _ => ?_
      exact (postfixes_reads n _ ps ms).of_eq (by simp)
    · refine (dictBody_reads n ps _).bind fun es => ?_
      exact (postfixes_reads n _ ps ms).of_eq (by simp)
    · exact .pure fun _ => id

theorem arrowKey_reads : ∀ n ps ms,
    (arrowKey n).Reads (Records ps ms) fun e => Records ps (ms ++ e.mentions)
  | 0, _, _ => .outOfFuel
  | n + 1, ps, ms => by
    rw [arrowKey]
    refine (Reads.eat _).bind fun _ => ?_
    split
    · refine (expression_reads n ps ms).bind fun k => ?_
      exact (Reads.expect _).bind fun _ => .pure fun _ => id
    · exact nameKey_reads

theorem primary_reads : ∀ n ps ms,
    (primary n).Reads (Records ps ms) fun e => Records ps (ms ++ e.mentions)
  | 0, _, _ => .outOfFuel
  | n + 1, ps, ms => by
    rw [primary]
    refine Reads.peek.bind fun t => ?_
    split
    · exact Reads.advance.bind fun _ => .give (by simp)
    · exact Reads.advance.bind fun _ => .give (by simp)
    · exact Reads.advance.bind fun _ => .give (by simp)
    · exact Reads.advance.bind fun _ => .give (by simp)
    · exact Reads.advance.bind fun _ => .give (by simp)
    · exact (Reads.resolve _).bind fun _ => Reads.advance.bind fun _ => .pure fun _ => id
    · refine Reads.advance.bind fun _ => (expression_reads n ps ms).bind fun e => ?_
      exact (Reads.expect _).bind fun _ => .give (by simp)
    · refine Reads.advance.bind fun _ => (commaList_reads _ n ps ms).bind fun is => ?_
      exact (Reads.expect _).bind fun _ => .pure fun _ => id
    · exact (dictBody_reads n ps ms).bind fun es => .pure fun _ => id
    · exact .reject _

theorem commaList_reads (close : TokenKind) : ∀ n ps ms,
    (commaList close n).Reads (Records ps ms) fun es => Records ps (ms ++ mentionsOfExprs es)
  | 0, _, _ => .outOfFuel
  | n + 1, ps, ms => by
    rw [commaList]
    refine (Reads.at? close).bind fun _ => ?_
    split
    · exact .give (by simp)
    · refine (expression_reads n ps ms).bind fun e => (Reads.eat _).bind fun _ => ?_
      split
      · refine (commaList_reads close n ps _).bind fun es => ?_
        exact .give (by simp)
      · exact .give (by simp)

theorem dictBody_reads : ∀ n ps ms,
    (dictBody n).Reads (Records ps ms) fun es => Records ps (ms ++ mentionsOfEntries es.1)
  | 0, _, _ => .outOfFuel
  | n + 1, ps, ms => by
    rw [dictBody]
    refine (Reads.expect _).bind fun _ => (dictEntries_reads n ps ms).bind fun es => ?_
    exact (Reads.expect _).bind fun _ => .pure fun _ => id

theorem dictEntries_reads : ∀ n ps ms,
    (dictEntries n).Reads (Records ps ms) fun es => Records ps (ms ++ mentionsOfEntries es)
  | 0, _, _ => .outOfFuel
  | n + 1, ps, ms => by
    rw [dictEntries]
    refine (Reads.at? _).bind fun _ => ?_
    split
    · exact .give (by simp)
    · refine (dictKey_reads n ps ms).bind fun k => (Reads.expect _).bind fun _ => ?_
      refine (expression_reads n ps _).bind fun v => (Reads.eat _).bind fun _ => ?_
      split
      · refine (dictEntries_reads n ps _).bind fun es => ?_
        exact .give (by simp)
      · exact .give (by simp)

theorem dictKey_reads : ∀ n ps ms,
    (dictKey n).Reads (Records ps ms) fun e => Records ps (ms ++ e.mentions)
  | 0, _, _ => .outOfFuel
  | n + 1, ps, ms => by
    rw [dictKey]
    refine Reads.peek.bind fun t => ?_
    split
    · refine Reads.advance.bind fun _ => (Reads.at? _).bind fun _ => ?_
      split
      · exact .give (by simp)
      · refine (Reads.resolve _).bind fun v => ?_
        exact (postfixes_reads n (.var t.span v) ps ms).bind fun e => operators_reads n 0 e ps ms
    · exact expression_reads n ps ms

end

theorem expressions_reads : ∀ n ps ms,
    (expressions n).Reads (Records ps ms) fun es => Records ps (ms ++ mentionsOfExprs es)
  | 0, _, _ => .outOfFuel
  | n + 1, ps, ms => by
    rw [expressions]
    refine (expression_reads n ps ms).bind fun e => (Reads.eat _).bind fun _ => ?_
    split
    · refine (expressions_reads n ps _).bind fun es => ?_
      exact .give (by simp)
    · exact .give (by simp)

/-! ## Statements -/

theorem loopVariables_reads : ∀ n ps (ms : List (Mention Span)),
    (loopVariables n).Reads (Records ps ms) fun vs => Records ps (ms ++ vs.map .occurrence)
  | 0, _, _ => .outOfFuel
  | n + 1, ps, ms => by
    rw [loopVariables]
    refine Reads.identifier.bind fun _ => (Reads.resolve _).bind fun v => ?_
    refine (Reads.eat _).bind fun _ => ?_
    split
    · exact (loopVariables_reads n ps _).bind fun vs => .give (by simp)
    · exact .give (by simp)

theorem declaredNames_reads {scope : Scope} (hs : scope ≠ .dynamic) :
    ∀ n ps (ms : List (Mention Span)),
    (declaredNames scope n).Reads (fun b => Records ps ms b ∧ b.isFunction = true)
      fun ns => Records ps (ms ++ ns.map fun x => .declaration x.1 scope)
  | 0, _, _ => .outOfFuel
  | n + 1, ps, ms => by
    rw [declaredNames]
    refine Reads.peek.bind fun t => Reads.identifier.bind fun x => ?_
    refine (Reads.declare hs _ t).bind fun _ => (Reads.eat _).bind fun _ => ?_
    split
    · exact (declaredNames_reads hs n ps _).bind fun ns => .give (by simp)
    · exact .pure fun _ h => by simpa using h.1

theorem decorators_reads : ∀ n ps ms,
    (decorators n).Reads (Records ps ms) fun ds => Records ps (ms ++ mentionsOfExprs ds)
  | 0, _, _ => .outOfFuel
  | n + 1, ps, ms => by
    rw [decorators]
    refine (Reads.eat _).bind fun _ => ?_
    split
    · refine (expression_reads n ps ms).bind fun d => (Reads.expect _).bind fun _ => ?_
      exact (decorators_reads n ps _).bind fun ds => .give (by simp)
    · exact .give (by simp)

theorem handlerBinding_reads : handlerBinding.Reads (Records ps ms)
    fun v => Records ps (ms ++ v.toList.map .occurrence) := by
  rw [handlerBinding]
  refine (Reads.eat _).bind fun _ => ?_
  split
  · exact Reads.identifier.bind fun _ => (Reads.resolve _).bind fun _ => .pure fun _ => id
  · exact .give (by simp)

theorem raiseStmt_reads (n : Nat) :
    (raiseStmt n).Reads (Records ps ms) fun s => Records ps (ms ++ s.mentions) := by
  refine Reads.advance.bind fun _ => (expression_reads n ps ms).bind fun e => ?_
  exact Reads.lineEnd.bind fun _ => .give (by simp)

theorem returnStmt_reads (n : Nat) :
    (returnStmt n).Reads (Records ps ms) fun s => Records ps (ms ++ s.mentions) := by
  refine Reads.advance.bind fun _ => Reads.body.bind fun b => ?_
  split
  · exact .rejectPrevious_bind _
  · refine (Reads.at? _).bind fun _ => Reads.atEnd.bind fun _ => ?_
    split
    · refine (Reads.pure (Q := fun vs => Records ps (ms ++ mentionsOfExprs vs)) ?_).bind fun vs => ?_
      · exact fun _ h => by simpa using h.1
      · exact Reads.lineEnd.bind fun _ => .pure fun _ => id
    · refine ((expressions_reads n ps ms).weaken fun _ h => h.1).bind fun vs => ?_
      exact Reads.lineEnd.bind fun _ => .pure fun _ => id

theorem loopControl_reads (k : Keyword) {stmt : Span → Stmt Span} (h : ∀ a, (stmt a).mentions = []) :
    (loopControl k stmt).Reads (Records ps ms) fun s => Records ps (ms ++ s.mentions) := by
  refine Reads.advance.bind fun t => Reads.body.bind fun b => ?_
  split
  · exact .rejectPrevious_bind _
  · exact Reads.lineEnd.bind fun _ => .pure fun _ hb => by simpa [h] using hb.1

/-- Declarations are read inside functions only. -/
theorem declaration_reads {scope : Scope} (hs : scope ≠ .dynamic) (n : Nat) :
    (declaration scope n).Reads (Records ps ms) fun s => Records ps (ms ++ s.mentions) := by
  refine Reads.advance.bind fun _ => Reads.body.bind fun b => ?_
  split
  · exact .rejectPrevious_bind _
  · next hf =>
    refine ((declaredNames_reads hs n ps ms).weaken ?_).bind fun ns => ?_
    · rintro _ ⟨hb, rfl⟩
      exact ⟨hb, by simpa using hf⟩
    · exact Reads.lineEnd.bind fun _ => .pure fun _ h => by simpa [Function.comp_def] using h

theorem assignment_reads (n : Nat) (first : Expr Span) :
    (assignment n first).Reads (Records ps (ms ++ first.mentions))
      fun s => Records ps (ms ++ s.mentions) := by
  have rest : ∀ more : List (Expr Span),
      (do
        let eq ← expect (.symbol .eq)
        if (first :: more).any (!·.isTarget) then rejectAt eq .invalidTarget
        let values ← expressions n
        lineEnd
        return .assign (spanOver eq.span (values ++ (first :: more))) (first :: more) values :
          Parse (Stmt Span)).Reads (Records ps (ms ++ mentionsOfExprs (first :: more)))
            fun s => Records ps (ms ++ s.mentions) := by
    intro more
    refine (Reads.expect _).bind fun eq => ?_
    dsimp only
    split
    · exact .rejectAt_bind _ _
    · refine (expressions_reads n ps _).bind fun vs => Reads.lineEnd.bind fun _ => ?_
      exact .give (by simp)
  refine (Reads.eat _).bind fun _ => ?_
  dsimp only
  split
  · refine (expressions_reads n ps _).bind fun more => ?_
    exact (rest more).of_eq (by simp)
  · exact (rest []).of_eq (by simp)

theorem exprStmt_reads (n : Nat) :
    (exprStmt n).Reads (Records ps ms) fun s => Records ps (ms ++ s.mentions) := by
  refine (expression_reads n ps ms).bind fun e => ?_
  refine (Reads.at? _).bind fun _ => (Reads.at? _).bind fun _ => ?_
  split
  · exact assignment_reads n e
  · exact Reads.lineEnd.bind fun _ => .pure fun _ => id

mutual

theorem statement_reads : ∀ n ps ms,
    (statement n).Reads (Records ps ms) fun s => Records ps (ms ++ s.mentions)
  | 0, _, _ => .outOfFuel
  | n + 1, ps, ms => by
    rw [statement]
    refine Reads.peekKind.bind fun _ => ?_
    split
    · exact ifStmt_reads n ps ms
    · exact whileStmt_reads n ps ms
    · exact forStmt_reads n ps ms
    · exact (definition_reads n [] ps ms).of_eq (by simp)
    · exact decorated_reads n ps ms
    · exact tryStmt_reads n ps ms
    · exact raiseStmt_reads n
    · exact returnStmt_reads n
    · exact loopControl_reads _ fun _ => by simp
    · exact loopControl_reads _ fun _ => by simp
    · exact declaration_reads (by simp) n
    · exact declaration_reads (by simp) n
    · exact declaration_reads (by simp) n
    · exact .reject _
    · exact exprStmt_reads n

theorem block_reads : ∀ n ps ms,
    (block n).Reads (Records ps ms) fun b => Records ps (ms ++ b.mentions)
  | 0, _, _ => .outOfFuel
  | n + 1, ps, ms => by
    rw [block]
    refine (Reads.expect _).bind fun _ => (Reads.expect _).bind fun _ => ?_
    refine (Reads.eat _).bind fun _ => ?_
    dsimp only
    split
    · exact .reject_bind _
    · refine (blockStmts_reads n ps ms).bind fun ss => Reads.peek.bind fun _ => ?_
      exact (Reads.eat _).bind fun _ => .give (by simp)

theorem blockStmts_reads : ∀ n ps ms,
    (blockStmts n).Reads (Records ps ms) fun ss => Records ps (ms ++ mentionsOfStmts ss)
  | 0, _, _ => .outOfFuel
  | n + 1, ps, ms => by
    rw [blockStmts]
    refine (Reads.at? _).bind fun _ => Reads.atEnd.bind fun _ => ?_
    split
    · exact .give (by simp)
    · refine (Reads.eat _).bind fun _ => ?_
      split
      · exact blockStmts_reads n ps ms
      · refine (item_reads n ps ms).bind fun s => (blockStmts_reads n ps _).bind fun ss => ?_
        exact .give (by simp)

/-- A rejected statement is not clean, so that nothing has to be known of its mentions. -/
theorem item_reads : ∀ n ps ms,
    (item n).Reads (Records ps ms) fun s => Records ps (ms ++ mentionsOfStmts s.toList)
  | 0, _, _ => .outOfFuel
  | n + 1, ps, ms => by
    rw [item]
    refine .recovering ((Reads.eat _).bind fun _ => ?_)
    split
    · exact Reads.lineEnd.bind fun _ => .give (by simp)
    · exact (statement_reads n ps ms).bind fun s => .give (by simp)

theorem ifStmt_reads : ∀ n ps ms,
    (ifStmt n).Reads (Records ps ms) fun s => Records ps (ms ++ s.mentions)
  | 0, _, _ => .outOfFuel
  | n + 1, ps, ms => by
    rw [ifStmt]
    refine Reads.advance.bind fun _ => (expression_reads n ps ms).bind fun e => ?_
    refine (block_reads n ps _).bind fun y => (elsePart_reads n _ ps _).bind fun m => ?_
    exact .give (by simp)

theorem elsePart_reads : ∀ n line ps ms,
    (elsePart n line).Reads (Records ps ms) fun b => Records ps (ms ++ b.mentions)
  | 0, _, _, _ => .outOfFuel
  | n + 1, line, ps, ms => by
    rw [elsePart]
    refine (Reads.at? _).bind fun _ => ?_
    split
    · exact (ifStmt_reads n ps ms).bind fun s => .give (by simp)
    · refine (Reads.eat _).bind fun _ => ?_
      split
      · exact block_reads n ps ms
      · exact .give (by simp)

theorem whileStmt_reads : ∀ n ps ms,
    (whileStmt n).Reads (Records ps ms) fun s => Records ps (ms ++ s.mentions)
  | 0, _, _ => .outOfFuel
  | n + 1, ps, ms => by
    rw [whileStmt]
    refine Reads.advance.bind fun _ => (expression_reads n ps ms).bind fun e => ?_
    refine (Reads.inLoop (block_reads n ps _)).bind fun b => ?_
    exact .give (by simp)

theorem forStmt_reads : ∀ n ps ms,
    (forStmt n).Reads (Records ps ms) fun s => Records ps (ms ++ s.mentions)
  | 0, _, _ => .outOfFuel
  | n + 1, ps, ms => by
    rw [forStmt]
    refine Reads.advance.bind fun _ => (loopVariables_reads n ps ms).bind fun vs => ?_
    refine (Reads.expect _).bind fun _ => (expression_reads n ps _).bind fun e => ?_
    refine (Reads.inLoop (block_reads n ps _)).bind fun b => ?_
    exact .give (by simp)

/-- The target of a definition is read in the body around the function. -/
theorem definition_reads : ∀ n ds ps ms,
    (definition n ds).Reads (Records ps (ms ++ mentionsOfExprs ds))
      fun s => Records ps (ms ++ s.mentions)
  | 0, _, _, _ => .outOfFuel
  | n + 1, ds, ps, ms => by
    rw [definition]
    refine (Reads.expect _).bind fun _ => Reads.identifier.bind fun x => ?_
    refine (Reads.resolve _).bind fun v => (Reads.expect _).bind fun _ => ?_
    refine (params_reads _ n).bind fun qs => (Reads.expect _).bind fun _ => ?_
    refine (Reads.inFunction (block_keeps n) (block_reads n qs [])).bind fun body => ?_
    refine .pure fun b ⟨hb, b', h, hb'⟩ => ?_
    have hf : (⟨x.1, qs, body⟩ : Function Span).Scoped := Records.function_scoped h
    have hs : (⟨x.1, qs, body⟩ : Function Span).Stamped := Records.function_stamped h hb'
    simpa using hb.made hf hs

theorem decorated_reads : ∀ n ps ms,
    (decorated n).Reads (Records ps ms) fun s => Records ps (ms ++ s.mentions)
  | 0, _, _ => .outOfFuel
  | n + 1, ps, ms => by
    rw [decorated]
    refine (decorators_reads n ps ms).bind fun ds => (Reads.at? _).bind fun _ => ?_
    split
    · exact definition_reads n ds ps ms
    · exact .reject _

theorem tryStmt_reads : ∀ n ps ms,
    (tryStmt n).Reads (Records ps ms) fun s => Records ps (ms ++ s.mentions)
  | 0, _, _ => .outOfFuel
  | n + 1, ps, ms => by
    rw [tryStmt]
    refine Reads.advance.bind fun _ => (block_reads n ps ms).bind fun b => ?_
    refine (handler_reads n ps _).bind fun h => (cleanup_reads n ps _).bind fun c => ?_
    dsimp only
    split
    · exact .reject_bind _
    · exact .give (by simp)

theorem handler_reads : ∀ n ps ms,
    (handler n).Reads (Records ps ms) fun h => Records ps (ms ++ mentionsOfHandler h)
  | 0, _, _ => .outOfFuel
  | n + 1, ps, ms => by
    rw [handler]
    refine (Reads.eat _).bind fun _ => ?_
    split
    · refine handlerBinding_reads.bind fun v => (block_reads n ps _).bind fun b => ?_
      exact .give (by simp)
    · exact .give (by simp)

theorem cleanup_reads : ∀ n ps ms,
    (cleanup n).Reads (Records ps ms) fun c => Records ps (ms ++ mentionsOfCleanup c)
  | 0, _, _ => .outOfFuel
  | n + 1, ps, ms => by
    rw [cleanup]
    refine (Reads.eat _).bind fun _ => ?_
    split
    · exact (block_reads n ps ms).bind fun b => .give (by simp)
    · exact .give (by simp)

end

/-! ## Programs -/

theorem program_reads : ∀ n ms,
    (program n).Reads (Records ps ms) fun p => Records ps (ms ++ mentionsOfStmts p)
  | 0, _ => .outOfFuel
  | n + 1, ms => by
    rw [program]
    refine Reads.atEnd.bind fun _ => ?_
    split
    · exact .give (by simp)
    · refine (Reads.eat _).bind fun _ => ?_
      split
      · exact program_reads n ms
      · refine (Reads.eat _).bind fun _ => ?_
        split
        · exact program_reads n ms
        · refine (item_reads n ps ms).bind fun s => (program_reads n _).bind fun ss => ?_
          exact .give (by simp)

end Parse

theorem Source.errors_parse (s : Source) {p : Program Span} {q : Parser}
    (h : Parse.program (parseFuel s.tokens.length) (.start s s.tokens) = .ok p q) :
    s.parse.errors = q.errors := by
  simp [parse, h]

/-- In a script that is read without diagnostics, every function at every depth is uniformly scoped, and
every variable outside of the functions is dynamic. -/
theorem Source.parse_uniform (s : Source) (h : s.parse.firstError? = none) : s.parse.program.Scoped := by
  obtain ⟨q, hq, hn, -⟩ := s.program_keeps
  have hc : q.Clean := List.head?_eq_none_iff.1 (s.errors_parse hq ▸ h)
  have hr := Parse.program_reads (parseFuel s.tokens.length) [] (.start s s.tokens) fun _ => .of_module
  rw [after_of_ok hq] at hr
  obtain ⟨-, hb⟩ := hr hc
  have hf : q.body.isFunction = false := congrArg Nesting.isFunction hn
  -- outside of functions nothing can be declared
  have hd : ∀ x s', .declaration x s' ∉ mentionsOfStmts s.parse.program := by
    intro x s' hx
    obtain ⟨ht, -⟩ := hb.declared (hb.declaration.1 hx)
    simp [hf] at ht
  exact ⟨hd, fun v hv => hb.uniform.undeclared hv (hd v.name), fun _ => hb.function⟩

/-- The declaration stands in a block of its own, and the name that it declares is a loop variable, a
decorator, a variable around an inner function, and a parameter of a lambda. -/
theorem Source.parse_uniform_nested :
    let s : Source := ⟨"main", "def f(a):\n  if a:\n    local x\n  for x in a:\n    @x\n    def g():\n" ++
      "      nonlocal x\n      x = lambda x: x\n"⟩
    s.parse.firstError? = none ∧ s.parse.program.Scoped := by
  intro s
  have h : s.parse.firstError? = none := by decide +kernel
  exact ⟨h, s.parse_uniform h⟩

end DocScript
