import DocScript.Grammar.Expr

/-!
# The grammar of statements and programs

A statement that starts with no reserved word is an expression, or an assignment if a comma or an
equals sign follows. `Source.parse` reads a whole script. It always gives a program: a statement that
is rejected becomes a `bad` one, and the diagnostics say why.
-/

namespace DocScript

/-- The result of reading a script. -/
structure Parsed where
  program : Program Span
  errors : Diagnostics
  /-- How many statements were rejected, also inside others that were rejected later. -/
  rejected : Nat

namespace Parsed

/-- The error that callers report. -/
def firstError? (r : Parsed) : Option Diagnostic := r.errors.first?

/-- The program, if nothing was wrong. -/
def toExcept (r : Parsed) : Except Diagnostics (Program Span) :=
  if r.errors.hasErrors then .error r.errors else .ok r.program

end Parsed

namespace Parse

/-- The span from `start` over all of `es`. -/
def spanOver (start : Span) (es : List (Expr Span)) : Span :=
  es.foldl (fun s e => s.merge e.ann) start

/-- The variables of a loop. -/
def loopVariables : Nat → Parse (List Variable)
  | 0 => outOfFuel
  | n + 1 => do
    let (name, _) ← identifier
    let v ← resolve name
    if ← eat (.symbol .comma) then return v :: (← loopVariables n)
    return [v]

/-- The names of a declaration, each with its span. -/
def declaredNames (scope : Scope) : Nat → Parse (List (String × Span))
  | 0 => outOfFuel
  | n + 1 => do
    let t ← peek
    let (name, span) ← identifier
    declare name scope t
    if ← eat (.symbol .comma) then return (name, span) :: (← declaredNames scope n)
    return [(name, span)]

/-- `@` lines in front of a definition. -/
def decorators : Nat → Parse (List (Expr Span))
  | 0 => outOfFuel
  | n + 1 => do
    if ← eat (.symbol .at_) then
      let d ← expression n
      let _ ← expect .newline
      return d :: (← decorators n)
    else return []

/-- The variable that a handler binds. -/
def handlerBinding : Parse (Option Variable) := do
  if ← eat (.keyword .as_) then
    let (name, _) ← identifier
    return some (← resolve name)
  else return none

/-- `raise e` -/
def raiseStmt (n : Nat) : Parse (Stmt Span) := do
  let start ← advance
  let payload ← expression n
  lineEnd
  return .raise (start.span.merge payload.ann) payload

/-- `return e, f`, inside functions only -/
def returnStmt (n : Nat) : Parse (Stmt Span) := do
  let start ← advance
  if !(← body).isFunction then rejectPrevious .returnOutsideFunction
  let values ← if (← at? .newline) || (← atEnd) then pure [] else expressions n
  lineEnd
  return .ret (spanOver start.span values) values

/-- `break` and `continue`, inside loops only -/
def loopControl (k : Keyword) (stmt : Span → Stmt Span) : Parse (Stmt Span) := do
  let t ← advance
  if (← body).loopDepth = 0 then rejectPrevious (.outsideLoop k)
  lineEnd
  return stmt t.span

/-- `local a, b` and its like, inside functions only -/
def declaration (scope : Scope) (n : Nat) : Parse (Stmt Span) := do
  let start ← advance
  if !(← body).isFunction then rejectPrevious (.outsideFunction scope)
  let names ← declaredNames scope n
  lineEnd
  return .declare (names.foldl (fun s x => s.merge x.2) start.span) scope (names.map Prod.fst)

/-- An assignment whose first target was read. -/
def assignment (n : Nat) (first : Expr Span) : Parse (Stmt Span) := do
  let more ← if ← eat (.symbol .comma) then expressions n else pure []
  let targets := first :: more
  let eq ← expect (.symbol .eq)
  if targets.any (!·.isTarget) then rejectAt eq .invalidTarget
  let values ← expressions n
  lineEnd
  return .assign (spanOver eq.span (values ++ targets)) targets values

/-- An expression or an assignment. -/
def exprStmt (n : Nat) : Parse (Stmt Span) := do
  let e ← expression n
  if (← at? (.symbol .comma)) || (← at? (.symbol .eq)) then assignment n e
  else
    lineEnd
    return .expr e.ann e

mutual

/-- Any statement that leaves a node. -/
def statement : Nat → Parse (Stmt Span)
  | 0 => outOfFuel
  | n + 1 => do
    match ← peekKind with
    | .keyword .if_ => ifStmt n
    | .keyword .while_ => whileStmt n
    | .keyword .for_ => forStmt n
    | .keyword .def_ => definition n []
    | .symbol .at_ => decorated n
    | .keyword .try_ => tryStmt n
    | .keyword .raise => raiseStmt n
    | .keyword .return_ => returnStmt n
    | .keyword .break_ => loopControl .break_ .break_
    | .keyword .continue_ => loopControl .continue_ .continue_
    | .keyword .local_ => declaration .local_ n
    | .keyword .nonlocal => declaration .nonlocal n
    | .keyword .global_ => declaration .global_ n
    | .indent => reject .unexpectedIndent
    | _ => exprStmt n

/-- `:` and an indented block. -/
def block : Nat → Parse (Block Span)
  | 0 => outOfFuel
  | n + 1 => do
    let colon ← expect (.symbol .colon)
    let _ ← expect .newline
    if !(← eat .indent) then reject .expectedBlock
    let stmts ← blockStmts n
    let last ← peek
    let _ ← eat .dedent
    return ⟨colon.span.merge last.span, stmts⟩

/-- The statements of a block, up to its end. -/
def blockStmts : Nat → Parse (List (Stmt Span))
  | 0 => outOfFuel
  | n + 1 => do
    if (← at? .dedent) || (← atEnd) then return []
    if ← eat .newline then blockStmts n
    else
      let s ← item n
      return s.toList ++ (← blockStmts n)

/-- A statement of a block or a program; `pass` leaves no node, and a rejected statement a `bad`
one. -/
def item : Nat → Parse (Option (Stmt Span))
  | 0 => outOfFuel
  | n + 1 => recovering do
    if ← eat (.keyword .pass) then
      lineEnd
      return none
    else
      let s ← statement n
      return some s

/-- `if`, and `elif` as an `if` inside the `else` part -/
def ifStmt : Nat → Parse (Stmt Span)
  | 0 => outOfFuel
  | n + 1 => do
    let start ← advance
    let cond ← expression n
    let yes ← block n
    let no ← elsePart n yes.ann.stop.line
    return .ifElse ((start.span.merge yes.ann).merge no.ann) cond yes no

/-- What follows the first block of an `if` that ends on the line `line`. -/
def elsePart : Nat → Nat → Parse (Block Span)
  | 0, _ => outOfFuel
  | n + 1, line => do
    if ← at? (.keyword .elif) then
      let s ← ifStmt n
      return ⟨s.ann, [s]⟩
    else if ← eat (.keyword .else_) then block n
    else return ⟨.point ⟨line, 1⟩, []⟩

def whileStmt : Nat → Parse (Stmt Span)
  | 0 => outOfFuel
  | n + 1 => do
    let start ← advance
    let cond ← expression n
    let b ← inLoop (block n)
    return .whileLoop (start.span.merge b.ann) cond b

def forStmt : Nat → Parse (Stmt Span)
  | 0 => outOfFuel
  | n + 1 => do
    let start ← advance
    let vars ← loopVariables n
    let _ ← expect (.keyword .in_)
    let iterable ← expression n
    let b ← inLoop (block n)
    return .forLoop (start.span.merge b.ann) vars iterable b

/-- `def` behind its decorators. -/
def definition : Nat → List (Expr Span) → Parse (Stmt Span)
  | 0, _ => outOfFuel
  | n + 1, decorators => do
    let start ← expect (.keyword .def_)
    let (name, _) ← identifier
    let target ← resolve name
    let _ ← expect (.symbol .lparen)
    let ps ← params (.symbol .rparen) n
    let _ ← expect (.symbol .rparen)
    let b ← inFunction ps (block n)
    return .define (start.span.merge b.ann) decorators target ⟨name, ps, b⟩

def decorated : Nat → Parse (Stmt Span)
  | 0 => outOfFuel
  | n + 1 => do
    let ds ← decorators n
    if ← at? (.keyword .def_) then definition n ds else reject .expectedDefinition

/-- `try` with a handler, a cleanup, or both -/
def tryStmt : Nat → Parse (Stmt Span)
  | 0 => outOfFuel
  | n + 1 => do
    let start ← advance
    let b ← block n
    let h ← handler n
    let c ← cleanup n
    if h.isNone && c.isNone then reject .missingHandler
    let spans := (h.map (·.body.ann)).toList ++ (c.map (·.ann)).toList
    return .attempt (spans.foldl .merge (start.span.merge b.ann)) b h c

def handler : Nat → Parse (Option (Handler Span))
  | 0 => outOfFuel
  | n + 1 => do
    if ← eat (.keyword .except) then
      let v ← handlerBinding
      let b ← block n
      return some ⟨v, b⟩
    else return none

def cleanup : Nat → Parse (Option (Block Span))
  | 0 => outOfFuel
  | n + 1 => do
    if ← eat (.keyword .finally_) then
      let b ← block n
      return some b
    else return none

end

/-- The statements of a whole script. Marks that belong to no statement are passed over. -/
def program : Nat → Parse (Program Span)
  | 0 => outOfFuel
  | n + 1 => do
    if ← atEnd then return []
    if ← eat .newline then program n
    else if ← eat .dedent then program n
    else
      let s ← item n
      return s.toList ++ (← program n)

end Parse

/-- A bound on the recursion that no stream of `count` tokens reaches. -/
def parseFuel (count : Nat) : Nat := 8 * (count + 1)

/-- Reads a script. -/
def Source.parse (s : Source) : Parsed :=
  let tokens := s.tokens
  match Parse.program (parseFuel tokens.length) (.start s tokens) with
  | .ok p q => ⟨p, q.errors, q.rejected⟩
  | .error _ q => ⟨[], q.errors, q.rejected⟩

end DocScript
