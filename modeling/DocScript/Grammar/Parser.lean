import DocScript.Program
import DocScript.Token.Stream

/-!
# The state of reading a program

A parser stands at one token of a stream, the current one, and knows the token before it. Moving on
skips error tokens and records their diagnostics, so that the grammar never sees one. A problem in
the grammar records one diagnostic and rejects the statement at hand.

While it reads a function or the module, the parser keeps a `Body`: whether `return` and
declarations are allowed, how many loops are open, which names were declared and which were used.
A declaration has to come before every use of its name in the same body.
-/

namespace DocScript

/-! ## Problems -/

/-- Why a statement is rejected. -/
inductive Problem where
  | expected (kind : TokenKind)
  | expectedIdentifier
  | expectedLineEnd
  | expectedBlock
  | expectedExpression
  | expectedDefinition
  | unexpectedIndent
  | invalidTarget
  | missingHandler
  | returnOutsideFunction
  | outsideLoop (k : Keyword)
  | outsideFunction (scope : Scope)
  | usedBefore (name : String) (scope : Scope)
  | declaredAlready (name : String) (scope : Scope)

namespace Problem

def message : Problem → String
  | expected kind => s!"expected '{kind.text}'"
  | expectedIdentifier => "expected identifier"
  | expectedLineEnd => "expected end of line"
  | expectedBlock => "expected an indented block"
  | expectedExpression => "expected expression"
  | expectedDefinition => "expected 'def' after decorator"
  | unexpectedIndent => "unexpected indent"
  | invalidTarget => "invalid assignment target"
  | missingHandler => "expected 'except' or 'finally'"
  | returnOutsideFunction => "'return' outside function"
  | outsideLoop k => s!"'{k.text}' outside loop"
  | outsideFunction scope => s!"'{scope.text}' outside function"
  | usedBefore name scope => s!"'{name}' is used before its {scope.text} declaration"
  | declaredAlready name scope => s!"'{name}' is already declared {scope.text}"

def code : Problem → ErrorCode
  | expected _ | expectedIdentifier | expectedLineEnd | expectedBlock | expectedExpression
  | expectedDefinition | unexpectedIndent => .unexpectedToken
  | invalidTarget => .invalidAssignTarget
  | missingHandler => .missingHandler
  | returnOutsideFunction => .returnOutsideFunction
  | outsideLoop _ => .loopControlOutsideLoop
  | outsideFunction _ => .declarationOutsideFunction
  | usedBefore _ _ => .declarationAfterUse
  | declaredAlready _ _ => .conflictingDeclaration

end Problem

/-! ## Bodies -/

/-- The function or module whose statements are being read. -/
structure Body where
  isFunction : Bool
  loopDepth : Nat
  declared : List (String × Scope)
  referenced : List String
  deriving DecidableEq, Repr

namespace Body

def module : Body := ⟨false, 0, [], []⟩

/-- The body of a function; its parameters count as used. -/
def function (params : List String) : Body := ⟨true, 0, [], params⟩

/-- The scope that an occurrence of `name` has. -/
def scopeOf (b : Body) (name : String) : Scope := (b.declared.lookup name).getD .dynamic

/-- The body after an occurrence of `name`. -/
def refer (b : Body) (name : String) : Body := { b with referenced := name :: b.referenced }

/-- What is wrong with declaring `name` here. -/
def objection? (b : Body) (name : String) (scope : Scope) : Option Problem :=
  match b.declared.lookup name with
  | some old => if old = scope then none else some (.declaredAlready name old)
  | none => if name ∈ b.referenced then some (.usedBefore name scope) else none

/-- The body after a declaration of `name`. -/
def declare (b : Body) (name : String) (scope : Scope) : Body :=
  { b with declared := (name, scope) :: b.declared }

end Body

/-! ## Parsers -/

structure Parser where
  source : Source
  /-- The tokens behind the current one. -/
  upcoming : List Token
  current : Token
  previous : Token
  /-- How many tokens were passed. -/
  consumed : Nat
  errors : Diagnostics
  /-- How many statements were rejected. -/
  rejected : Nat
  body : Body
  /-- The bodies around the current one, innermost first. -/
  enclosing : List Body

/-- The first token that is no error, what follows it, and the diagnostics with those of the errors
in front of it. At the end of the stream the token `last` stays. -/
def nextToken (source : Source) (last : Token) :
    List Token → Diagnostics → Token × List Token × Diagnostics
  | [], ds => (last, [], ds)
  | t :: ts, ds =>
    match source.scanError? t with
    | some d => nextToken source last ts (ds.push d)
    | none => (t, ts, ds)

namespace Parser

/-- A parser in front of a stream of tokens. -/
def start (source : Source) (tokens : List Token) : Parser :=
  let eof := Token.mark .endOfFile .start
  let (current, upcoming, errors) := nextToken source eof tokens .empty
  { source, upcoming, current, previous := eof, consumed := 0, errors,
    rejected := 0, body := .module, enclosing := [] }

/-- Moves to the next token. -/
def advance (p : Parser) : Parser :=
  let (current, upcoming, errors) := nextToken p.source p.current p.upcoming p.errors
  { p with upcoming, current, previous := p.current, consumed := p.consumed + 1, errors }

def atEnd (p : Parser) : Bool := p.current.kind = .endOfFile

/-- Records that something is wrong with a token. -/
def complain (p : Parser) (t : Token) (problem : Problem) : Parser :=
  { p with errors := p.errors.push (t.complain p.source problem.code problem.message) }

/-- Whether a statement can start with such a token, or a block end there. -/
def isBoundary : TokenKind → Bool
  | .keyword k =>
    k ∈ [.def_, .for_, .if_, .while_, .try_, .raise, .return_, .break_, .continue_, .except,
      .finally_, .local_, .nonlocal, .global_]
  | .symbol .at_ | .dedent => true
  | _ => false

/-- Moves on, at most `n` tokens, to the end of a line or the start of a statement. -/
def synchronizeWithin : Nat → Parser → Parser
  | 0, p => p
  | n + 1, p =>
    if p.atEnd || p.previous.kind = .newline || isBoundary p.current.kind then p
    else synchronizeWithin n p.advance

/-- Moves on to a place where reading can go on. -/
def synchronize (p : Parser) : Parser := synchronizeWithin (p.upcoming.length + 1) p

/-- The parser after the statement that started at `p` was rejected at `q`: at least one token
behind `p`, and where reading can go on. -/
def recover (p q : Parser) : Parser :=
  let q := { q with rejected := q.rejected + 1 }
  (if q.consumed = p.consumed ∧ !q.atEnd then q.advance else q).synchronize

/-- The first thing that was wrong since `p`, if it is still stored. -/
def complaintSince (p q : Parser) : String :=
  match q.errors.stored[p.errors.total]? with
  | some d => d.message
  | none => "invalid statement"

/-- Enters a function. -/
def enterFunction (p : Parser) (params : List String) : Parser :=
  { p with body := .function params, enclosing := p.body :: p.enclosing }

/-- Goes back to the body around the current one. -/
def leaveFunction (p : Parser) : Parser :=
  match p.enclosing with
  | b :: bs => { p with body := b, enclosing := bs }
  | [] => p

/-- Enters a loop. -/
def enterLoop (p : Parser) : Parser :=
  { p with body := { p.body with loopDepth := p.body.loopDepth + 1 } }

def leaveLoop (p : Parser) : Parser :=
  { p with body := { p.body with loopDepth := p.body.loopDepth - 1 } }

end Parser

/-! ## Reading -/

/-- How reading can fail. -/
inductive Failure where
  /-- A problem was recorded. -/
  | rejected
  /-- The bound on the depth of the recursion was reached. -/
  | outOfFuel
  deriving DecidableEq, Repr

/-- Readers of program parts. -/
abbrev Parse := EStateM Failure Parser

namespace Parse

variable {β : Type}

def outOfFuel : Parse β := throw .outOfFuel

/-- Rejects the statement because of the token `t`. -/
def rejectAt (t : Token) (problem : Problem) : Parse β := fun p =>
  .error .rejected (p.complain t problem)

/-- Rejects the statement because of the current token. -/
def reject (problem : Problem) : Parse β := fun p => rejectAt p.current problem p

/-- Rejects the statement because of the token before the current one. -/
def rejectPrevious (problem : Problem) : Parse β := fun p => rejectAt p.previous problem p

/-- The current token. -/
def peek : Parse Token := fun p => .ok p.current p

/-- The kind of the current token. -/
def peekKind : Parse TokenKind := fun p => .ok p.current.kind p

def previous : Parse Token := fun p => .ok p.previous p

/-- Takes the current token. -/
def advance : Parse Token := fun p => .ok p.current p.advance

/-- Whether the current token is of the given kind. -/
def at? (kind : TokenKind) : Parse Bool := fun p => .ok (p.current.kind = kind) p

def atEnd : Parse Bool := fun p => .ok p.atEnd p

/-- Takes the current token if it is of the given kind. -/
def eat (kind : TokenKind) : Parse Bool := fun p =>
  if p.current.kind = kind then .ok true p.advance else .ok false p

/-- Takes a token of the given kind. -/
def expect (kind : TokenKind) : Parse Token := fun p =>
  if p.current.kind = kind then .ok p.current p.advance else reject (.expected kind) p

/-- Takes a name. -/
def identifier : Parse (String × Span) := fun p =>
  match p.current.kind with
  | .identifier name => .ok (name, p.current.span) p.advance
  | _ => reject .expectedIdentifier p

/-- Takes the end of a line, which the end of the text is too. -/
def lineEnd : Parse Unit := fun p =>
  if p.current.kind = .newline then .ok () p.advance
  else if p.atEnd then .ok () p
  else reject .expectedLineEnd p

/-- Reads inside a new function, and leaves it also if that fails. -/
def inFunction (params : List String) (x : Parse β) : Parse β := fun p =>
  match x (p.enterFunction params) with
  | .ok b q => .ok b q.leaveFunction
  | .error e q => .error e q.leaveFunction

/-- Reads one loop deeper, and leaves it also if that fails. -/
def inLoop (x : Parse β) : Parse β := fun p =>
  match x p.enterLoop with
  | .ok b q => .ok b q.leaveLoop
  | .error e q => .error e q.leaveLoop

def body : Parse Body := fun p => .ok p.body p

/-- An occurrence of a variable, with the scope that is in force. -/
def resolve (name : String) : Parse Variable := fun p =>
  .ok ⟨name, p.body.scopeOf name⟩ { p with body := p.body.refer name }

/-- Declares a name that was read as the token `t`. -/
def declare (name : String) (scope : Scope) (t : Token) : Parse Unit := fun p =>
  match p.body.objection? name scope with
  | some problem => rejectAt t problem p
  | none => .ok () { p with body := p.body.declare name scope }

/-- Reads a statement; one that is rejected becomes a `bad` statement, and reading goes on
behind it. -/
def recovering (x : Parse (Option (Stmt Span))) : Parse (Option (Stmt Span)) := fun p =>
  match x p with
  | .error .rejected q => .ok (some (.bad p.current.span (p.complaintSince q))) (p.recover q)
  | r => r

end Parse

end DocScript
