import DocScript.Grammar.Parser

/-!
# The grammar of expressions

Binary operators are read by precedence climbing: `operation min` takes an operand and then folds the
operators of level `min` and above onto it. All of them group to the left. Unary operators and
lambdas bind tighter, and calls, indexing and prototypes tighter still.

Every reader takes a bound on the depth of its recursion, which only nesting and the length
of the input use up.
-/

namespace DocScript

namespace BinaryOp

/-- The level of an operator; a higher level binds tighter. -/
def level : BinaryOp → Nat
  | or => 0
  | and => 1
  | eq | notEq => 2
  | less | lessEq | greater | greaterEq => 3
  | add | sub => 4
  | mul | div | pow => 5

/-- The operator that a token stands for between two operands. -/
def ofToken? : TokenKind → Option BinaryOp
  | .keyword .or => some or
  | .keyword .and => some and
  | .symbol .eqEq => some eq
  | .symbol .bangEq => some notEq
  | .symbol .less => some less
  | .symbol .lessEq => some lessEq
  | .symbol .greater => some greater
  | .symbol .greaterEq => some greaterEq
  | .symbol .plus => some add
  | .symbol .minus => some sub
  | .symbol .star => some mul
  | .symbol .slash => some div
  | .symbol .starStar => some pow
  | _ => none

end BinaryOp

/-- The operator that a token stands for in front of an operand. -/
def UnaryOp.ofToken? : TokenKind → Option UnaryOp
  | .symbol .minus => some neg
  | .symbol .plus => some plus
  | .keyword .not => some not
  | _ => none

namespace Parse

/-- Names up to the token `close`, which is not taken; a comma may end the list. -/
def params (close : TokenKind) : Nat → Parse (List String)
  | 0 => outOfFuel
  | n + 1 => do
    if ← at? close then return []
    let (name, _) ← identifier
    if ← eat (.symbol .comma) then return name :: (← params close n)
    return [name]

/-- A name as a key. -/
def nameKey : Parse (Expr Span) := do
  let (name, span) ← identifier
  return .str span name

/-- The lambda with the given result. -/
def lambdaOf (start : Span) (params : List String) (result : Expr Span) : Expr Span :=
  let span := start.merge result.ann
  .lambda span ⟨"lambda", params, ⟨span, [.ret span [result]]⟩⟩

mutual

/-- Any expression. -/
def expression : Nat → Parse (Expr Span)
  | 0 => outOfFuel
  | n + 1 => operation n 0

/-- An expression of operators of level `min` and above. -/
def operation : Nat → Nat → Parse (Expr Span)
  | 0, _ => outOfFuel
  | n + 1, min => do
    let left ← unary n
    operators n min left

/-- Folds operators of level `min` and above onto `left`. -/
def operators : Nat → Nat → Expr Span → Parse (Expr Span)
  | 0, _, _ => outOfFuel
  | n + 1, min, left => do
    match BinaryOp.ofToken? (← peekKind) with
    | none => return left
    | some op =>
      if op.level < min then return left
      let _ ← advance
      let right ← operation n (op.level + 1)
      operators n min (.binary (left.ann.merge right.ann) op left right)

/-- An operand: unary operators, a lambda, or a primary with what follows it. -/
def unary : Nat → Parse (Expr Span)
  | 0 => outOfFuel
  | n + 1 => do
    let t ← peek
    match UnaryOp.ofToken? t.kind with
    | some op =>
      let _ ← advance
      let operand ← unary n
      return .unary (t.span.merge operand.ann) op operand
    | none =>
      if t.kind = .keyword .lambda then lambda n
      else
        let e ← primary n
        postfixes n e

/-- `lambda a, b: e` -/
def lambda : Nat → Parse (Expr Span)
  | 0 => outOfFuel
  | n + 1 => do
    let start ← advance
    let ps ← params (.symbol .colon) n
    let _ ← expect (.symbol .colon)
    let result ← inFunction ps (expression n)
    return lambdaOf start.span ps result

/-- Calls, indexing and prototypes behind the expression `e`. -/
def postfixes : Nat → Expr Span → Parse (Expr Span)
  | 0, _ => outOfFuel
  | n + 1, e => do
    match ← peekKind with
    | .symbol .lparen =>
      let _ ← advance
      let args ← commaList (.symbol .rparen) n
      let close ← expect (.symbol .rparen)
      postfixes n (.call (e.ann.merge close.span) e args)
    | .symbol .lbracket =>
      let _ ← advance
      let key ← expression n
      let close ← expect (.symbol .rbracket)
      postfixes n (.index (e.ann.merge close.span) e key)
    | .symbol .dot =>
      let _ ← advance
      let key ← nameKey
      postfixes n (.index (e.ann.merge key.ann) e key)
    | .symbol .arrow =>
      let _ ← advance
      let key ← arrowKey n
      let last ← previous
      postfixes n (.arrow (e.ann.merge last.span) e key)
    | .symbol .lbrace =>
      let (entries, close) ← dictBody n
      postfixes n (.protoDict (e.ann.merge close) e entries)
    | _ => return e

/-- What follows an arrow: a name, or an expression in brackets. -/
def arrowKey : Nat → Parse (Expr Span)
  | 0 => outOfFuel
  | n + 1 => do
    if ← eat (.symbol .lbracket) then
      let key ← expression n
      let _ ← expect (.symbol .rbracket)
      return key
    else nameKey

/-- Literals, variables, and what stands in brackets. -/
def primary : Nat → Parse (Expr Span)
  | 0 => outOfFuel
  | n + 1 => do
    let t ← peek
    match t.kind with
    | .number x =>
      let _ ← advance
      return .number t.span x
    | .string s =>
      let _ ← advance
      return .str t.span s
    | .keyword .true =>
      let _ ← advance
      return .bool t.span true
    | .keyword .false =>
      let _ ← advance
      return .bool t.span false
    | .keyword .none =>
      let _ ← advance
      return .none t.span
    | .identifier name =>
      let v ← resolve name
      let _ ← advance
      return .var t.span v
    | .symbol .lparen =>
      let _ ← advance
      let e ← expression n
      let close ← expect (.symbol .rparen)
      return e.reannotate (t.span.merge close.span)
    | .symbol .lbracket =>
      let _ ← advance
      let items ← commaList (.symbol .rbracket) n
      let close ← expect (.symbol .rbracket)
      return .list (t.span.merge close.span) items
    | .symbol .lbrace =>
      let (entries, close) ← dictBody n
      return .dict (t.span.merge close) entries
    | _ => reject .expectedExpression

/-- Expressions up to the token `close`, which is not taken; a comma may end the list. -/
def commaList (close : TokenKind) : Nat → Parse (List (Expr Span))
  | 0 => outOfFuel
  | n + 1 => do
    if ← at? close then return []
    let e ← expression n
    if ← eat (.symbol .comma) then return e :: (← commaList close n)
    return [e]

/-- Entries in braces, and the span of the closing one. -/
def dictBody : Nat → Parse (List (Expr Span × Expr Span) × Span)
  | 0 => outOfFuel
  | n + 1 => do
    let _ ← expect (.symbol .lbrace)
    let entries ← dictEntries n
    let close ← expect (.symbol .rbrace)
    return (entries, close.span)

/-- Entries up to a closing brace, which is not taken; a comma may end the list. -/
def dictEntries : Nat → Parse (List (Expr Span × Expr Span))
  | 0 => outOfFuel
  | n + 1 => do
    if ← at? (.symbol .rbrace) then return []
    let key ← dictKey n
    let _ ← expect (.symbol .colon)
    let value ← expression n
    if ← eat (.symbol .comma) then return (key, value) :: (← dictEntries n)
    return [(key, value)]

/-- A key: a name in front of a colon stands for itself as a string, anything else is an
expression. -/
def dictKey : Nat → Parse (Expr Span)
  | 0 => outOfFuel
  | n + 1 => do
    let t ← peek
    match t.kind with
    | .identifier name =>
      let _ ← advance
      if ← at? (.symbol .colon) then return .str t.span name
      let v ← resolve name
      let e ← postfixes n (.var t.span v)
      operators n 0 e
    | _ => expression n

end

/-- One expression or several with commas between them. -/
def expressions : Nat → Parse (List (Expr Span))
  | 0 => outOfFuel
  | n + 1 => do
    let e ← expression n
    if ← eat (.symbol .comma) then return e :: (← expressions n)
    return [e]

end Parse

end DocScript
