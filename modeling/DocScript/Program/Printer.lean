import DocScript.Program
import DocScript.Number
import DocScript.Text.Quoted

/-!
# The text of a program

One statement per line, four blanks for each level of nesting. An empty block is written `pass`, every
conditional has its `else`, and operands that are operations or lambdas themselves stand in parentheses,
so that the text shows how the program groups.
-/

namespace DocScript

variable {α : Type}

/-- Items separated by commas. -/
def commaSeparated (items : List String) : String := String.intercalate ", " items

/-- A line break and the indentation of level `depth`. -/
def lineAt (depth : Nat) : String := String.ofList ('\n' :: List.replicate (4 * depth) ' ')

/-- Operands of these shapes stand in parentheses. -/
def Expr.isCompound : Expr α → Bool
  | .binary .. | .unary .. | .lambda .. => true
  | _ => false

def Expr.parenthesize (e : Expr α) (text : String) : String :=
  if e.isCompound then "(" ++ text ++ ")" else text

/-- An operator in front of its operand: a word is set off by a blank. -/
def UnaryOp.lead : UnaryOp → String
  | .not => "not "
  | op => op.text

mutual

def Expr.print : Expr α → String
  | .none _ => "None"
  | .bool _ true => "True"
  | .bool _ false => "False"
  | .number _ n => Number.text n
  | .str _ s => Quoted.quote s
  | .var _ v => v.name
  | .binary _ op l r =>
    l.parenthesize l.print ++ " " ++ op.text ++ " " ++ r.parenthesize r.print
  | .unary _ op e => op.lead ++ e.parenthesize e.print
  | .call _ c as => c.print ++ "(" ++ commaSeparated (printExprs as) ++ ")"
  | .index _ o k => o.print ++ "[" ++ k.print ++ "]"
  | .arrow _ o k => o.print ++ "->[" ++ k.print ++ "]"
  | .protoDict _ p es => p.print ++ "\x7b" ++ commaSeparated (printEntries es) ++ "\x7d"
  | .list _ is => "[" ++ commaSeparated (printExprs is) ++ "]"
  | .dict _ es => "\x7b" ++ commaSeparated (printEntries es) ++ "\x7d"
  | .lambda _ f => f.printLambda

def printExprs : List (Expr α) → List String
  | [] => []
  | e :: es => e.print :: printExprs es

def printEntries : List (Expr α × Expr α) → List String
  | [] => []
  | (k, v) :: es => (k.print ++ ": " ++ v.print) :: printEntries es

/-- A function as an expression: its parameters and what it returns. -/
def Function.printLambda : Function α → String
  | ⟨_, ps, ⟨_, ss⟩⟩ =>
    (if ps.isEmpty then "lambda" else "lambda " ++ commaSeparated ps) ++ ": "
      ++ commaSeparated (printResult ss)

/-- What a body that starts with `return` returns. -/
def printResult : List (Stmt α) → List String
  | .ret _ vs :: _ => printExprs vs
  | _ => []

end

/-- Decorators, each on a line of its own. -/
def printDecorators (depth : Nat) (decorators : List (Expr α)) : String :=
  String.join (decorators.map fun d => "@" ++ d.print ++ lineAt depth)

mutual

/-- A statement of level `depth`, without the blanks in front of its first line. -/
def Stmt.print (depth : Nat) : Stmt α → String
  | .expr _ e => e.print
  | .assign _ ts vs => commaSeparated (printExprs ts) ++ " = " ++ commaSeparated (printExprs vs)
  | .define _ ds v ⟨_, ps, b⟩ =>
    printDecorators depth ds ++ "def " ++ v.name ++ "(" ++ commaSeparated ps ++ ")" ++ b.print depth
  | .ifElse _ c y n =>
    "if " ++ c.print ++ y.print depth ++ lineAt depth ++ "else" ++ n.print depth
  | .whileLoop _ c b => "while " ++ c.print ++ b.print depth
  | .forLoop _ vs e b =>
    "for " ++ commaSeparated (vs.map Variable.name) ++ " in " ++ e.print ++ b.print depth
  | .attempt _ b h c => "try" ++ b.print depth ++ printHandler depth h ++ printCleanup depth c
  | .raise _ e => "raise " ++ e.print
  | .ret _ [] => "return"
  | .ret _ vs => "return " ++ commaSeparated (printExprs vs)
  | .break_ _ => "break"
  | .continue_ _ => "continue"
  | .declare _ s ns => s.text ++ " " ++ commaSeparated ns
  | .bad _ m => "<bad statement: " ++ m ++ ">"

/-- The statements of a block, each on a line of its own. -/
def printStmts (depth : Nat) : List (Stmt α) → String
  | [] => ""
  | s :: ss => lineAt depth ++ s.print depth ++ printStmts depth ss

/-- The block that belongs to a statement of level `depth`. -/
def Block.print (depth : Nat) : Block α → String
  | ⟨_, []⟩ => ":" ++ lineAt (depth + 1) ++ "pass"
  | ⟨_, s :: ss⟩ => ":" ++ lineAt (depth + 1) ++ s.print (depth + 1) ++ printStmts (depth + 1) ss

def printHandler (depth : Nat) : Option (Handler α) → String
  | none => ""
  | some ⟨none, b⟩ => lineAt depth ++ "except" ++ b.print depth
  | some ⟨some v, b⟩ => lineAt depth ++ "except as " ++ v.name ++ b.print depth

def printCleanup (depth : Nat) : Option (Block α) → String
  | none => ""
  | some b => lineAt depth ++ "finally" ++ b.print depth

end

/-- The text of a script. -/
def Program.print (p : Program α) : String := String.intercalate "\n" (p.map (Stmt.print 0))

end DocScript
