import DocScript.Text.Span

/-!
# Programs

The tree of a script. Every node carries an annotation of type `α`: the grammar produces trees
annotated with spans, and `erase` forgets the annotations, which is the form that runs and the form
in which two scripts are compared.

Each occurrence of a variable says how it binds. An undeclared occurrence is `dynamic`; inside a
function, a declaration can make a name local to the call, bind it in an enclosing function, or make
it global.
-/

namespace DocScript

/-- How an occurrence of a variable binds. -/
inductive Scope where
  /-- Undeclared: the frames from the current one outwards, then the globals. -/
  | dynamic
  /-- The current frame only. -/
  | local_
  /-- The frames around the current one only; never makes a binding. -/
  | nonlocal
  /-- The globals only. -/
  | global_
  deriving DecidableEq, Repr

/-- The word that declares a scope. -/
def Scope.text : Scope → String
  | dynamic => ""
  | local_ => "local"
  | nonlocal => "nonlocal"
  | global_ => "global"

/-- An occurrence of a variable. -/
structure Variable where
  name : String
  scope : Scope
  deriving DecidableEq, Repr

inductive BinaryOp where
  | or | and | eq | notEq | less | lessEq | greater | greaterEq | add | sub | mul | div | pow
  deriving DecidableEq, Repr

def BinaryOp.text : BinaryOp → String
  | or => "or"
  | and => "and"
  | eq => "=="
  | notEq => "!="
  | less => "<"
  | lessEq => "<="
  | greater => ">"
  | greaterEq => ">="
  | add => "+"
  | sub => "-"
  | mul => "*"
  | div => "/"
  | pow => "**"

inductive UnaryOp where
  | neg | plus | not
  deriving DecidableEq, Repr

def UnaryOp.text : UnaryOp → String
  | neg => "-"
  | plus => "+"
  | not => "not"

mutual

/-- Expressions. -/
inductive Expr (α : Type) where
  | none (ann : α)
  | bool (ann : α) (b : Bool)
  | number (ann : α) (n : Float)
  | str (ann : α) (s : String)
  | var (ann : α) (v : Variable)
  | binary (ann : α) (op : BinaryOp) (left right : Expr α)
  | unary (ann : α) (op : UnaryOp) (operand : Expr α)
  | call (ann : α) (callee : Expr α) (args : List (Expr α))
  /-- `object[key]` -/
  | index (ann : α) (object key : Expr α)
  /-- `object->[key]`, a lookup in the prototype of the object -/
  | arrow (ann : α) (object key : Expr α)
  /-- A dict whose prototype is given in front. -/
  | protoDict (ann : α) (proto : Expr α) (entries : List (Expr α × Expr α))
  | list (ann : α) (items : List (Expr α))
  | dict (ann : α) (entries : List (Expr α × Expr α))
  | lambda (ann : α) (f : Function α)

/-- Statements. -/
inductive Stmt (α : Type) where
  | expr (ann : α) (e : Expr α)
  | assign (ann : α) (targets values : List (Expr α))
  /-- A definition with its decorators, from top to bottom. -/
  | define (ann : α) (decorators : List (Expr α)) (target : Variable) (f : Function α)
  | ifElse (ann : α) (cond : Expr α) (yes no : Block α)
  | whileLoop (ann : α) (cond : Expr α) (body : Block α)
  | forLoop (ann : α) (vars : List Variable) (iterable : Expr α) (body : Block α)
  | attempt (ann : α) (body : Block α) (handler : Option (Handler α)) (cleanup : Option (Block α))
  | raise (ann : α) (payload : Expr α)
  | ret (ann : α) (values : List (Expr α))
  | break_ (ann : α)
  | continue_ (ann : α)
  | declare (ann : α) (scope : Scope) (names : List String)
  /-- Stands for a statement that could not be read. -/
  | bad (ann : α) (message : String)

/-- An indented list of statements; empty if it only says `pass`. -/
structure Block (α : Type) where
  ann : α
  stmts : List (Stmt α)

/-- The clause that catches what a block raises, with the variable that takes the payload. -/
structure Handler (α : Type) where
  binding : Option Variable
  body : Block α

/-- What a definition and a lambda have in common. -/
structure Function (α : Type) where
  name : String
  params : List String
  body : Block α

end

/-- A script: its statements in order. -/
abbrev Program (α : Type) := List (Stmt α)

variable {α : Type}

namespace Expr

def ann : Expr α → α
  | none a | bool a _ | number a _ | str a _ | var a _ | binary a _ _ _ | unary a _ _ | call a _ _
  | index a _ _ | arrow a _ _ | protoDict a _ _ | list a _ | dict a _ | lambda a _ => a

/-- The same expression under another annotation. -/
def reannotate (a : α) : Expr α → Expr α
  | none _ => none a
  | bool _ b => bool a b
  | number _ n => number a n
  | str _ s => str a s
  | var _ v => var a v
  | binary _ op l r => binary a op l r
  | unary _ op e => unary a op e
  | call _ c as => call a c as
  | index _ o k => index a o k
  | arrow _ o k => arrow a o k
  | protoDict _ p es => protoDict a p es
  | list _ is => list a is
  | dict _ es => dict a es
  | lambda _ f => lambda a f

/-- What may stand on the left of an assignment. -/
def isTarget : Expr α → Bool
  | var _ _ | index _ _ _ => true
  | _ => false

end Expr

def Stmt.ann : Stmt α → α
  | expr a _ | assign a _ _ | define a _ _ _ | ifElse a _ _ _ | whileLoop a _ _ | forLoop a _ _ _
  | attempt a _ _ _ | raise a _ | ret a _ | break_ a | continue_ a | declare a _ _ | bad a _ => a

/-! ## Forgetting annotations -/

mutual

def Expr.erase : Expr α → Expr Unit
  | .none _ => .none ()
  | .bool _ b => .bool () b
  | .number _ n => .number () n
  | .str _ s => .str () s
  | .var _ v => .var () v
  | .binary _ op l r => .binary () op l.erase r.erase
  | .unary _ op e => .unary () op e.erase
  | .call _ c as => .call () c.erase (eraseExprs as)
  | .index _ o k => .index () o.erase k.erase
  | .arrow _ o k => .arrow () o.erase k.erase
  | .protoDict _ p es => .protoDict () p.erase (eraseEntries es)
  | .list _ is => .list () (eraseExprs is)
  | .dict _ es => .dict () (eraseEntries es)
  | .lambda _ f => .lambda () f.erase

def eraseExprs : List (Expr α) → List (Expr Unit)
  | [] => []
  | e :: es => e.erase :: eraseExprs es

def eraseEntries : List (Expr α × Expr α) → List (Expr Unit × Expr Unit)
  | [] => []
  | (k, v) :: es => (k.erase, v.erase) :: eraseEntries es

def Stmt.erase : Stmt α → Stmt Unit
  | .expr _ e => .expr () e.erase
  | .assign _ ts vs => .assign () (eraseExprs ts) (eraseExprs vs)
  | .define _ ds v f => .define () (eraseExprs ds) v f.erase
  | .ifElse _ c y n => .ifElse () c.erase y.erase n.erase
  | .whileLoop _ c b => .whileLoop () c.erase b.erase
  | .forLoop _ vs e b => .forLoop () vs e.erase b.erase
  | .attempt _ b h c => .attempt () b.erase (eraseHandler h) (eraseCleanup c)
  | .raise _ e => .raise () e.erase
  | .ret _ vs => .ret () (eraseExprs vs)
  | .break_ _ => .break_ ()
  | .continue_ _ => .continue_ ()
  | .declare _ s ns => .declare () s ns
  | .bad _ m => .bad () m

def eraseStmts : List (Stmt α) → List (Stmt Unit)
  | [] => []
  | s :: ss => s.erase :: eraseStmts ss

def Block.erase : Block α → Block Unit
  | ⟨_, ss⟩ => ⟨(), eraseStmts ss⟩

def eraseHandler : Option (Handler α) → Option (Handler Unit)
  | none => none
  | some ⟨v, b⟩ => some ⟨v, b.erase⟩

def eraseCleanup : Option (Block α) → Option (Block Unit)
  | none => none
  | some b => some b.erase

def Function.erase : Function α → Function Unit
  | ⟨n, ps, b⟩ => ⟨n, ps, b.erase⟩

end

/-- The script without its annotations. -/
def Program.erase (p : Program α) : Program Unit := eraseStmts p

end DocScript
