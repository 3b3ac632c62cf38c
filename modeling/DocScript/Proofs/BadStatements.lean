import DocScript.Program

/-!
# How many statements of a program could not be read

A `bad` statement stands in the place of one that was rejected. `Program.bads` counts them at every
depth : in blocks, in the functions that are defined, and in the functions inside expressions.
-/

namespace DocScript

variable {α : Type}

mutual

/-- The `bad` statements inside an expression, which stand in the bodies of its functions. -/
def Expr.bads : Expr α → Nat
  | .none _ | .bool _ _ | .number _ _ | .str _ _ | .var _ _ => 0
  | .binary _ _ l r => l.bads + r.bads
  | .unary _ _ e => e.bads
  | .call _ f as => f.bads + badsOfExprs as
  | .index _ o k => o.bads + k.bads
  | .arrow _ o k => o.bads + k.bads
  | .protoDict _ p es => p.bads + badsOfEntries es
  | .list _ is => badsOfExprs is
  | .dict _ es => badsOfEntries es
  | .lambda _ f => f.bads

def badsOfExprs : List (Expr α) → Nat
  | [] => 0
  | e :: es => e.bads + badsOfExprs es

def badsOfEntries : List (Expr α × Expr α) → Nat
  | [] => 0
  | (k, v) :: es => (k.bads + v.bads) + badsOfEntries es

/-- The `bad` statements in a statement, itself included. -/
def Stmt.bads : Stmt α → Nat
  | .expr _ e => e.bads
  | .assign _ ts vs => badsOfExprs ts + badsOfExprs vs
  | .define _ ds _ f => badsOfExprs ds + f.bads
  | .ifElse _ e y n => e.bads + (y.bads + n.bads)
  | .whileLoop _ e b => e.bads + b.bads
  | .forLoop _ _ e b => e.bads + b.bads
  | .attempt _ b h c => b.bads + (badsOfHandler h + badsOfCleanup c)
  | .raise _ e => e.bads
  | .ret _ vs => badsOfExprs vs
  | .break_ _ | .continue_ _ | .declare _ _ _ => 0
  | .bad _ _ => 1

def badsOfStmts : List (Stmt α) → Nat
  | [] => 0
  | s :: ss => s.bads + badsOfStmts ss

def Block.bads : Block α → Nat
  | ⟨_, ss⟩ => badsOfStmts ss

def badsOfHandler : Option (Handler α) → Nat
  | none => 0
  | some ⟨_, b⟩ => b.bads

def badsOfCleanup : Option (Block α) → Nat
  | none => 0
  | some b => b.bads

def Function.bads : Function α → Nat
  | ⟨_, _, b⟩ => b.bads

end

/-- The statements of a script, at every depth, that could not be read. -/
def Program.bads (p : Program α) : Nat := badsOfStmts p

attribute [simp] Expr.bads badsOfExprs badsOfEntries Stmt.bads badsOfStmts Block.bads badsOfHandler
  badsOfCleanup Function.bads

@[simp] theorem Expr.bads_reannotate (a : α) (e : Expr α) : (e.reannotate a).bads = e.bads := by
  cases e <;> simp [reannotate]

@[simp] theorem badsOfStmts_append (ss ss' : List (Stmt α)) :
    badsOfStmts (ss ++ ss') = badsOfStmts ss + badsOfStmts ss' := by
  induction ss with
  | nil => simp
  | cons s ss ih => simp [ih, Nat.add_assoc]

end DocScript
