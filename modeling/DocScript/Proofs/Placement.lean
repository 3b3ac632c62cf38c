import DocScript.Program

/-!
# Well-placed programs

Some statements make sense only in some places : `break` and `continue` inside a loop, `return` and
declarations inside a function. A `Place` says which of these surround a statement. The body of a
function is a place of its own : loops around the function do not count inside it.

`Stmt.Placed c s` says that everything in `s`, at every depth, stands where it may if `s` itself stands
at the place `c`, and that no part of `s` is missing : a declaration names a scope and at least one
variable, an assignment has targets that can be assigned to and values, a `for` loop has variables, a
`try` has a handler or a cleanup, and a lambda returns one expression.
-/

namespace DocScript

/-- What surrounds a statement. -/
structure Place where
  /-- A function. -/
  inFunction : Bool
  /-- A loop of the same function body, or of the module. -/
  inLoop : Bool
  deriving DecidableEq, Repr

namespace Place

def module : Place := ⟨false, false⟩

/-- The place of the statements of a function body. -/
def function : Place := ⟨true, false⟩

/-- The place of the statements of a loop that stands at `c`. -/
def loop (c : Place) : Place := { c with inLoop := true }

end Place

variable {α : Type}

/-- The function does nothing but return one expression. -/
def Function.returnsOne : Function α → Bool
  | ⟨_, _, ⟨_, [.ret _ [_]]⟩⟩ => true
  | _ => false

mutual

/-- All functions inside the expression are well placed. -/
def Expr.Placed : Expr α → Prop
  | .none _ | .bool _ _ | .number _ _ | .str _ _ | .var _ _ => True
  | .binary _ _ l r => l.Placed ∧ r.Placed
  | .unary _ _ e => e.Placed
  | .call _ f as => f.Placed ∧ ExprsPlaced as
  | .index _ o k => o.Placed ∧ k.Placed
  | .arrow _ o k => o.Placed ∧ k.Placed
  | .protoDict _ p es => p.Placed ∧ EntriesPlaced es
  | .list _ is => ExprsPlaced is
  | .dict _ es => EntriesPlaced es
  | .lambda _ f => f.returnsOne ∧ f.Placed

def ExprsPlaced : List (Expr α) → Prop
  | [] => True
  | e :: es => e.Placed ∧ ExprsPlaced es

def EntriesPlaced : List (Expr α × Expr α) → Prop
  | [] => True
  | (k, v) :: es => (k.Placed ∧ v.Placed) ∧ EntriesPlaced es

/-- The statement and everything inside it may stand at the place. -/
def Stmt.Placed : Place → Stmt α → Prop
  | _, .expr _ e => e.Placed
  | _, .assign _ ts vs =>
    (ts ≠ [] ∧ (∀ t ∈ ts, t.isTarget) ∧ ExprsPlaced ts) ∧ vs ≠ [] ∧ ExprsPlaced vs
  | _, .define _ ds _ f => ExprsPlaced ds ∧ f.Placed
  | c, .ifElse _ e y n => e.Placed ∧ y.Placed c ∧ n.Placed c
  | c, .whileLoop _ e b => e.Placed ∧ b.Placed c.loop
  | c, .forLoop _ vs e b => vs ≠ [] ∧ e.Placed ∧ b.Placed c.loop
  | c, .attempt _ b h f =>
    (h.isSome ∨ f.isSome) ∧ b.Placed c ∧ HandlerPlaced c h ∧ CleanupPlaced c f
  | _, .raise _ e => e.Placed
  | c, .ret _ vs => c.inFunction ∧ ExprsPlaced vs
  | c, .break_ _ | c, .continue_ _ => c.inLoop
  | c, .declare _ s ns => c.inFunction ∧ s ≠ .dynamic ∧ ns ≠ []
  | _, .bad _ _ => True

def StmtsPlaced : Place → List (Stmt α) → Prop
  | _, [] => True
  | c, s :: ss => s.Placed c ∧ StmtsPlaced c ss

def Block.Placed : Place → Block α → Prop
  | c, ⟨_, ss⟩ => StmtsPlaced c ss

def HandlerPlaced : Place → Option (Handler α) → Prop
  | _, none => True
  | c, some ⟨_, b⟩ => b.Placed c

def CleanupPlaced : Place → Option (Block α) → Prop
  | _, none => True
  | c, some b => b.Placed c

def Function.Placed : Function α → Prop
  | ⟨_, _, b⟩ => b.Placed .function

end

/-- The script may be run as a module. -/
def Program.Placed (p : Program α) : Prop := StmtsPlaced .module p

theorem Expr.placed_reannotate (a : α) (e : Expr α) : (e.reannotate a).Placed ↔ e.Placed := by
  cases e <;> simp only [reannotate, Placed]

theorem stmtsPlaced_append (c : Place) (ss ss' : List (Stmt α)) :
    StmtsPlaced c (ss ++ ss') ↔ StmtsPlaced c ss ∧ StmtsPlaced c ss' := by
  induction ss with
  | nil => simp [StmtsPlaced]
  | cons s ss ih => simp [StmtsPlaced, ih, and_assoc]

theorem stmtsPlaced_mem {c : Place} {ss : List (Stmt α)} (h : StmtsPlaced c ss) {s : Stmt α}
    (hs : s ∈ ss) : s.Placed c := by
  induction ss with
  | nil => simp at hs
  | cons t ss ih =>
    rcases List.mem_cons.1 hs with rfl | hs
    · exact h.1
    · exact ih h.2 hs

end DocScript
