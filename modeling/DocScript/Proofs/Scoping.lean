import DocScript.Program

/-!
# Uniformly scoped functions

How a variable binds is written on each of its occurrences. The occurrences of one name in one function
should agree, and agree with the declarations of the function, wherever in the function these stand.

The mentions of a piece of code are what it says about names : the occurrences of variables, the names
that it declares, and the functions in it, each of which is one mention and no more. The body of a
function has mentions of its own, while the target and the decorators of its definition are mentions of
the code around it. So the mentions of a body are exactly what belongs to it, at any depth of its blocks
and expressions, in the order of the text.

`Function.Scoped` says of a function and of all functions inside it that their mentions are `Uniform` : a
declared name is no parameter, has one scope in all declarations, and every occurrence has it; any other
name is dynamic.
-/

namespace DocScript

variable {α : Type}

/-! ## What code says about names -/

/-- One thing that code says about names. -/
inductive Mention (α : Type) where
  /-- A variable is used or assigned to. -/
  | occurrence (v : Variable)
  | declaration (name : String) (scope : Scope)
  /-- A function is made; what its body says is not said here. -/
  | function (f : Function α)

mutual

/-- The mentions of an expression, in the order of the text. -/
def Expr.mentions : Expr α → List (Mention α)
  | .none _ | .bool _ _ | .number _ _ | .str _ _ => []
  | .var _ v => [.occurrence v]
  | .binary _ _ l r => l.mentions ++ r.mentions
  | .unary _ _ e => e.mentions
  | .call _ f as => f.mentions ++ mentionsOfExprs as
  | .index _ o k => o.mentions ++ k.mentions
  | .arrow _ o k => o.mentions ++ k.mentions
  | .protoDict _ p es => p.mentions ++ mentionsOfEntries es
  | .list _ is => mentionsOfExprs is
  | .dict _ es => mentionsOfEntries es
  | .lambda _ f => [.function f]

def mentionsOfExprs : List (Expr α) → List (Mention α)
  | [] => []
  | e :: es => e.mentions ++ mentionsOfExprs es

def mentionsOfEntries : List (Expr α × Expr α) → List (Mention α)
  | [] => []
  | (k, v) :: es => (k.mentions ++ v.mentions) ++ mentionsOfEntries es

end

mutual

/-- The mentions of a statement, in the order of the text. -/
def Stmt.mentions : Stmt α → List (Mention α)
  | .expr _ e => e.mentions
  | .assign _ ts vs => mentionsOfExprs ts ++ mentionsOfExprs vs
  | .define _ ds v f => mentionsOfExprs ds ++ [.occurrence v, .function f]
  | .ifElse _ e y n => e.mentions ++ (y.mentions ++ n.mentions)
  | .whileLoop _ e b => e.mentions ++ b.mentions
  | .forLoop _ vs e b => vs.map .occurrence ++ (e.mentions ++ b.mentions)
  | .attempt _ b h c => b.mentions ++ (mentionsOfHandler h ++ mentionsOfCleanup c)
  | .raise _ e => e.mentions
  | .ret _ vs => mentionsOfExprs vs
  | .break_ _ | .continue_ _ | .bad _ _ => []
  | .declare _ s ns => ns.map (.declaration · s)

def mentionsOfStmts : List (Stmt α) → List (Mention α)
  | [] => []
  | s :: ss => s.mentions ++ mentionsOfStmts ss

def Block.mentions : Block α → List (Mention α)
  | ⟨_, ss⟩ => mentionsOfStmts ss

def mentionsOfHandler : Option (Handler α) → List (Mention α)
  | none => []
  | some ⟨v, b⟩ => v.toList.map .occurrence ++ b.mentions

def mentionsOfCleanup : Option (Block α) → List (Mention α)
  | none => []
  | some b => b.mentions

end

attribute [simp] Expr.mentions mentionsOfExprs mentionsOfEntries Stmt.mentions mentionsOfStmts
  Block.mentions mentionsOfHandler mentionsOfCleanup

@[simp] theorem Expr.mentions_reannotate (a : α) (e : Expr α) :
    (e.reannotate a).mentions = e.mentions := by
  cases e <;> simp [reannotate]

@[simp] theorem mentionsOfStmts_append (ss ss' : List (Stmt α)) :
    mentionsOfStmts (ss ++ ss') = mentionsOfStmts ss ++ mentionsOfStmts ss' := by
  induction ss with
  | nil => simp
  | cons s ss ih => simp [ih]

/-! ## Uniform scopes -/

/-- The occurrences of each name have one scope in the body of a function with the parameters `params`
and the mentions `ms` : the declared one, or the dynamic one for a name that is not declared there. -/
structure Uniform (params : List String) (ms : List (Mention α)) : Prop where
  declared : ∀ {x s}, .declaration x s ∈ ms →
    s ≠ .dynamic ∧ x ∉ params ∧ (∀ s', .declaration x s' ∈ ms → s' = s) ∧
      ∀ v, .occurrence v ∈ ms → v.name = x → v.scope = s
  undeclared : ∀ {v}, .occurrence v ∈ ms → (∀ s, .declaration v.name s ∉ ms) → v.scope = .dynamic

/-- The scopes are uniform in the function and in all functions inside it, at every depth. -/
inductive Function.Scoped : Function α → Prop where
  | intro {f : Function α} (uniform : Uniform f.params f.body.mentions)
      (inner : ∀ g, .function g ∈ f.body.mentions → g.Scoped) : f.Scoped

/-- The scopes are uniform in all functions of the script, and the code outside of them, which declares
nothing, has dynamic variables only. -/
structure Program.Scoped (p : Program α) : Prop where
  undeclared : ∀ x s, .declaration x s ∉ mentionsOfStmts p
  dynamic : ∀ v, .occurrence v ∈ mentionsOfStmts p → v.scope = .dynamic
  functions : ∀ f, .function f ∈ mentionsOfStmts p → f.Scoped

end DocScript
