import DocScript.Program.Printer
import DocScript.Proofs.Grammar.Stamps
import DocScript.Proofs.Placement
import DocScript.Proofs.Print.Lexemes

/-!
# Legible programs

A program can be read back from its text if the text says all that there is to it. Three shapes of expression
are printed as the text of another expression : an operation or a lambda in front of a call, an index, an
arrow or an entry list (only operands get parentheses), a variable as a key of a dict (which is read as a
string), and an infinite number (which is printed as a name). `Check.clear` says that there are none of these.
Beyond that, the names and numbers of the program have to be such as the scanner reads (`Check.lexical`),
everything has to stand where it may, and the scopes have to be those that a parser would write.

The first two are checks of single nodes; `Check` carries a check of nodes through a program. `Legible` puts all
four together.
-/

namespace DocScript

variable {α : Type}

/-- A check of single expressions and statements. -/
structure Check (α : Type) where
  expr : Expr α → Bool
  stmt : Stmt α → Bool

mutual

/-- The check passes at every node of the expression. -/
def Expr.passes (c : Check α) : Expr α → Bool
  | .none a => c.expr (.none a)
  | .bool a b => c.expr (.bool a b)
  | .number a n => c.expr (.number a n)
  | .str a s => c.expr (.str a s)
  | .var a v => c.expr (.var a v)
  | .binary a op l r => c.expr (.binary a op l r) && (l.passes c && r.passes c)
  | .unary a op e => c.expr (.unary a op e) && e.passes c
  | .call a f as => c.expr (.call a f as) && (f.passes c && exprsPass c as)
  | .index a o k => c.expr (.index a o k) && (o.passes c && k.passes c)
  | .arrow a o k => c.expr (.arrow a o k) && (o.passes c && k.passes c)
  | .protoDict a p es => c.expr (.protoDict a p es) && (p.passes c && entriesPass c es)
  | .list a is => c.expr (.list a is) && exprsPass c is
  | .dict a es => c.expr (.dict a es) && entriesPass c es
  | .lambda a f => c.expr (.lambda a f) && f.passes c

def exprsPass (c : Check α) : List (Expr α) → Bool
  | [] => true
  | e :: es => e.passes c && exprsPass c es

def entriesPass (c : Check α) : List (Expr α × Expr α) → Bool
  | [] => true
  | (k, v) :: es => (k.passes c && v.passes c) && entriesPass c es

/-- The check passes at every node of the statement. -/
def Stmt.passes (c : Check α) : Stmt α → Bool
  | .expr a e => c.stmt (.expr a e) && e.passes c
  | .assign a ts vs => c.stmt (.assign a ts vs) && (exprsPass c ts && exprsPass c vs)
  | .define a ds v f => c.stmt (.define a ds v f) && (exprsPass c ds && f.passes c)
  | .ifElse a e y n => c.stmt (.ifElse a e y n) && (e.passes c && (y.passes c && n.passes c))
  | .whileLoop a e b => c.stmt (.whileLoop a e b) && (e.passes c && b.passes c)
  | .forLoop a vs e b => c.stmt (.forLoop a vs e b) && (e.passes c && b.passes c)
  | .attempt a b h f =>
    c.stmt (.attempt a b h f) && (b.passes c && (handlerPasses c h && cleanupPasses c f))
  | .raise a e => c.stmt (.raise a e) && e.passes c
  | .ret a vs => c.stmt (.ret a vs) && exprsPass c vs
  | .break_ a => c.stmt (.break_ a)
  | .continue_ a => c.stmt (.continue_ a)
  | .declare a s ns => c.stmt (.declare a s ns)
  | .bad a m => c.stmt (.bad a m)

def stmtsPass (c : Check α) : List (Stmt α) → Bool
  | [] => true
  | s :: ss => s.passes c && stmtsPass c ss

def Block.passes (c : Check α) : Block α → Bool
  | ⟨_, ss⟩ => stmtsPass c ss

def handlerPasses (c : Check α) : Option (Handler α) → Bool
  | none => true
  | some ⟨_, b⟩ => b.passes c

def cleanupPasses (c : Check α) : Option (Block α) → Bool
  | none => true
  | some b => b.passes c

def Function.passes (c : Check α) : Function α → Bool
  | ⟨_, _, b⟩ => b.passes c

end

attribute [simp] Expr.passes exprsPass entriesPass Stmt.passes stmtsPass Block.passes handlerPasses
  cleanupPasses Function.passes

namespace Check

/-- A number that is neither negative nor NaN. -/
def isUnsigned (x : Float) : Bool :=
  match Parts.ofFloat x with
  | .finite negative _ _ | .infinite negative => !negative
  | .nan => false

def isFinite (x : Float) : Bool :=
  match Parts.ofFloat x with
  | .finite .. => true
  | _ => false

/-- Names are names, numbers are such as the scanner reads, and a function is named after its definition. -/
def lexical : Check α where
  expr
    | .number _ n => isUnsigned n
    | .var _ v => Lexeme.isName v.name
    | .lambda _ f => f.name == "lambda" && f.params.all Lexeme.isName
    | _ => true
  stmt
    | .define _ _ v f => f.name == v.name && Lexeme.isName v.name && f.params.all Lexeme.isName
    | .forLoop _ vs _ _ => vs.all (Lexeme.isName ·.name)
    | .attempt _ _ (some ⟨some v, _⟩) _ => Lexeme.isName v.name
    | .declare _ _ ns => ns.all Lexeme.isName
    | .bad _ _ => false
    | _ => true

/-- Whether the expression is a variable. -/
def isVar : Expr α → Bool
  | .var _ _ => true
  | _ => false

/-- The expression is not printed as the text of another one. -/
def clear : Check α where
  expr
    | .number _ n => isFinite n
    | .call _ e _ | .index _ e _ | .arrow _ e _ => !e.isCompound
    | .protoDict _ e es => !e.isCompound && es.all (!isVar ·.1)
    | .dict _ es => es.all (!isVar ·.1)
    | _ => true
  stmt _ := true

end Check

/-- What is asked of code that is to be read back : that its names and numbers are such as the scanner reads
(`lexical`), that it is not printed as the text of other code (`clear`), that it stands where it may
(`placed`), and that its mentions lead from the body `b` to the body `b'`. -/
structure Legible (lexical clear : Bool) (placed : Prop) (ms : List (Mention α)) (b b' : Body) : Prop where
  lexical : lexical = true
  clear : clear = true
  placed : placed
  follows : b.follow? ms = some b'
  stamped : ∀ f, .function f ∈ ms → f.Stamped

namespace Legible

variable {l l' c c' : Bool} {P P' : Prop} {ms ms' : List (Mention α)} {b b' : Body}

/-- A node passes the checks by itself, and its parts do. -/
theorem node (h : Legible (l && l') (c && c') P ms b b') :
    l = true ∧ c = true ∧ Legible l' c' P ms b b' := by
  obtain ⟨hl, hl'⟩ := Bool.and_eq_true_iff.1 h.lexical
  obtain ⟨hc, hc'⟩ := Bool.and_eq_true_iff.1 h.clear
  exact ⟨hl, hc, hl', hc', h.placed, h.follows, h.stamped⟩

/-- Code that consists of two parts, one behind the other. -/
theorem split (h : Legible (l && l') (c && c') (P ∧ P') (ms ++ ms') b b') :
    ∃ b₁, Legible l c P ms b b₁ ∧ Legible l' c' P' ms' b₁ b' := by
  obtain ⟨hl, hl'⟩ := Bool.and_eq_true_iff.1 h.lexical
  obtain ⟨hc, hc'⟩ := Bool.and_eq_true_iff.1 h.clear
  have hf := h.follows
  rw [Body.follow?_append, Option.bind_eq_some_iff] at hf
  obtain ⟨b₁, hf₁, hf₂⟩ := hf
  exact ⟨b₁, ⟨hl, hc, h.placed.1, hf₁, fun f hm => h.stamped f (List.mem_append_left _ hm)⟩,
    hl', hc', h.placed.2, hf₂, fun f hm => h.stamped f (List.mem_append_right _ hm)⟩

/-- Code without mentions leaves the body as it is. -/
theorem eq_of_nil (h : Legible l c P ([] : List (Mention α)) b b') : b' = b :=
  (Option.some.inj h.follows).symm

end Legible

/-- The expression can be read back from its text in the body `b`, and leads to the body `b'`. -/
def Expr.Legible (e : Expr α) (b b' : Body) : Prop :=
  DocScript.Legible (e.passes .lexical) (e.passes .clear) e.Placed e.mentions b b'

def ExprsLegible (es : List (Expr α)) (b b' : Body) : Prop :=
  Legible (exprsPass .lexical es) (exprsPass .clear es) (ExprsPlaced es) (mentionsOfExprs es) b b'

def EntriesLegible (es : List (Expr α × Expr α)) (b b' : Body) : Prop :=
  Legible (entriesPass .lexical es) (entriesPass .clear es) (EntriesPlaced es) (mentionsOfEntries es) b b'

end DocScript
