import DocScript.Program

/-!
# Rules that code obeys

What a program can do to a machine depends on what stands in it : which functions it makes, which
variables it writes to, what it assigns to, and whether it has `while` loops. `Rules` say what of this
is allowed. Code obeys them if they hold of everything in it, at every depth, also inside the
functions that it makes, so that what a function does when it is called later is covered too.
-/

namespace DocScript

/-- What code may do. -/
structure Rules where
  /-- The functions that may be made. -/
  Makes : Function Unit → Prop
  /-- The variables that may be written to. -/
  Writes : Variable → Prop
  /-- What may stand on the left of an assignment. -/
  Target : Expr Unit → Prop
  /-- Whether there may be `while` loops. -/
  Loops : Prop

namespace Rules

/-- Everything is allowed. -/
def free : Rules := ⟨fun _ => True, fun _ => True, fun _ => True, True⟩

/-- Everything but `while` loops is allowed. -/
def noWhile : Rules := ⟨fun _ => True, fun _ => True, fun _ => True, False⟩

/-- A variable on the left of an assignment is written to. -/
def Assigns (R : Rules) : Expr Unit → Prop
  | .var _ v => R.Target (.var () v) ∧ R.Writes v
  | e => R.Target e

end Rules

mutual

/-- The rules hold of everything in the expression. -/
def Expr.Obeys (R : Rules) : Expr Unit → Prop
  | .none _ | .bool _ _ | .number _ _ | .str _ _ | .var _ _ => True
  | .binary _ _ l r => l.Obeys R ∧ r.Obeys R
  | .unary _ _ e => e.Obeys R
  | .call _ f as => f.Obeys R ∧ ExprsObey R as
  | .index _ o k => o.Obeys R ∧ k.Obeys R
  | .arrow _ o k => o.Obeys R ∧ k.Obeys R
  | .protoDict _ p es => p.Obeys R ∧ EntriesObey R es
  | .list _ is => ExprsObey R is
  | .dict _ es => EntriesObey R es
  | .lambda _ f => R.Makes f ∧ f.Obeys R

def ExprsObey (R : Rules) : List (Expr Unit) → Prop
  | [] => True
  | e :: es => e.Obeys R ∧ ExprsObey R es

def EntriesObey (R : Rules) : List (Expr Unit × Expr Unit) → Prop
  | [] => True
  | (k, v) :: es => (k.Obeys R ∧ v.Obeys R) ∧ EntriesObey R es

/-- The rules hold of everything in the statement. -/
def Stmt.Obeys (R : Rules) : Stmt Unit → Prop
  | .expr _ e => e.Obeys R
  | .assign _ ts vs => (∀ t ∈ ts, R.Assigns t) ∧ ExprsObey R ts ∧ ExprsObey R vs
  | .define _ ds v f => R.Writes v ∧ ExprsObey R ds ∧ R.Makes f ∧ f.Obeys R
  | .ifElse _ e y n => e.Obeys R ∧ y.Obeys R ∧ n.Obeys R
  | .whileLoop _ e b => R.Loops ∧ e.Obeys R ∧ b.Obeys R
  | .forLoop _ vs e b => (∀ v ∈ vs, R.Writes v) ∧ e.Obeys R ∧ b.Obeys R
  | .attempt _ b h f => b.Obeys R ∧ HandlerObeys R h ∧ CleanupObeys R f
  | .raise _ e => e.Obeys R
  | .ret _ vs => ExprsObey R vs
  | .break_ _ | .continue_ _ | .declare _ _ _ | .bad _ _ => True

def StmtsObey (R : Rules) : List (Stmt Unit) → Prop
  | [] => True
  | s :: ss => s.Obeys R ∧ StmtsObey R ss

def Block.Obeys (R : Rules) : Block Unit → Prop
  | ⟨_, ss⟩ => StmtsObey R ss

def HandlerObeys (R : Rules) : Option (Handler Unit) → Prop
  | none => True
  | some ⟨v, b⟩ => (∀ x ∈ v, R.Writes x) ∧ b.Obeys R

def CleanupObeys (R : Rules) : Option (Block Unit) → Prop
  | none => True
  | some b => b.Obeys R

def Function.Obeys (R : Rules) : Function Unit → Prop
  | ⟨_, _, b⟩ => b.Obeys R

end

/-- The rules hold of everything in the script. -/
def Program.Obeys (R : Rules) (p : Program Unit) : Prop := StmtsObey R p

mutual

theorem Expr.obeys_free : ∀ e : Expr Unit, e.Obeys .free
  | .none _ | .bool _ _ | .number _ _ | .str _ _ | .var _ _ => trivial
  | .binary _ _ l r => ⟨l.obeys_free, r.obeys_free⟩
  | .unary _ _ e => e.obeys_free
  | .call _ f as => ⟨f.obeys_free, exprsObey_free as⟩
  | .index _ o k => ⟨o.obeys_free, k.obeys_free⟩
  | .arrow _ o k => ⟨o.obeys_free, k.obeys_free⟩
  | .protoDict _ p es => ⟨p.obeys_free, entriesObey_free es⟩
  | .list _ is => exprsObey_free is
  | .dict _ es => entriesObey_free es
  | .lambda _ f => ⟨trivial, f.obeys_free⟩

theorem exprsObey_free : ∀ es : List (Expr Unit), ExprsObey .free es
  | [] => trivial
  | e :: es => ⟨e.obeys_free, exprsObey_free es⟩

theorem entriesObey_free : ∀ es : List (Expr Unit × Expr Unit), EntriesObey .free es
  | [] => trivial
  | (k, v) :: es => ⟨⟨k.obeys_free, v.obeys_free⟩, entriesObey_free es⟩

theorem Stmt.obeys_free : ∀ s : Stmt Unit, s.Obeys .free
  | .expr _ e => e.obeys_free
  | .assign _ ts vs =>
    ⟨fun t _ => by cases t <;> simp [Rules.Assigns, Rules.free], exprsObey_free ts, exprsObey_free vs⟩
  | .define _ ds _ f => ⟨trivial, exprsObey_free ds, trivial, f.obeys_free⟩
  | .ifElse _ e y n => ⟨e.obeys_free, y.obeys_free, n.obeys_free⟩
  | .whileLoop _ e b => ⟨trivial, e.obeys_free, b.obeys_free⟩
  | .forLoop _ _ e b => ⟨fun _ _ => trivial, e.obeys_free, b.obeys_free⟩
  | .attempt _ b h f => ⟨b.obeys_free, handlerObeys_free h, cleanupObeys_free f⟩
  | .raise _ e => e.obeys_free
  | .ret _ vs => exprsObey_free vs
  | .break_ _ | .continue_ _ | .declare _ _ _ | .bad _ _ => trivial

theorem stmtsObey_free : ∀ ss : List (Stmt Unit), StmtsObey .free ss
  | [] => trivial
  | s :: ss => ⟨s.obeys_free, stmtsObey_free ss⟩

theorem Block.obeys_free : ∀ b : Block Unit, b.Obeys .free
  | ⟨_, ss⟩ => stmtsObey_free ss

theorem handlerObeys_free : ∀ h : Option (Handler Unit), HandlerObeys .free h
  | none => trivial
  | some ⟨_, b⟩ => ⟨fun _ _ => trivial, b.obeys_free⟩

theorem cleanupObeys_free : ∀ c : Option (Block Unit), CleanupObeys .free c
  | none => trivial
  | some b => b.obeys_free

theorem Function.obeys_free : ∀ f : Function Unit, f.Obeys .free
  | ⟨_, _, b⟩ => b.obeys_free

end

/-! ## The functions in code -/

mutual

/-- The functions in the expression, at every depth. -/
def Expr.functions : Expr Unit → List (Function Unit)
  | .none _ | .bool _ _ | .number _ _ | .str _ _ | .var _ _ => []
  | .binary _ _ l r => l.functions ++ r.functions
  | .unary _ _ e => e.functions
  | .call _ f as => f.functions ++ functionsOfExprs as
  | .index _ o k => o.functions ++ k.functions
  | .arrow _ o k => o.functions ++ k.functions
  | .protoDict _ p es => p.functions ++ functionsOfEntries es
  | .list _ is => functionsOfExprs is
  | .dict _ es => functionsOfEntries es
  | .lambda _ f => f :: f.functions

def functionsOfExprs : List (Expr Unit) → List (Function Unit)
  | [] => []
  | e :: es => e.functions ++ functionsOfExprs es

def functionsOfEntries : List (Expr Unit × Expr Unit) → List (Function Unit)
  | [] => []
  | (k, v) :: es => (k.functions ++ v.functions) ++ functionsOfEntries es

/-- The functions in the statement, at every depth. -/
def Stmt.functions : Stmt Unit → List (Function Unit)
  | .expr _ e => e.functions
  | .assign _ ts vs => functionsOfExprs ts ++ functionsOfExprs vs
  | .define _ ds _ f => functionsOfExprs ds ++ f :: f.functions
  | .ifElse _ e y n => e.functions ++ (y.functions ++ n.functions)
  | .whileLoop _ e b => e.functions ++ b.functions
  | .forLoop _ _ e b => e.functions ++ b.functions
  | .attempt _ b h c => b.functions ++ (functionsOfHandler h ++ functionsOfCleanup c)
  | .raise _ e => e.functions
  | .ret _ vs => functionsOfExprs vs
  | .break_ _ | .continue_ _ | .declare _ _ _ | .bad _ _ => []

def functionsOfStmts : List (Stmt Unit) → List (Function Unit)
  | [] => []
  | s :: ss => s.functions ++ functionsOfStmts ss

def Block.functions : Block Unit → List (Function Unit)
  | ⟨_, ss⟩ => functionsOfStmts ss

def functionsOfHandler : Option (Handler Unit) → List (Function Unit)
  | none => []
  | some ⟨_, b⟩ => b.functions

def functionsOfCleanup : Option (Block Unit) → List (Function Unit)
  | none => []
  | some b => b.functions

/-- The functions in the body of the function. -/
def Function.functions : Function Unit → List (Function Unit)
  | ⟨_, _, b⟩ => b.functions

end

/-- The functions in the script, at every depth. -/
def Program.functions (p : Program Unit) : List (Function Unit) := functionsOfStmts p

/-- The function is allowed, and its body obeys. -/
def Function.Allowed (R : Rules) (f : Function Unit) : Prop := R.Makes f ∧ f.Obeys R

/-- Both lists have allowed functions only. -/
theorem allowed_append {R : Rules} {fs gs : List (Function Unit)} (hf : ∀ f ∈ fs, f.Allowed R)
    (hg : ∀ f ∈ gs, f.Allowed R) : ∀ f ∈ fs ++ gs, f.Allowed R :=
  List.forall_mem_append.2 ⟨hf, hg⟩

section Allowed

variable {R : Rules}

mutual

/-- If code obeys the rules, all functions in it are allowed. -/
theorem Expr.Obeys.allowed : ∀ {e : Expr Unit}, e.Obeys R → ∀ f ∈ e.functions, f.Allowed R
  | .none _, _ | .bool _ _, _ | .number _ _, _ | .str _ _, _ | .var _ _, _ => by simp [Expr.functions]
  | .binary _ _ _ _, ⟨hl, hr⟩ => allowed_append hl.allowed hr.allowed
  | .unary _ _ e, h => (show e.Obeys R from h).allowed
  | .call _ _ _, ⟨hf, has⟩ => allowed_append hf.allowed has.allowed
  | .index _ _ _, ⟨ho, hk⟩ => allowed_append ho.allowed hk.allowed
  | .arrow _ _ _, ⟨ho, hk⟩ => allowed_append ho.allowed hk.allowed
  | .protoDict _ _ _, ⟨hp, hes⟩ => allowed_append hp.allowed hes.allowed
  | .list _ is, h => (show ExprsObey R is from h).allowed
  | .dict _ es, h => (show EntriesObey R es from h).allowed
  | .lambda _ _, ⟨hm, hf⟩ => List.forall_mem_cons.2 ⟨⟨hm, hf⟩, hf.allowed⟩

theorem ExprsObey.allowed : ∀ {es : List (Expr Unit)}, ExprsObey R es →
    ∀ f ∈ functionsOfExprs es, f.Allowed R
  | [], _ => by simp [functionsOfExprs]
  | _ :: _, ⟨he, hes⟩ => allowed_append he.allowed hes.allowed

theorem EntriesObey.allowed : ∀ {es : List (Expr Unit × Expr Unit)}, EntriesObey R es →
    ∀ f ∈ functionsOfEntries es, f.Allowed R
  | [], _ => by simp [functionsOfEntries]
  | (_, _) :: _, ⟨⟨hk, hv⟩, hes⟩ => allowed_append (allowed_append hk.allowed hv.allowed) hes.allowed

theorem Stmt.Obeys.allowed : ∀ {s : Stmt Unit}, s.Obeys R → ∀ f ∈ s.functions, f.Allowed R
  | .expr _ e, h => (show e.Obeys R from h).allowed
  | .assign _ _ _, ⟨_, hts, hvs⟩ => allowed_append hts.allowed hvs.allowed
  | .define _ _ _ _, ⟨_, hds, hm, hf⟩ =>
    allowed_append hds.allowed (List.forall_mem_cons.2 ⟨⟨hm, hf⟩, hf.allowed⟩)
  | .ifElse _ _ _ _, ⟨he, hy, hn⟩ => allowed_append he.allowed (allowed_append hy.allowed hn.allowed)
  | .whileLoop _ _ _, ⟨_, he, hb⟩ => allowed_append he.allowed hb.allowed
  | .forLoop _ _ _ _, ⟨_, he, hb⟩ => allowed_append he.allowed hb.allowed
  | .attempt _ _ _ _, ⟨hb, hh, hc⟩ => allowed_append hb.allowed (allowed_append hh.allowed hc.allowed)
  | .raise _ e, h => (show e.Obeys R from h).allowed
  | .ret _ vs, h => (show ExprsObey R vs from h).allowed
  | .break_ _, _ | .continue_ _, _ | .declare _ _ _, _ | .bad _ _, _ => by simp [Stmt.functions]

theorem StmtsObey.allowed : ∀ {ss : List (Stmt Unit)}, StmtsObey R ss →
    ∀ f ∈ functionsOfStmts ss, f.Allowed R
  | [], _ => by simp [functionsOfStmts]
  | _ :: _, ⟨hs, hss⟩ => allowed_append hs.allowed hss.allowed

theorem Block.Obeys.allowed : ∀ {b : Block Unit}, b.Obeys R → ∀ f ∈ b.functions, f.Allowed R
  | ⟨_, ss⟩, h => (show StmtsObey R ss from h).allowed

theorem HandlerObeys.allowed : ∀ {h : Option (Handler Unit)}, HandlerObeys R h →
    ∀ f ∈ functionsOfHandler h, f.Allowed R
  | none, _ => by simp [functionsOfHandler]
  | some ⟨_, _⟩, ⟨_, hb⟩ => hb.allowed

theorem CleanupObeys.allowed : ∀ {c : Option (Block Unit)}, CleanupObeys R c →
    ∀ f ∈ functionsOfCleanup c, f.Allowed R
  | none, _ => by simp [functionsOfCleanup]
  | some b, h => (show b.Obeys R from h).allowed

theorem Function.Obeys.allowed : ∀ {f : Function Unit}, f.Obeys R → ∀ g ∈ f.functions, g.Allowed R
  | ⟨_, _, b⟩, h => (show b.Obeys R from h).allowed

end

end Allowed

end DocScript
