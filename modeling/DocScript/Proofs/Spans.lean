import DocScript.Program
import DocScript.Proofs.Text.Positions

/-!
# Nested spans

The parts of a program are annotated with spans of the text. `Stmt.Within o` says that a statement lies in the span
`o`, that the span of each part of it, at every depth, covers the spans of its own parts, and that no span ends before
it starts. Only decorators are not covered by the definition that they belong to : they end before it begins.
-/

namespace DocScript

namespace Span

/-- The span `a` lies in the span `o`, and does not end before it starts. -/
structure Holds (o a : Span) : Prop where
  start_le : o.start ≤ a.start
  ordered : a.start ≤ a.stop
  stop_le : a.stop ≤ o.stop

/-- What lies in the span `b` lies in the span `a`. -/
structure Covers (a b : Span) : Prop where
  start_le : a.start ≤ b.start
  stop_le : b.stop ≤ a.stop

@[grind =] theorem holds_iff {o a : Span} :
    o.Holds a ↔ o.start ≤ a.start ∧ a.start ≤ a.stop ∧ a.stop ≤ o.stop :=
  ⟨fun h => ⟨h.start_le, h.ordered, h.stop_le⟩, fun h => ⟨h.1, h.2.1, h.2.2⟩⟩

@[grind =] theorem covers_iff {a b : Span} : a.Covers b ↔ a.start ≤ b.start ∧ b.stop ≤ a.stop :=
  ⟨fun h => ⟨h.start_le, h.stop_le⟩, fun h => ⟨h.1, h.2⟩⟩

theorem Holds.mono {o o' a : Span} (h : o.Holds a) (ho : o'.Covers o) : o'.Holds a :=
  ⟨ho.start_le.trans h.start_le, h.ordered, h.stop_le.trans ho.stop_le⟩

theorem Holds.self {o a : Span} (h : o.Holds a) : a.Holds a := ⟨le_refl _, h.ordered, le_refl _⟩

attribute [grind] merge

theorem Holds.merge {o a b : Span} (ha : o.Holds a) (hb : o.Holds b) : o.Holds (a.merge b) := by
  grind

/-- A span that is merged from several covers all of them. -/
theorem covers_foldl_merge (start : Span) (spans : List Span) :
    (spans.foldl Span.merge start).Covers start ∧ ∀ a ∈ spans, (spans.foldl Span.merge start).Covers a := by
  induction spans generalizing start with
  | nil => exact ⟨⟨le_refl _, le_refl _⟩, by simp⟩
  | cons a spans ih =>
    obtain ⟨hstart, hspans⟩ := ih (start.merge a)
    rw [List.foldl_cons]
    refine ⟨by grind, List.forall_mem_cons.2 ⟨by grind, hspans⟩⟩

theorem Holds.foldl_merge {o start : Span} (h : o.Holds start) {spans : List Span} (hs : ∀ a ∈ spans, o.Holds a) :
    o.Holds (spans.foldl Span.merge start) := by
  induction spans generalizing start with
  | nil => exact h
  | cons a spans ih =>
    obtain ⟨ha, hs⟩ := List.forall_mem_cons.1 hs
    exact ih (h.merge ha) hs

end Span

mutual

/-- The expression lies in the span `o`, and its parts in the spans of the expressions that they are parts of. -/
def Expr.Within (o : Span) : Expr Span → Prop
  | .none a | .bool a _ | .number a _ | .str a _ | .var a _ => o.Holds a
  | .binary a _ l r => o.Holds a ∧ l.Within a ∧ r.Within a
  | .unary a _ e => o.Holds a ∧ e.Within a
  | .call a f as => o.Holds a ∧ f.Within a ∧ ExprsWithin a as
  | .index a x k => o.Holds a ∧ x.Within a ∧ k.Within a
  | .arrow a x k => o.Holds a ∧ x.Within a ∧ k.Within a
  | .protoDict a p es => o.Holds a ∧ p.Within a ∧ EntriesWithin a es
  | .list a is => o.Holds a ∧ ExprsWithin a is
  | .dict a es => o.Holds a ∧ EntriesWithin a es
  | .lambda a f => o.Holds a ∧ f.Within a

def ExprsWithin (o : Span) : List (Expr Span) → Prop
  | [] => True
  | e :: es => e.Within o ∧ ExprsWithin o es

def EntriesWithin (o : Span) : List (Expr Span × Expr Span) → Prop
  | [] => True
  | (k, v) :: es => (k.Within o ∧ v.Within o) ∧ EntriesWithin o es

/-- The decorators end before the place `p`; the parts of each lie in its span. -/
def DecoratorsBefore (p : Pos) : List (Expr Span) → Prop
  | [] => True
  | d :: ds => (d.Within d.ann ∧ d.ann.stop < p) ∧ DecoratorsBefore p ds

/-- The statement lies in the span `o`, and its parts in the spans of what they are parts of. -/
def Stmt.Within (o : Span) : Stmt Span → Prop
  | .expr a e => o.Holds a ∧ e.Within a
  | .assign a ts vs => o.Holds a ∧ ExprsWithin a ts ∧ ExprsWithin a vs
  | .define a ds _ f => o.Holds a ∧ DecoratorsBefore a.start ds ∧ f.Within a
  | .ifElse a e y n => o.Holds a ∧ e.Within a ∧ y.Within a ∧ n.Within a
  | .whileLoop a e b => o.Holds a ∧ e.Within a ∧ b.Within a
  | .forLoop a _ e b => o.Holds a ∧ e.Within a ∧ b.Within a
  | .attempt a b h c => o.Holds a ∧ b.Within a ∧ HandlerWithin a h ∧ CleanupWithin a c
  | .raise a e => o.Holds a ∧ e.Within a
  | .ret a vs => o.Holds a ∧ ExprsWithin a vs
  | .break_ a | .continue_ a | .declare a _ _ | .bad a _ => o.Holds a

def StmtsWithin (o : Span) : List (Stmt Span) → Prop
  | [] => True
  | s :: ss => s.Within o ∧ StmtsWithin o ss

def Block.Within (o : Span) : Block Span → Prop
  | ⟨a, ss⟩ => o.Holds a ∧ StmtsWithin a ss

def HandlerWithin (o : Span) : Option (Handler Span) → Prop
  | none => True
  | some ⟨_, b⟩ => b.Within o

def CleanupWithin (o : Span) : Option (Block Span) → Prop
  | none => True
  | some b => b.Within o

def Function.Within (o : Span) : Function Span → Prop
  | ⟨_, _, b⟩ => b.Within o

end

/-- The spans of the script are nested. -/
def Program.Nested (p : Program Span) : Prop := ∀ s ∈ p, s.Within s.ann

variable {o o' : Span}

/-! ## Wider spans -/

namespace Expr

variable {e : Expr Span}

theorem Within.holds (h : e.Within o) : o.Holds e.ann := by
  cases e <;> first | exact h | exact h.1

/-- The span around an expression matters for the span of the expression only. -/
theorem Within.of_holds (h : e.Within o) (ho : o'.Holds e.ann) : e.Within o' := by
  cases e <;> first | exact ho | exact ⟨ho, h.2⟩

theorem Within.mono (h : e.Within o) (ho : o'.Covers o) : e.Within o' :=
  h.of_holds (h.holds.mono ho)

theorem Within.self (h : e.Within o) : e.Within e.ann := h.of_holds h.holds.self

end Expr

theorem exprsWithin_iff {es : List (Expr Span)} : ExprsWithin o es ↔ ∀ e ∈ es, e.Within o := by
  induction es with
  | nil => simp [ExprsWithin]
  | cons e es ih => simp [ExprsWithin, ih]

theorem ExprsWithin.mono {es : List (Expr Span)} (h : ExprsWithin o es) (ho : o'.Covers o) : ExprsWithin o' es :=
  exprsWithin_iff.2 fun e he => (exprsWithin_iff.1 h e he).mono ho

theorem EntriesWithin.mono {es : List (Expr Span × Expr Span)} (h : EntriesWithin o es) (ho : o'.Covers o) :
    EntriesWithin o' es := by
  induction es with
  | nil => trivial
  | cons e es ih => exact ⟨⟨h.1.1.mono ho, h.1.2.mono ho⟩, ih h.2⟩

namespace Stmt

variable {s : Stmt Span}

theorem Within.holds (h : s.Within o) : o.Holds s.ann := by
  cases s <;> first | exact h | exact h.1

theorem Within.of_holds (h : s.Within o) (ho : o'.Holds s.ann) : s.Within o' := by
  cases s <;> first | exact ho | exact ⟨ho, h.2⟩

theorem Within.mono (h : s.Within o) (ho : o'.Covers o) : s.Within o' :=
  h.of_holds (h.holds.mono ho)

theorem Within.self (h : s.Within o) : s.Within s.ann := h.of_holds h.holds.self

end Stmt

/-- The decorators of a definition end before it, wherever it begins behind them. -/
theorem DecoratorsBefore.mono {p q : Pos} {ds : List (Expr Span)} (h : DecoratorsBefore p ds) (hpq : p ≤ q) :
    DecoratorsBefore q ds := by
  induction ds with
  | nil => trivial
  | cons d ds ih => exact ⟨⟨h.1.1, lt_of_lt_of_le h.1.2 hpq⟩, ih h.2⟩

theorem stmtsWithin_iff {ss : List (Stmt Span)} : StmtsWithin o ss ↔ ∀ s ∈ ss, s.Within o := by
  induction ss with
  | nil => simp [StmtsWithin]
  | cons s ss ih => simp [StmtsWithin, ih]

theorem StmtsWithin.mono {ss : List (Stmt Span)} (h : StmtsWithin o ss) (ho : o'.Covers o) : StmtsWithin o' ss :=
  stmtsWithin_iff.2 fun s hs => (stmtsWithin_iff.1 h s hs).mono ho

theorem StmtsWithin.append {ss ss' : List (Stmt Span)} (h : StmtsWithin o ss) (h' : StmtsWithin o ss') :
    StmtsWithin o (ss ++ ss') :=
  stmtsWithin_iff.2 fun s hs => (List.mem_append.1 hs).elim (stmtsWithin_iff.1 h s) (stmtsWithin_iff.1 h' s)

namespace Block

variable {b : Block Span}

theorem Within.holds (h : b.Within o) : o.Holds b.ann := by
  cases b
  exact h.1

theorem Within.of_holds (h : b.Within o) (ho : o'.Holds b.ann) : b.Within o' := by
  cases b
  exact ⟨ho, h.2⟩

theorem Within.mono (h : b.Within o) (ho : o'.Covers o) : b.Within o' := h.of_holds (h.holds.mono ho)

theorem Within.of_covers (h : b.Within o) (ho : o'.Covers b.ann) : b.Within o' := h.of_holds (h.holds.self.mono ho)

end Block

theorem HandlerWithin.holds {h : Option (Handler Span)} (hw : HandlerWithin o h) :
    ∀ a ∈ (h.map (·.body.ann)).toList, o.Holds a := by
  obtain _ | ⟨_, b⟩ := h
  · simp
  · simpa using Block.Within.holds hw

theorem HandlerWithin.of_covers {h : Option (Handler Span)} (hw : HandlerWithin o h)
    (ho : ∀ a ∈ (h.map (·.body.ann)).toList, o'.Covers a) : HandlerWithin o' h := by
  obtain _ | ⟨_, b⟩ := h
  · trivial
  · exact Block.Within.of_covers hw (ho _ (by simp))

theorem CleanupWithin.holds {c : Option (Block Span)} (hw : CleanupWithin o c) :
    ∀ a ∈ (c.map (·.ann)).toList, o.Holds a := by
  obtain _ | b := c
  · simp
  · simpa using Block.Within.holds hw

theorem CleanupWithin.of_covers {c : Option (Block Span)} (hw : CleanupWithin o c)
    (ho : ∀ a ∈ (c.map (·.ann)).toList, o'.Covers a) : CleanupWithin o' c := by
  obtain _ | b := c
  · trivial
  · exact Block.Within.of_covers hw (ho _ (by simp))

theorem Function.Within.mono {f : Function Span} (h : f.Within o) (ho : o'.Covers o) : f.Within o' := by
  cases f
  exact Block.Within.mono h ho

/-- An expression in parentheses has a wider span. -/
theorem Expr.Within.reannotate {e : Expr Span} {a : Span} (h : e.Within o) (ha : a.Covers e.ann) (ho : o'.Holds a) :
    (e.reannotate a).Within o' := by
  cases e with
  | none | bool | number | str | var => exact ho
  | binary _ op l r => exact ⟨ho, h.2.1.mono ha, h.2.2.mono ha⟩
  | unary _ op e => exact ⟨ho, h.2.mono ha⟩
  | call _ f as => exact ⟨ho, h.2.1.mono ha, h.2.2.mono ha⟩
  | index _ x k => exact ⟨ho, h.2.1.mono ha, h.2.2.mono ha⟩
  | arrow _ x k => exact ⟨ho, h.2.1.mono ha, h.2.2.mono ha⟩
  | protoDict _ p es => exact ⟨ho, h.2.1.mono ha, h.2.2.mono ha⟩
  | list _ is => exact ⟨ho, h.2.mono ha⟩
  | dict _ es => exact ⟨ho, h.2.mono ha⟩
  | lambda _ f => exact ⟨ho, h.2.mono ha⟩

end DocScript
