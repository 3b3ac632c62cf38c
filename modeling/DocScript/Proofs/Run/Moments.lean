import DocScript.Proofs.Run.Control
import Mathlib.Logic.Relation

/-!
# Moments of a run

What a run does on its way is said in terms of its moments. A moment is a task that is about to start,
the machine it starts on and the bound on fuel. A task starts others : the operands of an expression,
the statements of a block, the rounds of a loop, the call that an expression ends with, the body of
the function that is called. `Moment.started` gives those that are started directly, each with the
machine that it starts on, and a moment belongs to a run if it is reached from the first one.

A discipline that every operation and every call keeps holds at every moment that is reached
(`Moment.ok_of_reaches`).
-/

namespace DocScript

variable {σ β ε : Type}

/-- What a run can be about to do. -/
inductive Task where
  | expr (e : Expr Unit)
  /-- Several expressions, one value for each. -/
  | each (es : List (Expr Unit))
  /-- Several expressions, all values of the last one. -/
  | spread (es : List (Expr Unit))
  | entries (es : List (Expr Unit × Expr Unit))
  /-- Assign the values to the targets. -/
  | targets (ts : List (Expr Unit)) (values : List Value)
  /-- Make a function and pass it through its decorators. -/
  | definition (decorators : List (Expr Unit)) (f : Function Unit)
  | decoration (f : Value) (decorators : List Value)
  | stmt (s : Stmt Unit)
  | stmts (ss : List (Stmt Unit))
  /-- At most `n` rounds of a `while` loop. -/
  | rounds (cond : Expr Unit) (body : Block Unit) (n : Nat)
  /-- The rounds of a `for` loop. -/
  | items (vars : List Variable) (body : Block Unit) (pairs : List (Value × Value))
  | call (callee : Value) (args : List Value)
  /-- Run the body of a function. -/
  | body (f : Closure) (args : List Value)
  /-- Go on with a native of the host. -/
  | action (a : Action)
  | program (p : Program Unit)

/-- What follows on `x`, if it gives a result. -/
def andThen (x : EStateM ε (Machine σ) β) (m : Machine σ)
    (next : β → Machine σ → List (Task × Machine σ)) : List (Task × Machine σ) :=
  match x m with
  | .ok b m => next b m
  | .error _ _ => []

namespace Calls

/-- The parts of an expression. -/
def exprParts (k : Calls σ) (m : Machine σ) : Expr Unit → List (Task × Machine σ)
  | .binary _ op l r =>
    (.expr l, m) :: andThen (k.eval l) m fun a m => if op.settles a then [] else [(.expr r, m)]
  | .unary _ _ e => [(.expr e, m)]
  | .call _ c as =>
    (.expr c, m) :: andThen (k.eval c) m fun f m =>
      (.spread as, m) :: andThen (k.evalSpread as) m fun args m => [(.call f args, m)]
  | .index _ o i | .arrow _ o i =>
    (.expr o, m) :: andThen (k.eval o) m fun _ m => [(.expr i, m)]
  | .protoDict _ p es =>
    (.expr p, m) :: andThen (k.eval p) m fun proto m =>
      match proto with
      | .doc _ | .box _ _ => [(.entries es, m)]
      | _ => []
  | .list _ is => [(.each is, m)]
  | .dict _ es => [(.entries es, m)]
  | _ => []

/-- The parts of several expressions. -/
def spreadParts (k : Calls σ) (m : Machine σ) : List (Expr Unit) → List (Task × Machine σ)
  | [] => []
  | [.call _ c as] =>
    (.expr c, m) :: andThen (k.eval c) m fun f m =>
      (.spread as, m) :: andThen (k.evalSpread as) m fun args m => [(.call f args, m)]
  | e :: es => (.expr e, m) :: andThen (k.eval e) m fun _ m => [(.spread es, m)]

/-- What a handler does after the block in front of it. -/
def handlerParts (h : Option (Handler Unit)) :
    EStateM.Result Exit (Machine σ) Unit → List (Task × Machine σ)
  | .error (.fault (.raised payload)) m =>
    match h with
    | some ⟨some v, b⟩ => andThen (Machine.bind v payload) m fun _ m => [(.stmts b.stmts, m)]
    | some ⟨none, b⟩ => [(.stmts b.stmts, m)]
    | none => []
  | _ => []

/-- What a cleanup does after all in front of it. -/
def cleanupParts (c : Option (Block Unit)) :
    EStateM.Result Exit (Machine σ) Unit → List (Task × Machine σ)
  | .error (.fault .outOfFuel) _ => []
  | .ok _ m | .error _ m => c.toList.map fun b => (.stmts b.stmts, m)

/-- The parts of a statement. -/
def stmtParts (k : Calls σ) (m : Machine σ) : Stmt Unit → List (Task × Machine σ)
  | .expr _ e | .raise _ e => [(.expr e, m)]
  | .ret _ es => [(.spread es, m)]
  | .assign _ ts es =>
    (.spread es, m) :: andThen (k.evalSpread es) m fun vs m => [(.targets ts vs, m)]
  | .define _ ds _ f => [(.definition ds f, m)]
  | .ifElse _ c y n =>
    (.expr c, m) :: andThen (k.eval c) m fun v m =>
      [(.stmts (if v.truthy then y else n).stmts, m)]
  | .whileLoop _ c b => [(.rounds c b k.rounds, m)]
  | .forLoop _ vs e b =>
    (.expr e, m) :: andThen (k.eval e) m fun iterable m =>
      andThen (Machine.pairs iterable) m fun pairs m => [(.items vs b pairs, m)]
  | .attempt _ b h c =>
    (.stmts b.stmts, m) :: (handlerParts h (k.execBlock b m) ++
      cleanupParts c (k.execHandler (k.execBlock b) h m))
  | .break_ _ | .continue_ _ | .declare _ _ _ | .bad _ _ => []

/-- The parts of an assignment to a target, with what follows on it. -/
def targetParts (k : Calls σ) (m : Machine σ) (value : Value)
    (rest : Machine σ → List (Task × Machine σ)) : Expr Unit → List (Task × Machine σ)
  | .var _ v => andThen (Machine.assign v value) m fun _ m => rest m
  | .index _ o i =>
    (.expr o, m) :: andThen (k.eval o) m fun object m =>
      (.expr i, m) :: andThen (k.eval i) m fun key m =>
        andThen (Machine.setIndex k.host object key value) m fun _ m => rest m
  | _ => []

/-- What a native of the host does next. -/
def actionParts (k : Calls σ) (m : Machine σ) : Action → List (Task × Machine σ)
  | .done _ | .raise _ => []
  | .call callee args next =>
    (.call callee args, m) ::
      match k.call callee args m with
      | .ok vs m => [(.action (next (.ok vs)), m)]
      | .error (.raised payload) m => [(.action (next (.error payload)), m)]
      | .error .outOfFuel _ => []
  | .newList items next => andThen (Machine.newList items) m fun v m => [(.action (next v), m)]
  | .display v next => [(.action (next (m.display v)), m)]

/-- The round of a loop, and what follows if the loop goes on. -/
def roundParts (k : Calls σ) (b : Block Unit) (rest : Task) (m : Machine σ) : List (Task × Machine σ) :=
  (.stmts b.stmts, m) :: andThen (Exec.round (k.execBlock b)) m fun goOn m =>
    if goOn then [(rest, m)] else []

/-- The tasks that a task on the machine `m` starts, calls apart. -/
def parts (k : Calls σ) (m : Machine σ) : Task → List (Task × Machine σ)
  | .expr e => k.exprParts m e
  | .each [] => []
  | .each (e :: es) => (.expr e, m) :: andThen (k.eval e) m fun _ m => [(.each es, m)]
  | .spread es => k.spreadParts m es
  | .entries [] => []
  | .entries ((ek, ev) :: es) =>
    (.expr ek, m) :: andThen (k.eval ek) m fun _ m =>
      (.expr ev, m) :: andThen (k.eval ev) m fun _ m => [(.entries es, m)]
  | .targets [] _ => []
  | .targets (t :: ts) values =>
    k.targetParts m (Value.first values) (fun m => [(.targets ts values.tail, m)]) t
  | .definition ds f =>
    (.each ds, m) :: andThen (k.evalEach ds) m fun values m =>
      andThen (Machine.newFunction f) m fun v m => [(.decoration v values, m)]
  | .decoration _ [] => []
  | .decoration f (d :: ds) =>
    (.decoration f ds, m) :: andThen (k.decorate f ds) m fun v m =>
      if d.isCallable then [(.call d [v], m)] else []
  | .stmt s => k.stmtParts m s
  | .stmts [] => []
  | .stmts (s :: ss) => (.stmt s, m) :: andThen (k.exec s) m fun _ m => [(.stmts ss, m)]
  | .rounds _ _ 0 => []
  | .rounds c b (n + 1) =>
    (.expr c, m) :: andThen (k.eval c) m fun v m =>
      if v.truthy then k.roundParts b (.rounds c b n) m else []
  | .items _ _ [] => []
  | .items vs body ((a, b) :: pairs) =>
    andThen (Machine.assignEach vs [a, b]) m fun _ m => k.roundParts body (.items vs body pairs) m
  | .call _ _ => []
  | .body f args =>
    if m.maxDepth ≤ m.depth then [] else [(.stmts f.body.stmts, enter f args m)]
  | .action a => k.actionParts m a
  | .program [] => []
  | .program (s :: ss) =>
    (.stmt s, m) ::
      match k.exec s m with
      | .error (.fault _) _ => []
      | .ok _ m | .error _ m => [(.program ss, m)]

end Calls

/-- A task that is about to start. -/
structure Moment (σ : Type) where
  fuel : Nat
  task : Task
  machine : Machine σ

namespace Moment

/-- The moments that a task starts directly. Only a call uses fuel up. -/
def started (host : Host σ) : Moment σ → List (Moment σ)
  | ⟨n + 1, .call (.func _ f) args, m⟩ => [⟨n, .body f args, m⟩]
  | ⟨n + 1, .call (.native _ (.host name)) args, m⟩ => [⟨n, .action (host.native name args), m⟩]
  | ⟨n + 1, .call (.method _ receiver f) args, m⟩ => [⟨n + 1, .call f (receiver :: args), m⟩]
  | ⟨n, task, m⟩ => ((Calls.within host n).parts m task).map fun p => ⟨n, p.1, p.2⟩

theorem started_of_ne_call {host : Host σ} {n : Nat} {t : Task} {m : Machine σ}
    (ht : ∀ callee args, t ≠ .call callee args) :
    started host ⟨n, t, m⟩ = ((Calls.within host n).parts m t).map fun p => ⟨n, p.1, p.2⟩ := by
  rw [started]
  · rintro _ _ f args - rfl
    exact ht _ _ rfl
  · rintro _ _ name args - rfl
    exact ht _ _ rfl
  · rintro _ _ receiver f args - rfl
    exact ht _ _ rfl

/-- `x` starts `y` directly. -/
def Starts (host : Host σ) (x y : Moment σ) : Prop := y ∈ x.started host

/-- `y` belongs to the run that begins with `x`. -/
def Reaches (host : Host σ) : Moment σ → Moment σ → Prop := Relation.ReflTransGen (Starts host)

end Moment

/-! ## Disciplines hold at every moment -/

variable {I : Discipline σ} {m : Machine σ}

/-- The task handles good values, and its code obeys the rules. -/
def Task.Ok (I : Discipline σ) : Task → Prop
  | .expr e => e.Obeys I.toRules
  | .each es | .spread es => ExprsObey I.toRules es
  | .entries es => EntriesObey I.toRules es
  | .targets ts values =>
    ((∀ t ∈ ts, I.Assigns t) ∧ ExprsObey I.toRules ts) ∧ ∀ v ∈ values, I.Good v
  | .definition ds f => ExprsObey I.toRules ds ∧ I.Makes f ∧ f.Obeys I.toRules
  | .decoration f ds => I.Good f ∧ ∀ d ∈ ds, I.Good d
  | .stmt s => s.Obeys I.toRules
  | .stmts ss => StmtsObey I.toRules ss
  | .rounds c b _ => I.Loops ∧ c.Obeys I.toRules ∧ b.Obeys I.toRules
  | .items vs b pairs => ((∀ v ∈ vs, I.Writes v) ∧ b.Obeys I.toRules) ∧ ∀ e ∈ pairs, I.GoodPair e
  | .call callee args => I.Good callee ∧ ∀ v ∈ args, I.Good v
  | .body f args => (∃ id, I.Good (.func id f)) ∧ ∀ v ∈ args, I.Good v
  | .action a => a.Handles I.Good
  | .program p => p.Obeys I.toRules

/-- All of the tasks are fine, and so are the machines that they start on. -/
def PartsOk (I : Discipline σ) (ps : List (Task × Machine σ)) : Prop :=
  ∀ p ∈ ps, I.Holds p.2 ∧ p.1.Ok I

theorem partsOk_nil : PartsOk I [] := by simp [PartsOk]

theorem partsOk_cons {t : Task} {ps : List (Task × Machine σ)} (hm : I.Holds m) (ht : t.Ok I)
    (hps : PartsOk I ps) : PartsOk I ((t, m) :: ps) :=
  List.forall_mem_cons.2 ⟨⟨hm, ht⟩, hps⟩

theorem partsOk_singleton {t : Task} (hm : I.Holds m) (ht : t.Ok I) : PartsOk I [(t, m)] :=
  partsOk_cons hm ht partsOk_nil

theorem partsOk_andThen {E : ε → Prop} {x : EStateM ε (Machine σ) β} {Q : β → Prop}
    {next : β → Machine σ → List (Task × Machine σ)} (hx : I.Maintains E x Q) (hm : I.Holds m)
    (hn : ∀ b m', I.Holds m' → Q b → PartsOk I (next b m')) : PartsOk I (andThen x m next) := by
  have h := hx m hm
  unfold After at h
  unfold andThen
  rcases hr : x m with ⟨b, m'⟩ | _ <;> rw [hr] at h
  · exact hn b m' h.1 h.2
  · exact partsOk_nil

theorem Block.Obeys.stmts {R : Rules} {b : Block Unit} (h : b.Obeys R) : StmtsObey R b.stmts := by
  cases b
  exact h

namespace Discipline

variable {k : Calls σ} (hI : I.Lawful k.host) (hk : I.CallsKeep k.call) (hm : I.Holds m)

include hI hk hm

/-- An expression, and then what follows on its value. -/
theorem exprThen_ok {e : Expr Unit} {next : Value → Machine σ → List (Task × Machine σ)}
    (he : e.Obeys I.toRules) (hn : ∀ v m', I.Holds m' → I.Good v → PartsOk I (next v m')) :
    PartsOk I ((.expr e, m) :: andThen (k.eval e) m next) :=
  partsOk_cons hm he (partsOk_andThen (eval_keeps hI hk e he) hm hn)

/-- Several expressions, and then what follows on their values. -/
theorem spreadThen_ok {es : List (Expr Unit)} {next : List Value → Machine σ → List (Task × Machine σ)}
    (hes : ExprsObey I.toRules es)
    (hn : ∀ vs m', I.Holds m' → (∀ v ∈ vs, I.Good v) → PartsOk I (next vs m')) :
    PartsOk I ((.spread es, m) :: andThen (k.evalSpread es) m next) :=
  partsOk_cons hm hes (partsOk_andThen (evalSpread_keeps hI hk es hes) hm hn)

theorem exprParts_ok : ∀ e : Expr Unit, e.Obeys I.toRules → PartsOk I (k.exprParts m e)
  | .binary _ op l r, ⟨hl, hr⟩ => by
    refine exprThen_ok hI hk hm hl fun a m' hm' _ => ?_
    split
    · exact partsOk_nil
    · exact partsOk_singleton hm' hr
  | .unary _ _ e, he => partsOk_singleton hm he
  | .call _ c as, ⟨hc, has⟩ => by
    refine exprThen_ok hI hk hm hc fun f m₁ hm₁ hf => ?_
    refine spreadThen_ok hI hk hm₁ has fun args m₂ hm₂ hargs => ?_
    exact partsOk_singleton hm₂ ⟨hf, hargs⟩
  | .index _ o i, ⟨ho, hi⟩ | .arrow _ o i, ⟨ho, hi⟩ =>
    exprThen_ok hI hk hm ho fun _ m' hm' _ => partsOk_singleton hm' hi
  | .protoDict _ p es, ⟨hp, hes⟩ => by
    refine exprThen_ok hI hk hm hp fun proto m' hm' _ => ?_
    split
    · exact partsOk_singleton hm' hes
    · exact partsOk_singleton hm' hes
    · exact partsOk_nil
  | .list _ _, he => partsOk_singleton hm he
  | .dict _ _, he => partsOk_singleton hm he
  | .none _, _ | .bool _ _, _ | .number _ _, _ | .str _ _, _ | .var _ _, _ | .lambda _ _, _ => partsOk_nil

theorem spreadParts_ok (es : List (Expr Unit)) (hes : ExprsObey I.toRules es) :
    PartsOk I (k.spreadParts m es) := by
  unfold Calls.spreadParts
  split
  · exact partsOk_nil
  -- a call at the end has the parts that it has as an expression
  · exact exprParts_ok hI hk hm (.call _ _ _) hes.1
  · obtain ⟨he, hes⟩ := hes
    exact exprThen_ok hI hk hm he fun _ m' hm' _ => partsOk_singleton hm' hes

theorem attemptParts_ok {b : Block Unit} {h : Option (Handler Unit)} {c : Option (Block Unit)}
    (hb : b.Obeys I.toRules) (hh : HandlerObeys I.toRules h) (hc : CleanupObeys I.toRules c) :
    PartsOk I (Calls.handlerParts h (k.execBlock b m) ++
      Calls.cleanupParts c (k.execHandler (k.execBlock b) h m)) := by
  have body := execBlock_runs hI hk b hb m hm
  have handled := execHandler_runs hI hk (execBlock_runs hI hk b hb) h hh m hm
  unfold After at body handled
  refine List.forall_mem_append.2 ⟨?_, ?_⟩
  · unfold Calls.handlerParts
    split
    · next payload m' hr =>
      rw [hr] at body
      rcases h with _ | ⟨_ | v, hb⟩
      · exact partsOk_nil
      · exact partsOk_singleton body.1 hh.2.stmts
      · exact partsOk_andThen (hI.bind (hh.1 v rfl) body.2) body.1 fun _ m₁ hm₁ _ =>
          partsOk_singleton hm₁ hh.2.stmts
    · exact partsOk_nil
  · have cleaned {m' : Machine σ} (hm' : I.Holds m') :
        PartsOk I (c.toList.map fun b => (Task.stmts b.stmts, m')) := by
      cases c with
      | none => exact partsOk_nil
      | some b => exact partsOk_singleton hm' (Block.Obeys.stmts hc)
    unfold Calls.cleanupParts
    split
    · exact partsOk_nil
    · next hr =>
      rw [hr] at handled
      exact cleaned handled.1
    · next hr =>
      rw [hr] at handled
      exact cleaned handled.1

theorem stmtParts_ok : ∀ s : Stmt Unit, s.Obeys I.toRules → PartsOk I (k.stmtParts m s)
  | .expr _ _, hs | .raise _ _, hs => partsOk_singleton hm hs
  | .ret _ _, hs => partsOk_singleton hm hs
  | .assign _ ts es, ⟨ha, hts, hes⟩ =>
    spreadThen_ok hI hk hm hes fun vs m' hm' hvs => partsOk_singleton hm' ⟨⟨ha, hts⟩, hvs⟩
  | .define _ _ _ _, ⟨_, hd⟩ => partsOk_singleton hm hd
  | .ifElse _ c y n, ⟨hc, hy, hn⟩ => by
    refine exprThen_ok hI hk hm hc fun v m' hm' _ => ?_
    have taken : (if v.truthy then y else n).Obeys I.toRules := by
      split
      · exact hy
      · exact hn
    exact partsOk_singleton hm' taken.stmts
  | .whileLoop _ _ _, hs => partsOk_singleton hm hs
  | .forLoop _ vs e b, ⟨hw, he, hb⟩ => by
    refine exprThen_ok hI hk hm he fun iterable m₁ hm₁ hi => ?_
    refine partsOk_andThen (hI.pairs hi) hm₁ fun pairs m₂ hm₂ hp => ?_
    exact partsOk_singleton hm₂ ⟨⟨hw, hb⟩, hp⟩
  | .attempt _ _ _ _, ⟨hb, hh, hc⟩ => partsOk_cons hm hb.stmts (attemptParts_ok hI hk hm hb hh hc)
  | .break_ _, _ | .continue_ _, _ | .declare _ _ _, _ | .bad _ _, _ => partsOk_nil

theorem targetParts_ok {value : Value} {rest : Machine σ → List (Task × Machine σ)}
    (hv : I.Good value) (hr : ∀ m', I.Holds m' → PartsOk I (rest m')) :
    ∀ t : Expr Unit, I.Assigns t → t.Obeys I.toRules → PartsOk I (k.targetParts m value rest t)
  | .var _ _, ⟨_, hw⟩, _ => partsOk_andThen (hI.assign hw hv) hm fun _ m' hm' _ => hr m' hm'
  | .index _ o i, _, ⟨ho, hi⟩ => by
    refine exprThen_ok hI hk hm ho fun object m₁ hm₁ hobject => ?_
    refine exprThen_ok hI hk hm₁ hi fun key m₂ hm₂ hkey => ?_
    exact partsOk_andThen (hI.setIndex hobject hkey hv) hm₂ fun _ m' hm' _ => hr m' hm'
  | .none _, _, _ | .bool _ _, _, _ | .number _ _, _, _ | .str _ _, _, _ | .binary _ _ _ _, _, _
  | .unary _ _ _, _, _ | .call _ _ _, _, _ | .arrow _ _ _, _, _ | .protoDict _ _ _, _, _
  | .list _ _, _, _ | .dict _ _, _, _ | .lambda _ _, _, _ => partsOk_nil

theorem actionParts_ok : ∀ a : Action, a.Handles I.Good → PartsOk I (k.actionParts m a)
  | .done _, _ | .raise _, _ => partsOk_nil
  | .call callee args next, ⟨⟨hcallee, hargs⟩, hok, herror⟩ => by
    have called := hk callee args hcallee hargs m hm
    unfold After at called
    refine partsOk_cons hm ⟨hcallee, hargs⟩ ?_
    rcases hr : k.call callee args m with ⟨vs, m'⟩ | ⟨payload | _, m'⟩ <;> rw [hr] at called
    · exact partsOk_singleton called.1 (hok vs called.2)
    · exact partsOk_singleton called.1 (herror payload called.2)
    · exact partsOk_nil
  | .newList _ next, ⟨hitems, hnext⟩ =>
    partsOk_andThen (hI.newList hitems) hm fun v m' hm' hv =>
      partsOk_singleton (t := .action (next v)) hm' (hnext v hv)
  | .display _ _, ha => partsOk_singleton hm (ha _)

theorem roundParts_ok {b : Block Unit} {rest : Task} (hb : b.Obeys I.toRules) (hr : rest.Ok I) :
    PartsOk I (k.roundParts b rest m) := by
  refine partsOk_cons hm hb.stmts
    (partsOk_andThen (runs_round (execBlock_runs hI hk b hb)) hm fun goOn m' hm' _ => ?_)
  split
  · exact partsOk_singleton hm' hr
  · exact partsOk_nil

theorem parts_ok (hP : I.Portable) : ∀ t : Task, t.Ok I → PartsOk I (k.parts m t)
  | .expr e, ht => exprParts_ok hI hk hm e ht
  | .each [], _ => partsOk_nil
  | .each (e :: es), ⟨he, hes⟩ =>
    exprThen_ok hI hk hm he fun _ m' hm' _ => partsOk_singleton hm' hes
  | .spread es, ht => spreadParts_ok hI hk hm es ht
  | .entries [], _ => partsOk_nil
  | .entries ((ek, ev) :: es), ⟨⟨hek, hev⟩, hes⟩ => by
    refine exprThen_ok hI hk hm hek fun _ m₁ hm₁ _ => ?_
    refine exprThen_ok hI hk hm₁ hev fun _ m₂ hm₂ _ => ?_
    exact partsOk_singleton hm₂ hes
  | .targets [] _, _ => partsOk_nil
  | .targets (t :: ts) values, ⟨⟨ha, ht, hts⟩, hv⟩ => by
    obtain ⟨hat, hats⟩ := List.forall_mem_cons.1 ha
    have rest : ∀ v ∈ values.tail, I.Good v := fun v h => hv v (List.mem_of_mem_tail h)
    refine targetParts_ok hI hk hm (hI.good_first hv) (fun m' hm' => ?_) t hat ht
    exact partsOk_singleton hm' ⟨⟨hats, hts⟩, rest⟩
  | .definition ds f, ⟨hds, hmakes, hf⟩ => by
    refine partsOk_cons hm hds ?_
    refine partsOk_andThen (evalEach_keeps hI hk ds hds) hm fun values m₁ hm₁ hvalues => ?_
    refine partsOk_andThen (hI.newFunction hmakes hf) hm₁ fun v m₂ hm₂ hv => ?_
    exact partsOk_singleton hm₂ ⟨hv, hvalues⟩
  | .decoration _ [], _ => partsOk_nil
  | .decoration f (d :: ds), ⟨hf, hall⟩ => by
    obtain ⟨hd, hds⟩ := List.forall_mem_cons.1 hall
    refine partsOk_cons hm ⟨hf, hds⟩ ?_
    refine partsOk_andThen (decorate_keeps hI hk hf ds hds) hm fun v m' hm' hv => ?_
    split
    · exact partsOk_singleton hm' ⟨hd, by simpa using hv⟩
    · exact partsOk_nil
  | .stmt s, ht => stmtParts_ok hI hk hm s ht
  | .stmts [], _ => partsOk_nil
  | .stmts (s :: ss), ⟨hs, hss⟩ => by
    refine partsOk_cons hm hs ?_
    exact partsOk_andThen (exec_runs hI hk s hs) hm fun _ m' hm' _ => partsOk_singleton hm' hss
  | .rounds _ _ 0, _ => partsOk_nil
  | .rounds c b (n + 1), ⟨hl, hc, hb⟩ => by
    refine exprThen_ok hI hk hm hc fun v m' hm' _ => ?_
    split
    · exact roundParts_ok hI hk hm' hb ⟨hl, hc, hb⟩
    · exact partsOk_nil
  | .items _ _ [], _ => partsOk_nil
  | .items vs body ((a, b) :: pairs), ⟨⟨hw, hbody⟩, hall⟩ => by
    obtain ⟨⟨ha, hb⟩, hpairs⟩ := List.forall_mem_cons.1 hall
    have assigned := assignEach_keeps hI hk vs [a, b] hw (by simp [ha, hb])
    refine partsOk_andThen assigned hm fun _ m' hm' _ => ?_
    exact roundParts_ok hI hk hm' hbody ⟨⟨hw, hbody⟩, hpairs⟩
  | .call _ _, _ => partsOk_nil
  | .body f args, ⟨⟨id, hf⟩, hargs⟩ => by
    rw [Calls.parts]
    split
    · exact partsOk_nil
    · next hd =>
      have entered : I.Holds (Calls.enter f args m) := hP.enter hm (Nat.lt_of_not_le hd) hargs
      exact partsOk_singleton entered (hI.func hf).stmts
  | .action a, ht => actionParts_ok hI hk hm a ht
  | .program [], _ => partsOk_nil
  | .program (s :: ss), ⟨hs, hss⟩ => by
    have step := exec_runs hI hk s hs m hm
    unfold After at step
    refine partsOk_cons hm hs ?_
    rcases hr : k.exec s m with ⟨_, m'⟩ | ⟨e, m'⟩ <;> rw [hr] at step
    · exact partsOk_singleton step.1 hss
    · cases e with
      | fault _ => exact partsOk_nil
      | break_ | continue_ | ret _ => exact partsOk_singleton step.1 hss

end Discipline

/-- The discipline of a property of machines. All code obeys it. -/
def Discipline.ofMachine (P : Machine σ → Prop) : Discipline σ := { Rules.free with Good := fun _ => True, Holds := P }

/-- Where everything is allowed, every task is. -/
theorem Task.ok_ofMachine (P : Machine σ → Prop) (t : Task) : t.Ok (.ofMachine P) := by
  cases t with
  | expr e => exact e.obeys_free
  | each es | spread es => exact exprsObey_free es
  | entries es => exact entriesObey_free es
  | targets ts values =>
    exact ⟨⟨fun t _ => by cases t <;> simp [Rules.Assigns, Discipline.ofMachine, Rules.free], exprsObey_free ts⟩,
      fun _ _ => trivial⟩
  | definition ds f => exact ⟨exprsObey_free ds, trivial, f.obeys_free⟩
  | decoration f ds => exact ⟨trivial, fun _ _ => trivial⟩
  | stmt s => exact s.obeys_free
  | stmts ss | program ss => exact stmtsObey_free ss
  | rounds c b n => exact ⟨trivial, c.obeys_free, b.obeys_free⟩
  | items vs b pairs => exact ⟨⟨fun _ _ => trivial, b.obeys_free⟩, fun _ _ => ⟨trivial, trivial⟩⟩
  | call callee args => exact ⟨trivial, fun _ _ => trivial⟩
  | body f args => exact ⟨⟨0, trivial⟩, fun _ _ => trivial⟩
  | action a => exact Discipline.handles_true a

namespace Moment

/-- The discipline holds at the moment. -/
def Ok (I : Discipline σ) (x : Moment σ) : Prop := I.Holds x.machine ∧ x.task.Ok I

variable {host : Host σ} {x y : Moment σ}

theorem ok_of_started (hI : I.Lawful host) (hP : I.Portable) (hl : I.Loops) (hx : x.Ok I)
    (hy : x.Starts host y) : y.Ok I := by
  have hk (n : Nat) : I.CallsKeep (callWithin host n) :=
    Discipline.callsKeep_of_under fun c => Discipline.callWithin_keeps hI hP hl n c
  unfold Starts started at hy
  split at hy
  · rw [List.mem_singleton.1 hy]
    exact ⟨hx.1, ⟨_, hx.2.1⟩, hx.2.2⟩
  · rw [List.mem_singleton.1 hy]
    exact ⟨hx.1, hI.native hx.2.1 hx.2.2⟩
  · rw [List.mem_singleton.1 hy]
    obtain ⟨hr, hf⟩ := hI.method hx.2.1
    exact ⟨hx.1, hf, List.forall_mem_cons.2 ⟨hr, hx.2.2⟩⟩
  · obtain ⟨p, hp, rfl⟩ := List.mem_map.1 hy
    exact Discipline.parts_ok (k := .within host _) hI (hk _) hx.1 hP _ hx.2 p hp

/-- A discipline that holds at the first moment of a run holds at all of them. -/
theorem ok_of_reaches (hI : I.Lawful host) (hP : I.Portable) (hl : I.Loops) (hx : x.Ok I)
    (hy : x.Reaches host y) : y.Ok I := by
  induction hy with
  | refl => exact hx
  | tail _ h ih => exact ok_of_started hI hP hl ih h

end Moment

end DocScript
