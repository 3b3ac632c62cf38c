import DocScript.Machine.Eval
import DocScript.Proofs.Outcome
import DocScript.Proofs.Rules

/-!
# Disciplines

A discipline is what a run keeps : a property of machines, a property of the values that code handles
on them, and the rules that the code obeys. It is lawful if each single operation on a machine keeps
it. Then expressions and statements keep it, if calls do : `Discipline.eval_keeps` and
`Discipline.exec_runs` follow the program once, for every discipline, and what is left for a
particular one is to look at the operations.

The outcome is part of it. What is returned or raised is good, and only where the rules allow `while`
loops can a run be out of fuel.
-/

set_option linter.unusedSectionVars false

namespace DocScript

variable {σ β γ : Type}

/-- What holds of all values and of `None` holds of the first value, if there is one or not. -/
theorem Value.first_of_forall {P : Value → Prop} (hn : P .none) {vs : List Value}
    (h : ∀ v ∈ vs, P v) : P (Value.first vs) := by
  cases vs with
  | nil => exact hn
  | cons v vs => exact h v (by simp)

/-- All values that the native hands out satisfy `P`, as long as those that it gets back do. -/
def Action.Handles (P : Value → Prop) : Action → Prop
  | .done v => P v
  | .raise payload => P payload
  | .call callee args next =>
    (P callee ∧ ∀ v ∈ args, P v) ∧
      (∀ vs, (∀ v ∈ vs, P v) → (next (.ok vs)).Handles P) ∧
        ∀ payload, P payload → (next (.error payload)).Handles P
  | .newList items next => (∀ v ∈ items, P v) ∧ ∀ v, P v → (next v).Handles P
  | .display _ next => ∀ text, (next text).Handles P

structure Discipline (σ : Type) extends Rules where
  /-- The values that code may handle. -/
  Good : Value → Prop
  /-- What machines satisfy, before and after each operation. -/
  Holds : Machine σ → Prop

namespace Discipline

/-- The ways in which an evaluation may fail. -/
def Faults (I : Discipline σ) : Fault → Prop
  | .raised payload => I.Good payload
  | .outOfFuel => I.Loops

/-- The ways in which a statement may exit. -/
def Exits (I : Discipline σ) : Exit → Prop
  | .break_ | .continue_ => True
  | .ret values => ∀ v ∈ values, I.Good v
  | .fault f => I.Faults f

/-- Both are good. -/
def GoodPair (I : Discipline σ) (e : Value × Value) : Prop := I.Good e.1 ∧ I.Good e.2

/-- From every machine of the discipline, `x` leads to one, with a result of which `Q` holds or a
failure of which `E` holds. -/
def Maintains {ε : Type} (I : Discipline σ) (E : ε → Prop) (x : EStateM ε (Machine σ) β)
    (Q : β → Prop) : Prop :=
  ∀ m, I.Holds m → After x m (fun b m' => I.Holds m' ∧ Q b) (fun e m' => I.Holds m' ∧ E e)

/-- An evaluation that keeps the discipline. -/
abbrev Keeps (I : Discipline σ) (x : Eval σ β) (Q : β → Prop) : Prop := I.Maintains I.Faults x Q

/-- A statement, or a part of one, that keeps the discipline. -/
abbrev Runs (I : Discipline σ) (x : Exec σ β) (Q : β → Prop) : Prop := I.Maintains I.Exits x Q

/-- Each operation on a machine keeps the discipline. -/
structure Lawful (I : Discipline σ) (host : Host σ) : Prop where
  none : I.Good .none
  bool : ∀ b, I.Good (.bool b)
  num : ∀ n, I.Good (.num n)
  str : ∀ s, I.Good (.str s)
  /-- The code of a good function obeys the rules. -/
  func : ∀ {id f}, I.Good (.func id f) → f.body.Obeys I.toRules
  method : ∀ {id receiver callable}, I.Good (.method id receiver callable) →
    I.Good receiver ∧ I.Good callable
  lookup : ∀ v, I.Keeps (Machine.lookup v) I.Good
  assign : ∀ {v value}, I.Writes v → I.Good value → I.Keeps (Machine.assign v value) fun _ => True
  bind : ∀ {v value}, I.Writes v → I.Good value → I.Keeps (Machine.bind v value) fun _ => True
  newFunction : ∀ {f}, I.Makes f → f.Obeys I.toRules → I.Keeps (Machine.newFunction f) I.Good
  newDoc : ∀ {proto : Option Value} {entries}, (∀ p ∈ proto, I.Good p) →
    (∀ e ∈ entries, I.GoodPair e) → I.Keeps (Machine.newDoc (Doc.insertMany ⟨[], proto⟩ entries)) I.Good
  newList : ∀ {items}, (∀ v ∈ items, I.Good v) → I.Keeps (Machine.newList items) I.Good
  index : ∀ {object key}, I.Good object → I.Good key → I.Keeps (Machine.index host object key) I.Good
  arrow : ∀ {object key}, I.Good object → I.Good key → I.Keeps (Machine.arrow host object key) I.Good
  setIndex : ∀ {object key value}, I.Good object → I.Good key → I.Good value →
    I.Keeps (Machine.setIndex host object key value) fun _ => True
  pairs : ∀ {iterable}, I.Good iterable → I.Keeps (Machine.pairs iterable) fun es =>
    ∀ e ∈ es, I.GoodPair e
  println : ∀ {args}, (∀ v ∈ args, I.Good v) → I.Keeps (Calls.println args) I.Good
  len : ∀ {args}, (∀ v ∈ args, I.Good v) → I.Keeps (Calls.len args) I.Good
  push : ∀ {args}, (∀ v ∈ args, I.Good v) → I.Keeps (Calls.push args) I.Good
  native : ∀ {id name args}, I.Good (.native id (.host name)) → (∀ v ∈ args, I.Good v) →
    (host.native name args).Handles I.Good

/-- Calls of good values with good arguments keep the discipline. -/
def CallsKeep (I : Discipline σ) (call : Value → List Value → Eval σ (List Value)) : Prop :=
  ∀ callee args, I.Good callee → (∀ v ∈ args, I.Good v) →
    I.Keeps (call callee args) fun vs => ∀ v ∈ vs, I.Good v

/-! ## Sequences and loops -/

variable {I : Discipline σ}

section Maintains

variable {ε : Type} {E : ε → Prop} {Q : β → Prop} {R : γ → Prop}

theorem maintains_pure {b : β} (h : Q b) : I.Maintains E (pure b) Q := fun _ hm => ⟨hm, h⟩

theorem maintains_throw {e : ε} (h : E e) : I.Maintains E (throw e) Q := fun _ hm => ⟨hm, h⟩

theorem Maintains.bind {x : EStateM ε (Machine σ) γ} {f : γ → EStateM ε (Machine σ) β}
    (hx : I.Maintains E x R) (hf : ∀ c, R c → I.Maintains E (f c) Q) :
    I.Maintains E (x >>= f) Q := fun m hm =>
  (hx m hm).bind fun c m' h => hf c h.2 m' h.1

end Maintains

theorem runs_lift {x : Eval σ β} {Q : β → Prop} (hx : I.Keeps x Q) : I.Runs (Exec.lift x) Q := by
  intro m hm
  have h := hx m hm
  unfold After at h ⊢
  cases hr : x m <;> simp only [Exec.lift, hr] at h ⊢ <;> exact h

theorem runs_round {x : Exec σ Unit} (hx : I.Runs x fun _ => True) :
    I.Runs (Exec.round x) fun _ => True := by
  intro m hm
  have h := hx m hm
  unfold After at h ⊢
  rcases hr : x m with _ | e
  · simpa only [Exec.round, hr] using h
  · rw [hr] at h
    cases e with
    | break_ | continue_ => simpa only [Exec.round, hr] using ⟨h.1, trivial⟩
    | ret _ | fault _ => simpa only [Exec.round, hr] using h

theorem runs_whileLoop {cond : Eval σ Value} {body : Exec σ Unit} (hl : I.Loops)
    (hc : I.Keeps cond I.Good) (hb : I.Runs body fun _ => True) :
    ∀ n, I.Runs (Exec.whileLoop cond body n) fun _ => True := by
  intro n
  induction n with
  | zero => exact maintains_throw hl
  | succ n ih =>
    refine (runs_lift hc).bind fun c _ => ?_
    split
    · refine (runs_round hb).bind fun goOn _ => ?_
      split
      · exact ih
      · exact maintains_pure trivial
    · exact maintains_pure trivial

theorem runs_handling {body : Exec σ Unit} {handler : Value → Exec σ Unit}
    (hb : I.Runs body fun _ => True) (hh : ∀ p, I.Good p → I.Runs (handler p) fun _ => True) :
    I.Runs (Exec.handling body handler) fun _ => True := by
  intro m hm
  have h := hb m hm
  unfold After at h ⊢
  rcases hr : body m with _ | e
  · simpa only [Exec.handling, hr] using h
  · rw [hr] at h
    rcases e with _ | _ | _ | (payload | _)
    case fault.raised => simpa only [Exec.handling, hr, After] using hh payload h.2 _ h.1
    all_goals simpa only [Exec.handling, hr] using h

theorem runs_cleaning {body cleanup : Exec σ Unit} (hb : I.Runs body fun _ => True)
    (hc : I.Runs cleanup fun _ => True) : I.Runs (Exec.cleaning body cleanup) fun _ => True := by
  intro m hm
  have h := hb m hm
  unfold After at h ⊢
  rcases hr : body m with ⟨_, m₁⟩ | ⟨e, m₁⟩
  · rw [hr] at h
    simpa only [Exec.cleaning, hr, After] using hc m₁ h.1
  · rw [hr] at h
    have h₂ := hc m₁ h.1
    unfold After at h₂
    -- a cleanup that completes hands on the exit of the body
    rcases e with _ | _ | _ | (_ | _)
    case fault.outOfFuel => simpa only [Exec.cleaning, hr] using h
    all_goals
      rcases hr₂ : cleanup m₁ with _ | _ <;> rw [hr₂] at h₂ <;> simp only [Exec.cleaning, hr, hr₂]
      · exact ⟨h₂.1, h.2⟩
      · exact h₂

/-! ## Expressions -/

namespace Lawful

variable {host : Host σ} (hI : I.Lawful host)

include hI

theorem keeps_fail {Q : β → Prop} (t : Trouble) : I.Keeps (Eval.fail t) Q :=
  maintains_throw (hI.str _)

theorem keeps_ofExcept {r : Except Trouble β} {Q : β → Prop} (h : ∀ b, r = .ok b → Q b) :
    I.Keeps (Eval.ofExcept r) Q := by
  cases r with
  | ok b => exact maintains_pure (h b rfl)
  | error t => exact hI.keeps_fail t

theorem good_first {vs : List Value} (h : ∀ v ∈ vs, I.Good v) : I.Good (Value.first vs) :=
  Value.first_of_forall hI.none h

theorem good_arithmetic {f : Float → Float → Value} {a b v : Value} (hf : ∀ x y, I.Good (f x y))
    (h : arithmetic f a b = .ok v) : I.Good v := by
  unfold arithmetic at h
  split at h
  · exact Except.ok.inj h ▸ hf _ _
  · simp at h

theorem good_binary {op : BinaryOp} {a b v : Value} (ha : I.Good a) (hb : I.Good b)
    (h : op.apply a b = .ok v) : I.Good v := by
  cases op with
  | and | or =>
    rw [BinaryOp.apply] at h
    rw [← Except.ok.inj h]
    split <;> assumption
  | eq | notEq => exact Except.ok.inj h ▸ hI.bool _
  | add =>
    unfold BinaryOp.apply at h
    split at h
    case h_5 => exact Except.ok.inj h ▸ hI.num _
    case h_6 => exact Except.ok.inj h ▸ hI.str _
    all_goals contradiction
  | sub | mul | div | pow => exact hI.good_arithmetic (fun _ _ => hI.num _) h
  | less | lessEq | greater | greaterEq => exact hI.good_arithmetic (fun _ _ => hI.bool _) h

theorem good_unary {op : UnaryOp} {a v : Value} (h : op.apply a = .ok v) : I.Good v := by
  unfold UnaryOp.apply at h
  split at h <;> simp only [reduceCtorEq, Except.ok.injEq] at h
  · exact h ▸ hI.bool _
  · exact h ▸ hI.num _
  · exact h ▸ hI.num _

end Lawful

section Programs

variable {k : Calls σ} (hI : I.Lawful k.host) (hk : I.CallsKeep k.call)

include hI hk

theorem keeps_call {callee : Value} {args : List Value} (hc : I.Good callee)
    (ha : ∀ v ∈ args, I.Good v) :
    I.Keeps (do let vs ← k.call callee args; return Value.first vs) I.Good :=
  (hk callee args hc ha).bind fun _ h => maintains_pure (hI.good_first h)

mutual

theorem eval_keeps : ∀ e : Expr Unit, e.Obeys I.toRules → I.Keeps (k.eval e) I.Good
  | .none _, _ => maintains_pure hI.none
  | .bool _ _, _ => maintains_pure (hI.bool _)
  | .number _ _, _ => maintains_pure (hI.num _)
  | .str _ _, _ => maintains_pure (hI.str _)
  | .var _ v, _ => hI.lookup v
  | .binary _ op l r, ⟨hl, hr⟩ => by
    rw [Calls.eval]
    refine (eval_keeps l hl).bind fun a ha => ?_
    split
    · exact maintains_pure ha
    · refine (eval_keeps r hr).bind fun b hb => ?_
      exact hI.keeps_ofExcept fun v h => hI.good_binary ha hb h
  | .unary _ op e, he => by
    rw [Calls.eval]
    refine (eval_keeps e he).bind fun a _ => ?_
    exact hI.keeps_ofExcept fun v h => hI.good_unary h
  | .call _ c as, ⟨hc, has⟩ => by
    rw [Calls.eval]
    refine (eval_keeps c hc).bind fun f hf => ?_
    refine (evalSpread_keeps as has).bind fun args ha => ?_
    exact keeps_call hI hk hf ha
  | .index _ o i, ⟨ho, hi⟩ => by
    rw [Calls.eval]
    refine (eval_keeps o ho).bind fun object hobject => ?_
    refine (eval_keeps i hi).bind fun key hkey => ?_
    exact hI.index hobject hkey
  | .arrow _ o i, ⟨ho, hi⟩ => by
    rw [Calls.eval]
    refine (eval_keeps o ho).bind fun object hobject => ?_
    refine (eval_keeps i hi).bind fun key hkey => ?_
    exact hI.arrow hobject hkey
  | .protoDict _ p es, ⟨hp, hes⟩ => by
    rw [Calls.eval]
    refine (eval_keeps p hp).bind fun proto hproto => ?_
    have made : I.Keeps (do
        let kvs ← k.evalEntries es
        Machine.newDoc ((Doc.withProto proto).insertMany kvs)) I.Good :=
      (evalEntries_keeps es hes).bind fun kvs hkvs => hI.newDoc (by simpa using hproto) hkvs
    split
    · exact made
    · exact made
    · exact hI.keeps_fail _
  | .list _ is, he => (evalEach_keeps is he).bind fun vs hvs => hI.newList hvs
  | .dict _ es, he => (evalEntries_keeps es he).bind fun kvs hkvs => hI.newDoc (by simp) hkvs
  | .lambda _ f, ⟨hm, hf⟩ => hI.newFunction hm hf

theorem evalEach_keeps : ∀ es : List (Expr Unit), ExprsObey I.toRules es →
    I.Keeps (k.evalEach es) fun vs => ∀ v ∈ vs, I.Good v
  | [], _ => maintains_pure (by simp)
  | e :: es, ⟨he, hes⟩ => by
    rw [Calls.evalEach]
    refine (eval_keeps e he).bind fun v hv => ?_
    refine (evalEach_keeps es hes).bind fun vs hvs => ?_
    exact maintains_pure (List.forall_mem_cons.2 ⟨hv, hvs⟩)

theorem evalSpread_keeps : ∀ es : List (Expr Unit), ExprsObey I.toRules es →
    I.Keeps (k.evalSpread es) fun vs => ∀ v ∈ vs, I.Good v
  | [], _ => maintains_pure (by simp)
  | e :: es, ⟨he, hes⟩ => by
    have several : I.Keeps (do let v ← k.eval e; let vs ← k.evalSpread es; return v :: vs)
        fun vs => ∀ v ∈ vs, I.Good v := by
      refine (eval_keeps e he).bind fun v hv => ?_
      refine (evalSpread_keeps es hes).bind fun vs hvs => ?_
      exact maintains_pure (List.forall_mem_cons.2 ⟨hv, hvs⟩)
    cases es with
    | nil =>
      cases e with
      -- a call at the end gives all of its values
      | call _ c as =>
        obtain ⟨hc, has⟩ := he
        refine (eval_keeps c hc).bind fun f hf => ?_
        exact (evalSpread_keeps as has).bind fun args ha => hk f args hf ha
      | _ => exact several
    | cons e' es =>
      rw [Calls.evalSpread_cons]
      exact several

theorem evalEntries_keeps : ∀ es : List (Expr Unit × Expr Unit), EntriesObey I.toRules es →
    I.Keeps (k.evalEntries es) fun kvs => ∀ e ∈ kvs, I.GoodPair e
  | [], _ => maintains_pure (by simp)
  | (ek, ev) :: es, ⟨⟨hek, hev⟩, hes⟩ => by
    rw [Calls.evalEntries]
    refine (eval_keeps ek hek).bind fun key hkey => ?_
    refine (eval_keeps ev hev).bind fun value hvalue => ?_
    refine (evalEntries_keeps es hes).bind fun kvs hkvs => ?_
    exact maintains_pure (List.forall_mem_cons.2 ⟨⟨hkey, hvalue⟩, hkvs⟩)

end

/-! ## Statements -/

theorem decorate_keeps {f : Value} (hf : I.Good f) : ∀ ds : List Value, (∀ d ∈ ds, I.Good d) →
    I.Keeps (k.decorate f ds) I.Good
  | [], _ => maintains_pure hf
  | d :: ds, hds => by
    obtain ⟨hd, hds⟩ := List.forall_mem_cons.1 hds
    refine (decorate_keeps hf ds hds).bind fun v hv => ?_
    split
    · exact keeps_call hI hk hd (by simpa using hv)
    · exact hI.keeps_fail _

theorem evalDefinition_keeps {ds : List (Expr Unit)} {f : Function Unit} (hds : ExprsObey I.toRules ds)
    (hf : I.Makes f) (hb : f.Obeys I.toRules) : I.Keeps (k.evalDefinition ds f) I.Good := by
  refine (evalEach_keeps hI hk ds hds).bind fun values hvs => ?_
  refine (hI.newFunction hf hb).bind fun v hv => ?_
  exact decorate_keeps hI hk hv values hvs

theorem assignTargets_keeps : ∀ (ts : List (Expr Unit)) (values : List Value),
    (∀ t ∈ ts, I.Assigns t) → ExprsObey I.toRules ts → (∀ v ∈ values, I.Good v) →
      I.Keeps (k.assignTargets ts values) fun _ => True
  | [], _, _, _, _ => maintains_pure trivial
  | t :: ts, values, ha, ⟨ht, hts⟩, hv => by
    obtain ⟨hat, hats⟩ := List.forall_mem_cons.1 ha
    have rest := assignTargets_keeps ts values.tail hats hts fun v h => hv v (List.mem_of_mem_tail h)
    have first := hI.good_first hv
    cases t with
    | var _ v => exact (hI.assign hat.2 first).bind fun _ _ => rest
    | index _ o i =>
      obtain ⟨ho, hi⟩ := ht
      refine (eval_keeps hI hk o ho).bind fun object hobject => ?_
      refine (eval_keeps hI hk i hi).bind fun key hkey => ?_
      exact (hI.setIndex hobject hkey first).bind fun _ _ => rest
    | _ => exact Maintains.bind (R := fun _ => True) (hI.keeps_fail _) fun _ _ => rest

theorem assignEach_keeps : ∀ (vs : List Variable) (values : List Value), (∀ v ∈ vs, I.Writes v) →
    (∀ v ∈ values, I.Good v) → I.Keeps (Machine.assignEach vs values) fun _ => True
  | [], _, _, _ => maintains_pure trivial
  | v :: vs, values, hw, hv => by
    obtain ⟨hw, hws⟩ := List.forall_mem_cons.1 hw
    refine (hI.assign hw (hI.good_first hv)).bind fun _ _ => ?_
    exact assignEach_keeps vs values.tail hws fun v h => hv v (List.mem_of_mem_tail h)

theorem runs_forLoop {vs : List Variable} {body : Exec σ Unit} (hw : ∀ v ∈ vs, I.Writes v)
    (hb : I.Runs body fun _ => True) : ∀ items : List (Value × Value), (∀ e ∈ items, I.GoodPair e) →
      I.Runs (Exec.forLoop vs body items) fun _ => True
  | [], _ => maintains_pure trivial
  | (a, b) :: items, hi => by
    obtain ⟨⟨ha, hb'⟩, hi⟩ := List.forall_mem_cons.1 hi
    have assigned := assignEach_keeps hI hk vs [a, b] hw (by simp [ha, hb'])
    refine (runs_lift assigned).bind fun _ _ => ?_
    refine (runs_round hb).bind fun goOn _ => ?_
    split
    · exact runs_forLoop hw hb items hi
    · exact maintains_pure trivial

mutual

theorem exec_runs : ∀ s : Stmt Unit, s.Obeys I.toRules → I.Runs (k.exec s) fun _ => True
  | .expr _ e, he => (runs_lift (eval_keeps hI hk e he)).bind fun _ _ => maintains_pure trivial
  | .assign _ ts es, ⟨ha, ht, hes⟩ => by
    rw [Calls.exec]
    refine (runs_lift (evalSpread_keeps hI hk es hes)).bind fun vs hvs => ?_
    exact runs_lift (assignTargets_keeps hI hk ts vs ha ht hvs)
  | .define _ ds v f, ⟨hw, hds, hm, hf⟩ => by
    rw [Calls.exec]
    refine (runs_lift (evalDefinition_keeps hI hk hds hm hf)).bind fun value hv => ?_
    exact runs_lift (hI.bind hw hv)
  | .ifElse _ c y n, ⟨hc, hy, hn⟩ => by
    rw [Calls.exec]
    refine (runs_lift (eval_keeps hI hk c hc)).bind fun v _ => ?_
    split
    · exact execBlock_runs y hy
    · exact execBlock_runs n hn
  | .whileLoop _ c b, ⟨hl, hc, hb⟩ =>
    runs_whileLoop hl (eval_keeps hI hk c hc) (execBlock_runs b hb) k.rounds
  | .forLoop _ vs e b, ⟨hw, he, hb⟩ => by
    rw [Calls.exec]
    refine (runs_lift (eval_keeps hI hk e he)).bind fun iterable hi => ?_
    refine (runs_lift (hI.pairs hi)).bind fun items hitems => ?_
    exact runs_forLoop hI hk hw (execBlock_runs b hb) items hitems
  | .attempt _ b h c, ⟨hb, hh, hc⟩ => by
    have handled := execHandler_runs (execBlock_runs b hb) h hh
    exact execCleanup_runs handled c hc
  | .raise _ e, he => by
    rw [Calls.exec]
    refine (runs_lift (eval_keeps hI hk e he)).bind fun payload hp => ?_
    exact runs_lift (maintains_throw hp)
  | .ret _ es, hes => by
    rw [Calls.exec]
    refine (runs_lift (evalSpread_keeps hI hk es hes)).bind fun vs hvs => ?_
    exact maintains_throw hvs
  | .break_ _, _ => maintains_throw trivial
  | .continue_ _, _ => maintains_throw trivial
  | .declare _ _ _, _ => maintains_pure trivial
  | .bad _ _, _ => maintains_pure trivial

theorem execStmts_runs : ∀ ss : List (Stmt Unit), StmtsObey I.toRules ss →
    I.Runs (k.execStmts ss) fun _ => True
  | [], _ => maintains_pure trivial
  | s :: ss, ⟨hs, hss⟩ => (exec_runs s hs).bind fun _ _ => execStmts_runs ss hss

theorem execBlock_runs : ∀ b : Block Unit, b.Obeys I.toRules → I.Runs (k.execBlock b) fun _ => True
  | ⟨_, ss⟩, hb => execStmts_runs ss hb

theorem execHandler_runs {body : Exec σ Unit} (hb : I.Runs body fun _ => True) :
    ∀ h : Option (Handler Unit), HandlerObeys I.toRules h →
      I.Runs (k.execHandler body h) fun _ => True
  | none, _ => hb
  | some ⟨none, b⟩, ⟨_, hh⟩ => runs_handling hb fun _ _ => execBlock_runs b hh
  | some ⟨some v, b⟩, ⟨hw, hh⟩ => by
    refine runs_handling hb fun payload hp => ?_
    refine (runs_lift (hI.bind (hw v rfl) hp)).bind fun _ _ => ?_
    exact execBlock_runs b hh

theorem execCleanup_runs {body : Exec σ Unit} (hb : I.Runs body fun _ => True) :
    ∀ c : Option (Block Unit), CleanupObeys I.toRules c → I.Runs (k.execCleanup body c) fun _ => True
  | none, _ => hb
  | some b, hc => runs_cleaning hb (execBlock_runs b hc)

end

end Programs

end Discipline

end DocScript
