import DocScript.Machine.Session
import DocScript.Proofs.Run.Discipline

/-!
# The control state

The control state of a machine is the frame that code runs in, the depth of calls, and what never
changes after the machine was built : its module, its prototype of lists and its limit of calls. Only
calls of script functions touch it, and they put it back, so every discipline can be narrowed to
the machines in one control state (`Discipline.under`).

With this the knot of `callWithin` is tied for every discipline. The body of a function runs one call
deeper, under the discipline narrowed to that control state, and `Discipline.callValue_keeps` says
what a call needs of the calls inside it. `Discipline.callWithin_keeps` and
`Discipline.interpret_keeps` follow by induction on the bound.
-/

namespace DocScript

variable {σ β : Type}

structure Control where
  env : FrameId
  depth : Nat
  root : FrameId
  arrayProto : DocId
  maxDepth : Nat

def Machine.control (m : Machine σ) : Control := ⟨m.env, m.depth, m.root, m.arrayProto, m.maxDepth⟩

/-- The machine with its code in the frame `i`. -/
def Machine.inFrame (m : Machine σ) (i : FrameId) : Machine σ := { m with env := i }

theorem Machine.withEnv_root {m : Machine σ} (h : m.env = m.root) : { m with env := m.root } = m := by
  cases m
  cases h
  rfl

/-! ## Operations leave it alone -/

/-- Whatever comes of `x`, the control state is as before. -/
def Steady {ε : Type} (x : EStateM ε (Machine σ) β) : Prop :=
  ∀ m, After x m (fun _ m' => m'.control = m.control) (fun _ m' => m'.control = m.control)

namespace Steady

theorem pure (b : β) : Steady (Pure.pure b : Eval σ β) := fun _ => rfl

theorem bind {γ : Type} {x : Eval σ γ} {f : γ → Eval σ β} (hx : Steady x) (hf : ∀ c, Steady (f c)) :
    Steady (x >>= f) := by
  intro m
  rw [after_bind]
  refine (hx m).mono (fun c m' h => ?_) fun _ _ h => h
  exact h ▸ hf c m'

theorem lookup (v : Variable) : Steady (Machine.lookup v : Eval σ Value) := by
  intro m
  simp only [After, Machine.lookup]
  cases m.lookup? v <;> rfl

theorem defineLocal (x : String) (value : Value) : Steady (Machine.defineLocal x value : Eval σ Unit) :=
  fun _ => rfl

theorem assign (v : Variable) (value : Value) : Steady (Machine.assign v value : Eval σ Unit) := by
  intro m
  simp only [After, Machine.assign]
  cases v.scope with
  | dynamic | local_ | global_ => rfl
  | nonlocal =>
    dsimp only
    cases m.heap.frames.assignOuter? m.env v.name value <;> rfl

theorem bindVariable (v : Variable) (value : Value) : Steady (Machine.bind v value : Eval σ Unit) := by
  unfold Machine.bind
  split
  · exact defineLocal _ _
  · exact assign _ _

theorem newFunction (f : Function Unit) : Steady (Machine.newFunction f : Eval σ Value) := fun _ => rfl

theorem newDoc (d : Doc) : Steady (Machine.newDoc d : Eval σ Value) := fun _ => rfl

theorem newList (items : List Value) : Steady (Machine.newList items : Eval σ Value) := fun _ => rfl

theorem newMethod (receiver callable : Value) :
    Steady (Machine.newMethod receiver callable : Eval σ Value) := fun _ => rfl

variable (host : Host σ)

theorem index (object key : Value) : Steady (Machine.index host object key) := by
  intro m
  cases object <;> rfl

theorem prototype (object : Value) : Steady (Machine.prototype host object) := by
  intro m
  cases object <;> rfl

theorem arrow (object key : Value) : Steady (Machine.arrow host object key) := by
  refine (prototype host object).bind fun proto => ?_
  cases proto with
  | none => exact .pure _
  | some proto =>
    refine (index host proto key).bind fun found => ?_
    split
    · exact newMethod _ _
    · exact .pure _

theorem setIndex (object key value : Value) : Steady (Machine.setIndex host object key value) := by
  intro m
  cases object with
  | box id typeName =>
    simp only [After, Machine.setIndex]
    rcases m.heap.boxes[id]?.map (host.setIndex · key value) with _ | _ | _ <;> rfl
  | _ => rfl

theorem pairs (iterable : Value) : Steady (Machine.pairs iterable : Eval σ _) := by
  intro m
  cases iterable <;> rfl

theorem println (args : List Value) : Steady (Calls.println args : Eval σ Value) := fun _ => rfl

theorem len (args : List Value) : Steady (Calls.len args : Eval σ Value) := by
  intro m
  rcases args with _ | ⟨v, args⟩
  · rfl
  · cases v <;> rfl

theorem push (args : List Value) : Steady (Calls.push args : Eval σ Value) := by
  intro m
  rcases args with _ | ⟨v, args⟩
  · rfl
  · cases v <;> rfl

end Steady

/-! ## Disciplines in one control state -/

namespace Discipline

variable {I : Discipline σ} {host : Host σ}

/-- The discipline on the machines in the control state `c`. -/
def under (I : Discipline σ) (c : Control) : Discipline σ :=
  { I with Holds := fun m => I.Holds m ∧ m.control = c }

theorem Maintains.under {x : Eval σ β} {Q : β → Prop} (h : I.Keeps x Q) (hx : Steady x) (c : Control) :
    (I.under c).Keeps x Q := by
  rintro m ⟨hm, rfl⟩
  exact ((h m hm).and (hx m)).mono (fun _ _ h => ⟨⟨h.1.1, h.2⟩, h.1.2⟩) fun _ _ h => ⟨⟨h.1.1, h.2⟩, h.1.2⟩

theorem Lawful.under (hI : I.Lawful host) (c : Control) : (I.under c).Lawful host where
  none := hI.none
  bool := hI.bool
  num := hI.num
  str := hI.str
  func := hI.func
  method := hI.method
  lookup v := (hI.lookup v).under (.lookup v) c
  assign hw hv := (hI.assign hw hv).under (.assign _ _) c
  bind hw hv := (hI.bind hw hv).under (.bindVariable _ _) c
  newFunction hm hb := (hI.newFunction hm hb).under (.newFunction _) c
  newDoc hp he := (hI.newDoc hp he).under (.newDoc _) c
  newList h := (hI.newList h).under (.newList _) c
  index ho hk := (hI.index ho hk).under (.index _ _ _) c
  arrow ho hk := (hI.arrow ho hk).under (.arrow _ _ _) c
  setIndex ho hk hv := (hI.setIndex ho hk hv).under (.setIndex _ _ _ _) c
  pairs hi := (hI.pairs hi).under (.pairs _) c
  println ha := (hI.println ha).under (.println _) c
  len ha := (hI.len ha).under (.len _) c
  push ha := (hI.push ha).under (.push _) c
  native := hI.native

theorem callsKeep_of_under {call : Value → List Value → Eval σ (List Value)}
    (h : ∀ c, (I.under c).CallsKeep call) : I.CallsKeep call := fun callee args hc ha m hm =>
  (h m.control callee args hc ha m ⟨hm, rfl⟩).mono (fun _ _ h => ⟨h.1.1, h.2⟩) fun _ _ h => ⟨h.1.1, h.2⟩

/-! ## Calls -/

/-- Functions can be entered and left under the discipline. -/
structure Portable (I : Discipline σ) : Prop where
  enter : ∀ {m f args}, I.Holds m → m.depth < m.maxDepth → (∀ v ∈ args, I.Good v) →
    I.Holds (Calls.enter f args m)
  leave : ∀ {m m' f args}, I.Holds m → I.Holds m' →
    m'.control = (Calls.enter f args m).control →
      I.Holds { m' with env := m.env, depth := m'.depth - 1 }

/-- Leaving a function gives back the control state in which it was entered. -/
theorem control_leave {m m' : Machine σ} {f : Closure} {args : List Value}
    (h : m'.control = (Calls.enter f args m).control) :
    ({ m' with env := m.env, depth := m'.depth - 1 } : Machine σ).control = m.control := by
  simp only [Machine.control, Calls.enter, Machine.withFrames, Control.mk.injEq] at h ⊢
  simp [h]

variable {k : Calls σ}

/-- A call of a function keeps the discipline, if the calls inside it do one call deeper. -/
theorem callFunction_keeps (hI : I.Lawful k.host) (hP : I.Portable) {c : Control}
    (hk : ∀ c' : Control, c.depth < c.maxDepth → c'.depth = c.depth + 1 → c'.maxDepth = c.maxDepth →
      (I.under c').CallsKeep k.call)
    {f : Closure} {args : List Value} (hf : f.body.Obeys I.toRules) (ha : ∀ v ∈ args, I.Good v) :
    (I.under c).Keeps (k.callFunction f args) fun vs => ∀ v ∈ vs, I.Good v := by
  rintro m ⟨hm, rfl⟩
  unfold After Calls.callFunction
  by_cases hd : m.maxDepth ≤ m.depth
  · rw [if_pos hd]
    exact ⟨⟨hm, rfl⟩, hI.str _⟩
  · rw [if_neg hd]
    have hd : m.depth < m.maxDepth := Nat.lt_of_not_le hd
    have body := execBlock_runs (hI.under _) (hk (Calls.enter f args m).control hd rfl rfl) f.body hf
      (Calls.enter f args m) ⟨hP.enter hm hd ha, rfl⟩
    have left {m' : Machine σ} (h : (I.under (Calls.enter f args m).control).Holds m') :
        (I.under m.control).Holds { m' with env := m.env, depth := m'.depth - 1 } :=
      ⟨hP.leave hm h.1 h.2, control_leave h.2⟩
    unfold After at body
    rcases hr : k.execBlock f.body (Calls.enter f args m) with ⟨_, m'⟩ | ⟨e, m'⟩ <;> rw [hr] at body
    · exact ⟨left body.1, by simpa using hI.none⟩
    · cases e with
      | break_ | continue_ => exact ⟨left body.1, by simpa using hI.none⟩
      | ret values => exact ⟨left body.1, body.2⟩
      | fault e => exact ⟨left body.1, body.2⟩

theorem perform_keeps {call : Value → List Value → Eval σ (List Value)} (hI : I.Lawful host)
    (hk : I.CallsKeep call) : ∀ a : Action, a.Handles I.Good → I.Keeps (Calls.perform call a) I.Good
  | .done _, h => maintains_pure h
  | .raise _, h => maintains_throw h
  | .call callee args next, ⟨⟨hcallee, hargs⟩, hok, herror⟩ => by
    intro m hm
    have called := hk callee args hcallee hargs m hm
    unfold After at called ⊢
    rcases hr : call callee args m with ⟨vs, m'⟩ | ⟨payload | _, m'⟩ <;>
      rw [hr] at called <;> simp only [Calls.perform, hr]
    · exact perform_keeps hI hk (next (.ok vs)) (hok vs called.2) m' called.1
    · exact perform_keeps hI hk (next (.error payload)) (herror payload called.2) m' called.1
    · exact called
  | .newList items next, ⟨hitems, hnext⟩ =>
    (hI.newList hitems).bind fun v hv => perform_keeps hI hk (next v) (hnext v hv)
  | .display v next, h => fun m hm => perform_keeps hI hk (next (m.display v)) (h _) m hm

theorem callNative_keeps (hI : I.Lawful k.host) {id : Nat} {f : Native} {args : List Value}
    (hk : (∃ name, f = .host name) → I.CallsKeep k.call) (hf : I.Good (.native id f))
    (ha : ∀ v ∈ args, I.Good v) : I.Keeps (k.callNative f args) I.Good := by
  cases f with
  | println => exact hI.println ha
  | len => exact hI.len ha
  | push => exact hI.push ha
  | host name => exact perform_keeps hI (hk ⟨name, rfl⟩) _ (hI.native hf ha)

/-- Calls keep the discipline, if the calls inside them do : those of function bodies one call deeper,
and those of host natives, if there are any, in the same control state. -/
theorem callValue_keeps (hI : I.Lawful k.host) (hP : I.Portable) {c : Control}
    (hf : ∀ c' : Control, c.depth < c.maxDepth → c'.depth = c.depth + 1 → c'.maxDepth = c.maxDepth →
      (I.under c').CallsKeep k.call)
    (hn : ∀ id name, I.Good (.native id (.host name)) → (I.under c).CallsKeep k.call) :
    (I.under c).CallsKeep k.callValue := by
  intro callee
  induction callee with
  | func id f => exact fun args hc ha => callFunction_keeps hI hP hf (hI.func hc) ha
  | native id f =>
    intro args hc ha
    refine (callNative_keeps (hI.under c) ?_ hc ha).bind fun v hv => maintains_pure (by simpa using hv)
    rintro ⟨name, rfl⟩
    exact hn id name hc
  | method id receiver callable _ ih =>
    intro args hc ha
    obtain ⟨hr, hc⟩ := hI.method hc
    exact ih (receiver :: args) hc (List.forall_mem_cons.2 ⟨hr, ha⟩)
  | _ => exact fun _ _ _ => (hI.under c).keeps_fail _

/-- Where a run may be out of fuel, calls keep the discipline with every bound. -/
theorem callWithin_keeps (hI : I.Lawful host) (hP : I.Portable) (hl : I.Loops) :
    ∀ (n : Nat) (c : Control), (I.under c).CallsKeep (callWithin host n)
  | 0, _ => fun _ _ _ _ => maintains_throw hl
  | n + 1, c => by
    have inner := callWithin_keeps hI hP hl n
    exact callValue_keeps (k := .within host n) hI hP (fun c' _ _ _ => inner c') fun _ _ _ => inner c

/-! ## Scripts -/

/-- The outcomes that a script may have. -/
def Outcomes (I : Discipline σ) : Outcome → Prop
  | .done | .rejected _ _ => True
  | .raised _ payload => I.Good payload
  | .outOfFuel => I.Loops

/-- A script has an outcome that the discipline allows, and keeps it if it runs in the module. -/
theorem runProgram_keeps (hI : I.Lawful k.host) {c : Control} (hk : (I.under c).CallsKeep k.call) :
    ∀ (p : Program Unit) (m : Machine σ), p.Obeys I.toRules → (I.under c).Holds m →
      I.Outcomes (runProgram k p m).1 ∧ (c.env = c.root → (I.under c).Holds (runProgram k p m).2)
  | [], _, _, hm => ⟨trivial, fun _ => hm⟩
  | s :: ss, m, ⟨hs, hss⟩, hm => by
    have step := exec_runs (hI.under c) hk s hs m hm
    unfold After at step
    rw [runProgram]
    rcases hr : k.exec s m with ⟨_, m'⟩ | ⟨e, m'⟩ <;> rw [hr] at step
    · exact runProgram_keeps hI hk ss m' hss step.1
    · rcases e with _ | _ | _ | (payload | _)
      case fault.raised =>
        refine ⟨step.2, fun hc => ?_⟩
        have home : { m' with env := m'.root } = m' := by
          obtain ⟨⟨_, rfl⟩, _⟩ := step
          exact Machine.withEnv_root hc
        exact home.symm ▸ step.1
      case fault.outOfFuel => exact ⟨step.2, fun _ => step.1⟩
      -- no other exit stops the script
      all_goals exact runProgram_keeps hI hk ss m' hss step.1

/-- Reading and running a script keeps the discipline, and leaves the machine in its module. -/
theorem interpret_keeps (hI : I.Lawful host) (hP : I.Portable) (hl : I.Loops) {n : Nat} {text : String}
    {m : Machine σ} (hm : I.Holds { m with env := m.root, depth := 0 })
    (hp : (Source.parse ⟨scriptName, text⟩).firstError? = none →
      (Source.parse ⟨scriptName, text⟩).program.erase.Obeys I.toRules) :
    (I.under ⟨m.root, 0, m.root, m.arrayProto, m.maxDepth⟩).Holds (interpret host n text m).2 ∧
      I.Outcomes (interpret host n text m).1 := by
  unfold interpret
  dsimp only
  split
  · exact ⟨⟨hm, rfl⟩, trivial⟩
  · next h =>
    obtain ⟨ho, hs⟩ := runProgram_keeps (k := .within host n) hI
      (callWithin_keeps hI hP hl n ⟨m.root, 0, m.root, m.arrayProto, m.maxDepth⟩) _ _ (hp h) ⟨hm, rfl⟩
    exact ⟨hs rfl, ho⟩

/-! ## Properties of the control state alone -/

/-- The discipline of a property of control states. All code obeys it. -/
def ofControl (P : Control → Prop) : Discipline σ :=
  { Rules.free with Good := fun _ => True, Holds := fun m => P m.control }

theorem holds_ofControl {P : Control → Prop} {m m' : Machine σ} (h : m'.control = m.control)
    (hm : (ofControl P).Holds m) : (ofControl P).Holds m' := by
  change P m'.control
  rw [h]
  exact hm

theorem keeps_ofControl {P : Control → Prop} {x : Eval σ β} {Q : β → Prop} (hx : Steady x)
    (hQ : ∀ b, Q b) : (ofControl P).Keeps x Q := fun m hm =>
  (hx m).mono (fun b _ h => ⟨holds_ofControl h hm, hQ b⟩)
    fun e _ h => ⟨holds_ofControl h hm, by cases e <;> trivial⟩

theorem handles_true : ∀ a : Action, a.Handles fun _ => True
  | .done _ | .raise _ => trivial
  | .call _ _ next =>
    ⟨⟨trivial, fun _ _ => trivial⟩, fun vs _ => handles_true (next (.ok vs)),
      fun p _ => handles_true (next (.error p))⟩
  | .newList _ next => ⟨fun _ _ => trivial, fun v _ => handles_true (next v)⟩
  | .display _ next => fun text => handles_true (next text)

theorem lawful_ofControl (P : Control → Prop) (host : Host σ) : (ofControl P).Lawful host where
  none := trivial
  bool _ := trivial
  num _ := trivial
  str _ := trivial
  func _ := Block.obeys_free _
  method _ := ⟨trivial, trivial⟩
  lookup v := keeps_ofControl (.lookup v) fun _ => trivial
  assign _ _ := keeps_ofControl (.assign _ _) fun _ => trivial
  bind _ _ := keeps_ofControl (.bindVariable _ _) fun _ => trivial
  newFunction _ _ := keeps_ofControl (.newFunction _) fun _ => trivial
  newDoc _ _ := keeps_ofControl (.newDoc _) fun _ => trivial
  newList _ := keeps_ofControl (.newList _) fun _ => trivial
  index _ _ := keeps_ofControl (.index _ _ _) fun _ => trivial
  arrow _ _ := keeps_ofControl (.arrow _ _ _) fun _ => trivial
  setIndex _ _ _ := keeps_ofControl (.setIndex _ _ _ _) fun _ => trivial
  pairs _ := keeps_ofControl (.pairs _) fun _ _ _ => ⟨trivial, trivial⟩
  println _ := keeps_ofControl (.println _) fun _ => trivial
  len _ := keeps_ofControl (.len _) fun _ => trivial
  push _ := keeps_ofControl (.push _) fun _ => trivial
  native _ _ := handles_true _

/-- A property that holds one call deeper too is kept by calls. -/
theorem portable_ofControl {P : Control → Prop}
    (h : ∀ c i, P c → c.depth < c.maxDepth → P { c with env := i, depth := c.depth + 1 }) :
    (ofControl P : Discipline σ).Portable where
  enter hm hd _ := h _ _ hm hd
  leave hm _ hc := holds_ofControl (control_leave hc) hm

end Discipline

end DocScript
