import DocScript.Host.Thermometer
import DocScript.Proofs.Run.Control

/-!
# Expressions without calls

An expression can read everything that is on a machine, but only a call can change it. What else an expression does
is to make docs, functions and methods, which get new numbers : lists and dicts are filled before they are put on
the heap, and an arrow makes a method of what it finds. `Machine.Allocates m m'` says that `m'` is `m` with such
new objects, and it is a preorder, so it carries over from the single operations to expressions
(`Calls.eval_allocating`).

The bodies of lambdas do not run when the lambda is evaluated, so calls may stand there.
-/

namespace DocScript

variable {α σ β γ : Type}

mutual

/-- No call stands in the expression, other than in the bodies of its lambdas. -/
def Expr.callFree : Expr α → Bool
  | .none _ | .bool _ _ | .number _ _ | .str _ _ | .var _ _ | .lambda _ _ => true
  | .call _ _ _ => false
  | .binary _ _ l r => l.callFree && r.callFree
  | .unary _ _ e => e.callFree
  | .index _ o k | .arrow _ o k => o.callFree && k.callFree
  | .protoDict _ p es => p.callFree && entriesCallFree es
  | .list _ is => exprsCallFree is
  | .dict _ es => entriesCallFree es

def exprsCallFree : List (Expr α) → Bool
  | [] => true
  | e :: es => e.callFree && exprsCallFree es

def entriesCallFree : List (Expr α × Expr α) → Bool
  | [] => true
  | (k, v) :: es => k.callFree && v.callFree && entriesCallFree es

end

/-! ## New objects -/

/-- The machine `m'` is `m` with new docs, and with numbers given to new functions and methods. -/
structure Machine.Allocates (m m' : Machine σ) : Prop where
  frames : m'.heap.frames = m.heap.frames
  docs : ∀ id d, m.doc? id = some d → m'.doc? id = some d
  boxes : m'.heap.boxes = m.heap.boxes
  nextId : m.heap.nextId ≤ m'.heap.nextId
  globals : m'.globals = m.globals
  output : m'.output = m.output
  control : m'.control = m.control

namespace Machine

variable {m m' m'' : Machine σ}

theorem Allocates.refl (m : Machine σ) : m.Allocates m := ⟨rfl, fun _ _ => id, rfl, Nat.le_refl _, rfl, rfl, rfl⟩

theorem Allocates.trans (h : m.Allocates m') (h' : m'.Allocates m'') : m.Allocates m'' where
  frames := h'.frames.trans h.frames
  docs id d hd := h'.docs id d (h.docs id d hd)
  boxes := h'.boxes.trans h.boxes
  nextId := Nat.le_trans h.nextId h'.nextId
  globals := h'.globals.trans h.globals
  output := h'.output.trans h.output
  control := h'.control.trans h.control

/-- A doc at the end of the heap. -/
theorem allocates_push (m : Machine σ) (d : Doc) :
    m.Allocates { m with heap := { m.heap with docs := m.heap.docs.push d } } where
  docs id d' hd' := by
    have hlt : id < m.heap.docs.size := (Array.getElem?_eq_some_iff.1 hd').1
    rw [doc?, Array.getElem?_push, if_neg (Nat.ne_of_lt hlt)]
    exact hd'
  frames := rfl
  boxes := rfl
  nextId := Nat.le_refl _
  globals := rfl
  output := rfl
  control := rfl

/-- The next number is given away. -/
theorem allocates_number (m : Machine σ) :
    m.Allocates { m with heap := { m.heap with nextId := m.heap.nextId + 1 } } :=
  { Allocates.refl m with nextId := Nat.le_succ _ }

end Machine

/-! ## Operations -/

/-- Whatever comes of `x`, it only makes new objects, and it fails only for one of the troubles of a machine. -/
def Allocating (x : Eval σ β) : Prop :=
  ∀ m : Machine σ, After x m (fun _ m' => m.Allocates m')
    fun f m' => m.Allocates m' ∧ ∃ t : Trouble, f = .raised t.payload

namespace Allocating

theorem pure (b : β) : Allocating (Pure.pure b : Eval σ β) := fun m => .refl m

theorem fail (t : Trouble) : Allocating (Eval.fail t : Eval σ β) := fun m => ⟨.refl m, t, rfl⟩

theorem ofExcept (r : Except Trouble β) : Allocating (Eval.ofExcept r : Eval σ β) := by
  cases r with
  | ok b => exact pure b
  | error t => exact fail t

theorem bind {x : Eval σ γ} {f : γ → Eval σ β} (hx : Allocating x) (hf : ∀ c, Allocating (f c)) :
    Allocating (x >>= f) := by
  intro m
  rw [after_bind]
  refine (hx m).mono (fun c m₁ h₁ => ?_) fun _ _ h => h
  -- what is made behind `x` comes on top of what `x` made
  exact (hf c m₁).mono (fun _ _ h₂ => h₁.trans h₂) fun _ _ h₂ => ⟨h₁.trans h₂.1, h₂.2⟩

theorem lookup (v : Variable) : Allocating (Machine.lookup v : Eval σ Value) := by
  intro m
  unfold After Machine.lookup
  cases m.lookup? v with
  | some value => exact .refl m
  | none => exact fail (β := Value) _ m

theorem newDoc (d : Doc) : Allocating (Machine.newDoc d : Eval σ Value) := fun m => m.allocates_push d

theorem newList (items : List Value) : Allocating (Machine.newList items : Eval σ Value) := fun m =>
  m.allocates_push _

theorem newFunction (f : Function Unit) : Allocating (Machine.newFunction f : Eval σ Value) := fun m =>
  m.allocates_number

theorem newMethod (receiver callable : Value) : Allocating (Machine.newMethod receiver callable : Eval σ Value) :=
  fun m => m.allocates_number

variable (host : Host σ)

theorem index (object key : Value) : Allocating (Machine.index host object key) := by
  intro m
  cases object with
  | doc _ | box _ _ | str _ => exact .refl m
  | _ => exact fail (β := Value) _ m

theorem prototype (object : Value) : Allocating (Machine.prototype host object) := by
  intro m
  cases object with
  | doc _ | box _ _ => exact .refl m
  | _ => exact fail (β := Option Value) _ m

theorem arrow (object key : Value) : Allocating (Machine.arrow host object key) := by
  refine (prototype host object).bind fun proto => ?_
  cases proto with
  | none => exact pure _
  | some proto =>
    refine (index host proto key).bind fun found => ?_
    split
    · exact newMethod _ _
    · exact pure _

end Allocating

/-! ## Expressions -/

namespace Calls

variable (k : Calls σ)

mutual

theorem eval_allocating : ∀ e : Expr Unit, e.callFree = true → Allocating (k.eval e)
  | .none _, _ => .pure _
  | .bool _ _, _ => .pure _
  | .number _ _, _ => .pure _
  | .str _ _, _ => .pure _
  | .var _ v, _ => .lookup v
  | .binary _ op l r, h => by
    obtain ⟨hl, hr⟩ := Bool.and_eq_true_iff.1 h
    rw [eval]
    refine (eval_allocating l hl).bind fun a => ?_
    split
    · exact .pure a
    · exact (eval_allocating r hr).bind fun b => .ofExcept _
  | .unary _ op e, h => by
    rw [eval]
    exact (eval_allocating e h).bind fun a => .ofExcept _
  | .call _ _ _, h => absurd h (by simp [Expr.callFree])
  | .index _ o i, h => by
    obtain ⟨ho, hi⟩ := Bool.and_eq_true_iff.1 h
    rw [eval]
    exact (eval_allocating o ho).bind fun object => (eval_allocating i hi).bind fun key => .index k.host object key
  | .arrow _ o i, h => by
    obtain ⟨ho, hi⟩ := Bool.and_eq_true_iff.1 h
    rw [eval]
    exact (eval_allocating o ho).bind fun object => (eval_allocating i hi).bind fun key => .arrow k.host object key
  | .protoDict _ p es, h => by
    obtain ⟨hp, hes⟩ := Bool.and_eq_true_iff.1 h
    rw [eval]
    refine (eval_allocating p hp).bind fun proto => ?_
    have hmade := (evalEntries_allocating es hes).bind fun kvs => .newDoc ((Doc.withProto proto).insertMany kvs)
    split
    · exact hmade
    · exact hmade
    · exact .fail _
  | .list _ is, h => by
    rw [eval]
    exact (evalEach_allocating is h).bind fun vs => .newList vs
  | .dict _ es, h => by
    rw [eval]
    exact (evalEntries_allocating es h).bind fun kvs => .newDoc _
  | .lambda _ f, _ => .newFunction f

theorem evalEach_allocating : ∀ es : List (Expr Unit), exprsCallFree es = true → Allocating (k.evalEach es)
  | [], _ => .pure _
  | e :: es, h => by
    obtain ⟨he, hes⟩ := Bool.and_eq_true_iff.1 h
    rw [evalEach]
    exact (eval_allocating e he).bind fun v => (evalEach_allocating es hes).bind fun vs => .pure _

theorem evalEntries_allocating : ∀ es : List (Expr Unit × Expr Unit), entriesCallFree es = true →
    Allocating (k.evalEntries es)
  | [], _ => .pure _
  | (ek, ev) :: es, h => by
    obtain ⟨hkv, hes⟩ := Bool.and_eq_true_iff.1 h
    obtain ⟨hk, hv⟩ := Bool.and_eq_true_iff.1 hkv
    rw [evalEntries]
    refine (eval_allocating ek hk).bind fun key => ?_
    exact (eval_allocating ev hv).bind fun value => (evalEntries_allocating es hes).bind fun kvs => .pure _

end

end Calls

/-- On every machine, and whatever calls would do, an expression without calls has a value, or it raises the
message of one of the troubles of a machine. Either way the machine behind it is the one before with new objects :
the bindings of all frames, the globals, all docs with their entries and prototypes, the boxes, the output and the
control state are as they were. -/
theorem callFree_readOnly (k : Calls σ) {e : Expr Unit} (h : e.callFree = true) (m : Machine σ) :
    (∃ v m', k.eval e m = .ok v m' ∧ m.Allocates m') ∨
      ∃ (t : Trouble) (m' : Machine σ), k.eval e m = .error (.raised (.str t.message)) m' ∧ m.Allocates m' := by
  have hafter := k.eval_allocating e h m
  unfold After at hafter
  cases heval : k.eval e m with
  | ok v m' =>
    rw [heval] at hafter
    exact .inl ⟨v, m', rfl, hafter⟩
  | error f m' =>
    rw [heval] at hafter
    obtain ⟨hm', t, rfl⟩ := hafter
    exact .inr ⟨t, m', rfl, hm'⟩

/-- A list with a function in it is made, and a method of the list, before the sum of the method and a string is
refused. -/
theorem callFree_readOnly_refused :
    let f : Function Unit := ⟨"", [], ⟨(), [.ret () [.call () (.var () ⟨"f", .dynamic⟩) []]]⟩⟩
    let e : Expr Unit := .binary () .add (.arrow () (.list () [.lambda () f]) (.str () "len")) (.str () "x")
    let m : Machine Thermometer := .build .empty .default
    e.callFree = true ∧
      ∃ m', (Calls.within Thermometer.host 1).eval e m =
          .error (.raised (.str "operands must be numbers or strings")) m' ∧
        m.Allocates m' ∧ m'.heap.docs.size = m.heap.docs.size + 1 ∧ m'.heap.nextId = m.heap.nextId + 2 := by
  intro f e m
  have hfree : e.callFree = true := rfl
  obtain ⟨m', hrun, hdocs, hnumbers⟩ : ∃ m', (Calls.within Thermometer.host 1).eval e m =
      .error (.raised (.str "operands must be numbers or strings")) m' ∧
        m'.heap.docs.size = m.heap.docs.size + 1 ∧ m'.heap.nextId = m.heap.nextId + 2 := ⟨_, rfl, rfl, rfl⟩
  refine ⟨hfree, m', hrun, ?_, hdocs, hnumbers⟩
  rcases callFree_readOnly (.within Thermometer.host 1) hfree m with ⟨v, m₁, heval, -⟩ | ⟨t, m₁, heval, hm₁⟩
  · cases hrun.symm.trans heval
  · obtain ⟨-, rfl⟩ := EStateM.Result.error.inj (hrun.symm.trans heval)
    exact hm₁

end DocScript
