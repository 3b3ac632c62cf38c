import DocScript.Host.Thermometer
import DocScript.Proofs.Run.Control

/-!
# Calls do not look at their caller

The body of a function runs in a new frame, inside the one that the function was made in, and natives
have no frame of their own. So nothing in a call depends on the frame that the code of the caller runs
in : from another frame, the call does the same, and comes back to that frame (`Blind`). Each operation
of a call is blind in this sense, and sequences of blind operations are.
-/

namespace DocScript

variable {σ β γ ε : Type}

/-- The machines differ at most in the frame that their code runs in. -/
structure Machine.Alike (m m' : Machine σ) : Prop where
  heap : m'.heap = m.heap
  globals : m'.globals = m.globals
  output : m'.output = m.output
  depth : m'.depth = m.depth
  root : m'.root = m.root
  arrayProto : m'.arrayProto = m.arrayProto
  maxDepth : m'.maxDepth = m.maxDepth

namespace Machine

theorem alike_inFrame (m : Machine σ) (i j : FrameId) : (m.inFrame i).Alike (m.inFrame j) :=
  ⟨rfl, rfl, rfl, rfl, rfl, rfl, rfl⟩

theorem Alike.eq_inFrame {m m' : Machine σ} (h : m.Alike m') : m' = m.inFrame m'.env := by
  obtain ⟨hh, hg, ho, hd, hr, ha, hm⟩ := h
  cases m'
  cases hh
  cases hg
  cases ho
  cases hd
  cases hr
  cases ha
  cases hm
  rfl

end Machine

/-- The same outcome, with the machine behind it in the frame `i`. -/
def moved (i : FrameId) : EStateM.Result ε (Machine σ) β → EStateM.Result ε (Machine σ) β
  | .ok b m => .ok b (m.inFrame i)
  | .error e m => .error e (m.inFrame i)

/-- From another frame, `x` does the same, and comes back to that frame. -/
def Blind (x : EStateM ε (Machine σ) β) : Prop := ∀ m i, x (m.inFrame i) = moved i (x m)

/-! ## Operations of calls -/

/-- How a value is displayed does not depend on where code runs. -/
theorem Machine.render_inFrame (m : Machine σ) (i : FrameId) : ∀ (n : Nat) (opened : List DocId) (v : Value),
    (m.inFrame i).render n opened v = m.render n opened v
  | 0, _, v => by cases v <;> rfl
  | n + 1, opened, v => by
    cases v with
    | doc id =>
      have inner : (m.inFrame i).render n (id :: opened) = m.render n (id :: opened) :=
        funext fun w => render_inFrame m i n (id :: opened) w
      rw [render, render, inner]
      rfl
    | _ => rfl

theorem Machine.display_inFrame (m : Machine σ) (i : FrameId) (v : Value) :
    (m.inFrame i).display v = m.display v := by
  cases v with
  | str s => rfl
  | _ => exact m.render_inFrame i _ _ _

namespace Blind

theorem pure (b : β) : Blind (Pure.pure b : EStateM ε (Machine σ) β) := fun _ _ => rfl

theorem bind {x : EStateM ε (Machine σ) γ} {f : γ → EStateM ε (Machine σ) β} (hx : Blind x)
    (hf : ∀ c, Blind (f c)) : Blind (x >>= f) := by
  intro m i
  simp only [Bind.bind, EStateM.bind, hx m i]
  cases x m with
  | ok c m' => exact hf c m' i
  | error e m' => rfl

theorem newList (items : List Value) : Blind (Machine.newList items : Eval σ Value) := fun _ _ => rfl

theorem println (args : List Value) : Blind (Calls.println args : Eval σ Value) := by
  intro m i
  have shown : (m.inFrame i).display = m.display := funext (m.display_inFrame i)
  unfold Calls.println
  rw [shown]
  rfl

theorem len (args : List Value) : Blind (Calls.len args : Eval σ Value) := by
  intro m i
  rcases args with _ | ⟨v, args⟩
  · rfl
  · cases v <;> rfl

theorem push (args : List Value) : Blind (Calls.push args : Eval σ Value) := by
  intro m i
  rcases args with _ | ⟨v, args⟩
  · rfl
  · cases v <;> rfl

/-- The body of a function starts on the same machine from wherever the function is called. -/
theorem callFunction (k : Calls σ) (f : Closure) (args : List Value) : Blind (k.callFunction f args) := by
  intro m i
  have entered : Calls.enter f args (m.inFrame i) = Calls.enter f args m := rfl
  have depth : (m.inFrame i).maxDepth ≤ (m.inFrame i).depth ↔ m.maxDepth ≤ m.depth := Iff.rfl
  unfold Calls.callFunction
  simp only [entered, depth]
  split
  · rfl
  · rcases k.execBlock f.body (Calls.enter f args m) with _ | ⟨_ | _ | _ | _, _⟩ <;> rfl

variable {call : Value → List Value → Eval σ (List Value)} (hk : ∀ callee args, Blind (call callee args))

include hk

theorem perform : ∀ a : Action, Blind (Calls.perform call a)
  | .done _ | .raise _ => fun _ _ => rfl
  | .call callee args next => by
    have rest := fun r => perform (next r)
    intro m i
    simp only [Calls.perform, hk callee args m i]
    rcases call callee args m with ⟨vs, m'⟩ | ⟨payload | _, m'⟩
    · exact rest (.ok vs) m' i
    · exact rest (.error payload) m' i
    · rfl
  | .newList items next => (newList items).bind fun v => perform (next v)
  | .display v next => by
    intro m i
    simp only [Calls.perform, m.display_inFrame i v]
    exact perform (next (m.display v)) m i

end Blind

/-! ## Calls -/

theorem Calls.callValue_blind {k : Calls σ} (hk : ∀ callee args, Blind (k.call callee args)) (callee : Value) :
    ∀ args, Blind (k.callValue callee args) := by
  induction callee with
  | func id f => exact fun args => .callFunction k f args
  | native id f =>
    intro args
    refine .bind ?_ fun v => .pure [v]
    cases f with
    | println => exact .println args
    | len => exact .len args
    | push => exact .push args
    | host name => exact .perform hk (k.host.native name args)
  | method id receiver f _ ih => exact fun args => ih (receiver :: args)
  | _ => exact fun _ _ _ => rfl

theorem callWithin_blind (host : Host σ) : ∀ (n : Nat) (callee : Value) (args : List Value),
    Blind (callWithin host n callee args)
  | 0, _, _ => fun _ _ => rfl
  | n + 1, callee, args =>
    Calls.callValue_blind (k := .within host n) (callWithin_blind host n) callee args

theorem callSingle_blind (host : Host σ) (n : Nat) (callee : Value) (args : List Value) :
    Blind (callSingle host n callee args) :=
  (callWithin_blind host n callee args).bind fun _ => .pure _

/-! ## Two runs -/

/-- The outcomes are the same, and the machines behind them differ at most in the frame. -/
def SameOutcome : EStateM.Result ε (Machine σ) β → EStateM.Result ε (Machine σ) β → Prop
  | .ok b m, .ok b' m' => b' = b ∧ m.Alike m'
  | .error e m, .error e' m' => e' = e ∧ m.Alike m'
  | _, _ => False

/-- `x` does the same on both machines, and leaves each in its frame. -/
structure RunsAlike (x : EStateM ε (Machine σ) β) (m m' : Machine σ) : Prop where
  outcome : SameOutcome (x m) (x m')
  frame_left : (stateAfter x m).env = m.env
  frame_right : (stateAfter x m').env = m'.env

theorem Blind.env_stateAfter {x : EStateM ε (Machine σ) β} (hx : Blind x) (m : Machine σ) :
    (stateAfter x m).env = m.env := by
  have home : x m = moved m.env (x m) := hx m m.env
  unfold stateAfter
  rw [home]
  cases x m <;> rfl

theorem Blind.runsAlike {x : EStateM ε (Machine σ) β} (hx : Blind x) {m m' : Machine σ} (h : m.Alike m') :
    RunsAlike x m m' where
  outcome := by
    rw [h.eq_inFrame, hx m m'.env]
    cases x m with
    | ok b m₁ => exact ⟨rfl, m₁.alike_inFrame m₁.env m'.env⟩
    | error e m₁ => exact ⟨rfl, m₁.alike_inFrame m₁.env m'.env⟩
  frame_left := hx.env_stateAfter m
  frame_right := hx.env_stateAfter m'

/-- On machines that differ only in the frame of the caller, a call has the same outcome, leaves machines
that differ only in that frame, and each in the frame that it was in. -/
theorem calls_lexical (host : Host σ) (n : Nat) (callee : Value) (args : List Value) {m m' : Machine σ}
    (h : m.Alike m') :
    RunsAlike (callWithin host n callee args) m m' ∧ RunsAlike (callSingle host n callee args) m m' :=
  ⟨(callWithin_blind host n callee args).runsAlike h, (callSingle_blind host n callee args).runsAlike h⟩

/-- A function that reads a variable is called from the module and from the frame of a function that has
this variable. -/
theorem calls_lexical_closure :
    let text := "def show():\n    return secret\ndef caller():\n    secret = None\n    return show()\n"
    let start := (interpret Thermometer.host 9 text (.build .empty .default)).2
    let show_ := (start.root? "show").getD .none
    let m := stateAfter (callWithin Thermometer.host 9 ((start.root? "caller").getD .none) []) start
    show_.isCallable ∧ (m.heap.frames.getLocal? 1 "secret").isSome ∧
      RunsAlike (callWithin Thermometer.host 9 show_ []) (m.inFrame 0) (m.inFrame 1) := by
  intro text start show_ m
  refine ⟨by decide +kernel, by decide +kernel, ?_⟩
  exact (calls_lexical Thermometer.host 9 show_ [] (m.alike_inFrame 0 1)).1

end DocScript
