import DocScript.Machine.Display

/-!
# Running programs

Expressions and statements run by recursion on the program. Only two things need a bound: calls of
functions and the rounds of `while` loops. Both take it from `Calls`, which also says how a value is
called, and `callWithin` ties the knot: with the bound `n`, a call runs its body with the bound `n - 1`.
What does not come to an end within the bound is out of fuel, which is different from every outcome
a script can have.

A statement either completes or exits: by `break` or `continue`, which loops take, by `return`, which
calls take, or by an exception, which `try` takes.
-/

namespace DocScript

/-- Why a statement did not complete. -/
inductive Exit where
  | break_
  | continue_
  | ret (values : List Value)
  | fault (f : Fault)

/-- Statements on a machine. -/
abbrev Exec (σ : Type) := EStateM Exit (Machine σ)

variable {σ : Type}

namespace Exec

variable {β : Type}

/-- An evaluation as part of a statement. -/
def lift (x : Eval σ β) : Exec σ β := fun m =>
  match x m with
  | .ok b m => .ok b m
  | .error f m => .error (.fault f) m

/-- A round of a loop: whether the loop goes on. -/
def round (body : Exec σ Unit) : Exec σ Bool := fun m =>
  match body m with
  | .ok () m => .ok true m
  | .error .continue_ m => .ok true m
  | .error .break_ m => .ok false m
  | .error e m => .error e m

/-- At most `n` rounds of a `while` loop. -/
def whileLoop (cond : Eval σ Value) (body : Exec σ Unit) : Nat → Exec σ Unit
  | 0 => throw (.fault .outOfFuel)
  | n + 1 => do
    let c ← lift cond
    if c.truthy then
      if ← round body then whileLoop cond body n

/-- A `for` loop over pairs: the first variable takes the first part, the second the second part,
and all others None. -/
def forLoop (vars : List Variable) (body : Exec σ Unit) : List (Value × Value) → Exec σ Unit
  | [] => pure ()
  | (a, b) :: items => do
    lift (Machine.assignEach vars [a, b])
    if ← round body then forLoop vars body items

/-- Runs `handler` on what `body` raises. -/
def handling (body : Exec σ Unit) (handler : Value → Exec σ Unit) : Exec σ Unit := fun m =>
  match body m with
  | .error (.fault (.raised payload)) m => handler payload m
  | r => r

/-- Runs `cleanup` after `body`, whatever came of it; if the cleanup itself exits, that counts. -/
def cleaning (body cleanup : Exec σ Unit) : Exec σ Unit := fun m =>
  match body m with
  | .error (.fault .outOfFuel) m => .error (.fault .outOfFuel) m
  | .ok () m => cleanup m
  | .error e m =>
    match cleanup m with
    | .ok () m => .error e m
    | r => r

end Exec

/-! ## Operators -/

/-- An operator on numbers. -/
def arithmetic (f : Float → Float → Value) : Value → Value → Except Trouble Value
  | .num a, .num b => .ok (f a b)
  | _, _ => .error .notNumbers

/-- The value of a binary operation on two values. -/
def BinaryOp.apply : BinaryOp → Value → Value → Except Trouble Value
  | and, a, b => .ok (if a.truthy then b else a)
  | or, a, b => .ok (if a.truthy then a else b)
  | eq, a, b => .ok (.bool (a.equal b))
  | notEq, a, b => .ok (.bool (!a.equal b))
  | add, .num a, .num b => .ok (.num (a + b))
  | add, .str a, .str b => .ok (.str (a ++ b))
  | add, _, _ => .error .notAddable
  | sub, a, b => arithmetic (fun a b => .num (a - b)) a b
  | mul, a, b => arithmetic (fun a b => .num (a * b)) a b
  | div, a, b => arithmetic (fun a b => .num (a / b)) a b
  | pow, a, b => arithmetic (fun a b => .num (a.pow b)) a b
  | less, a, b => arithmetic (fun a b => .bool (a < b)) a b
  | lessEq, a, b => arithmetic (fun a b => .bool (a ≤ b)) a b
  | greater, a, b => arithmetic (fun a b => .bool (b < a)) a b
  | greaterEq, a, b => arithmetic (fun a b => .bool (b ≤ a)) a b

/-- Whether the first operand alone settles the operation. -/
def BinaryOp.settles : BinaryOp → Value → Bool
  | and, a => !a.truthy
  | or, a => a.truthy
  | _, _ => false

/-- The value of a unary operation. -/
def UnaryOp.apply : UnaryOp → Value → Except Trouble Value
  | not, a => .ok (.bool (!a.truthy))
  | neg, .num a => .ok (.num (-a))
  | plus, .num a => .ok (.num a)
  | _, _ => .error .notNumber

/-! ## Expressions and statements -/

/-- What running a program needs besides the machine. -/
structure Calls (σ : Type) where
  host : Host σ
  /-- Calls a value. -/
  call : (callee : Value) → (args : List Value) → Eval σ (List Value)
  /-- The bound on the rounds of a loop. -/
  rounds : Nat

namespace Calls

open Machine

/-- Passes a function through its decorators, the last one first. -/
def decorate (k : Calls σ) (f : Value) : List Value → Eval σ Value
  | [] => pure f
  | d :: ds => do
    let v ← k.decorate f ds
    if d.isCallable then
      let vs ← k.call d [v]
      return Value.first vs
    else Eval.fail .notDecorator

mutual

/-- The value of an expression. -/
def eval (k : Calls σ) : Expr Unit → Eval σ Value
  | .none _ => pure .none
  | .bool _ b => pure (.bool b)
  | .number _ n => pure (.num n)
  | .str _ s => pure (.str s)
  | .var _ v => lookup v
  | .binary _ op l r => do
    let a ← k.eval l
    if op.settles a then return a
    let b ← k.eval r
    Eval.ofExcept (op.apply a b)
  | .unary _ op e => do
    let a ← k.eval e
    Eval.ofExcept (op.apply a)
  | .call _ c as => do
    let f ← k.eval c
    let args ← k.evalSpread as
    let vs ← k.call f args
    return Value.first vs
  | .index _ o i => do
    let object ← k.eval o
    let key ← k.eval i
    index k.host object key
  | .arrow _ o i => do
    let object ← k.eval o
    let key ← k.eval i
    arrow k.host object key
  | .protoDict _ p es => do
    let proto ← k.eval p
    match proto with
    | .doc _ | .box _ _ =>
      let kvs ← k.evalEntries es
      newDoc ((Doc.withProto proto).insertMany kvs)
    | _ => Eval.fail .notPrototype
  | .list _ is => do
    let vs ← k.evalEach is
    newList vs
  | .dict _ es => do
    let kvs ← k.evalEntries es
    newDoc (Doc.empty.insertMany kvs)
  | .lambda _ f => newFunction f

/-- The values of several expressions, one for each. -/
def evalEach (k : Calls σ) : List (Expr Unit) → Eval σ (List Value)
  | [] => pure []
  | e :: es => do
    let v ← k.eval e
    let vs ← k.evalEach es
    return v :: vs

/-- The values of several expressions; a call at the end gives all that it returns. -/
def evalSpread (k : Calls σ) : List (Expr Unit) → Eval σ (List Value)
  | [] => pure []
  | [.call _ c as] => do
    let f ← k.eval c
    let args ← k.evalSpread as
    k.call f args
  | e :: es => do
    let v ← k.eval e
    let vs ← k.evalSpread es
    return v :: vs

/-- The keys and values of the entries of a dict. -/
def evalEntries (k : Calls σ) : List (Expr Unit × Expr Unit) → Eval σ (List (Value × Value))
  | [] => pure []
  | (ek, ev) :: es => do
    let key ← k.eval ek
    let value ← k.eval ev
    let kvs ← k.evalEntries es
    return (key, value) :: kvs

end

/-- Only what stands at the end is spread. -/
theorem evalSpread_cons (k : Calls σ) (e e' : Expr Unit) (es : List (Expr Unit)) :
    k.evalSpread (e :: e' :: es) = do
      let v ← k.eval e
      let vs ← k.evalSpread (e' :: es)
      return v :: vs := by
  rw [evalSpread]
  simp

/-- Writes values to targets from left to right, None to those beyond the end of `values`. -/
def assignTargets (k : Calls σ) : List (Expr Unit) → List Value → Eval σ Unit
  | [], _ => pure ()
  | t :: ts, values => do
    match t with
    | .var _ v => assign v (Value.first values)
    | .index _ o i =>
      let object ← k.eval o
      let key ← k.eval i
      setIndex k.host object key (Value.first values)
    | _ => Eval.fail .invalidTarget
    k.assignTargets ts values.tail

/-- The function of a definition, passed through its decorators. -/
def evalDefinition (k : Calls σ) (decorators : List (Expr Unit)) (f : Function Unit) :
    Eval σ Value := do
  let ds ← k.evalEach decorators
  let v ← newFunction f
  k.decorate v ds

mutual

def exec (k : Calls σ) : Stmt Unit → Exec σ Unit
  | .expr _ e => do
    let _ ← Exec.lift (k.eval e)
  | .assign _ ts es => do
    let vs ← Exec.lift (k.evalSpread es)
    Exec.lift (k.assignTargets ts vs)
  | .define _ ds v f => do
    let value ← Exec.lift (k.evalDefinition ds f)
    Exec.lift (bind v value)
  | .ifElse _ c y n => do
    let v ← Exec.lift (k.eval c)
    if v.truthy then k.execBlock y else k.execBlock n
  | .whileLoop _ c b => Exec.whileLoop (k.eval c) (k.execBlock b) k.rounds
  | .forLoop _ vs e b => do
    let iterable ← Exec.lift (k.eval e)
    let items ← Exec.lift (pairs iterable)
    Exec.forLoop vs (k.execBlock b) items
  | .attempt _ b h c => k.execCleanup (k.execHandler (k.execBlock b) h) c
  | .raise _ e => do
    let payload ← Exec.lift (k.eval e)
    Exec.lift (Eval.raise payload)
  | .ret _ es => do
    let vs ← Exec.lift (k.evalSpread es)
    throw (.ret vs)
  | .break_ _ => throw .break_
  | .continue_ _ => throw .continue_
  | .declare _ _ _ => pure ()
  | .bad _ _ => pure ()

def execStmts (k : Calls σ) : List (Stmt Unit) → Exec σ Unit
  | [] => pure ()
  | s :: ss => do
    k.exec s
    k.execStmts ss

def execBlock (k : Calls σ) : Block Unit → Exec σ Unit
  | ⟨_, ss⟩ => k.execStmts ss

/-- Runs `body` under a handler, if there is one. -/
def execHandler (k : Calls σ) (body : Exec σ Unit) : Option (Handler Unit) → Exec σ Unit
  | none => body
  | some ⟨none, b⟩ => Exec.handling body fun _ => k.execBlock b
  | some ⟨some v, b⟩ => Exec.handling body fun payload => do
    Exec.lift (bind v payload)
    k.execBlock b

/-- Runs `body` with a cleanup behind it, if there is one. -/
def execCleanup (k : Calls σ) (body : Exec σ Unit) : Option (Block Unit) → Exec σ Unit
  | none => body
  | some b => Exec.cleaning body (k.execBlock b)

end

/-! ## Calls -/

/-- Binds the parameters in the frame `i`, to None beyond the end of `args`. -/
def bindParams (fs : Frames) (i : FrameId) : List String → List Value → Frames
  | [], _ => fs
  | p :: ps, args => bindParams (fs.define i p (Value.first args)) i ps args.tail

/-- The machine at the start of a function body: in a new frame inside the one that the function was
made in, one call deeper. -/
def enter (f : Closure) (args : List Value) (m : Machine σ) : Machine σ :=
  let i := m.heap.frames.size
  let m := m.withFrames fun fs => bindParams (fs.push (some f.env)) i f.params args
  { m with env := i, depth := m.depth + 1 }

/-- Runs the body of a function. It returns None if it runs to its end. -/
def callFunction (k : Calls σ) (f : Closure) (args : List Value) : Eval σ (List Value) := fun m =>
  if m.maxDepth ≤ m.depth then Eval.fail .callDepth m
  else
    let caller := m.env
    let leave (m : Machine σ) : Machine σ := { m with env := caller, depth := m.depth - 1 }
    match k.execBlock f.body (enter f args m) with
    | .error (.fault e) m => .error e (leave m)
    | .error (.ret values) m => .ok values (leave m)
    | .ok () m | .error _ m => .ok [.none] (leave m)

/-- Does what a host native does. -/
def perform (call : Value → List Value → Eval σ (List Value)) : Action → Eval σ Value
  | .done v => pure v
  | .raise payload => Eval.raise payload
  | .call callee args next => fun m =>
    match call callee args m with
    | .ok vs m => perform call (next (.ok vs)) m
    | .error (.raised payload) m => perform call (next (.error payload)) m
    | .error .outOfFuel m => .error .outOfFuel m
  | .newList items next => do
    let v ← newList items
    perform call (next v)
  | .display v next => fun m => perform call (next (m.display v)) m

/-- Prints the displays of values with blanks between them. -/
def println (args : List Value) : Eval σ Value := fun m =>
  let line := String.intercalate " " (args.map m.display)
  .ok .none { m with output := m.output.println line }

/-- The number of entries or characters of the first argument. -/
def len : List Value → Eval σ Value
  | .doc id :: _ => fun m => .ok (.num (Number.ofNat ((m.doc? id).map Doc.size |>.getD 0))) m
  | .str s :: _ => pure (.num (Number.ofNat s.length))
  | _ => Eval.fail .lenOfOther

/-- Puts the second argument under the next index of the first. -/
def push : List Value → Eval σ Value
  | .doc id :: args => do
    modifyDoc id (·.push (Value.first args))
    return .none
  | _ => Eval.fail .pushToOther

def callNative (k : Calls σ) : Native → List Value → Eval σ Value
  | .println, args => println args
  | .len, args => len args
  | .push, args => push args
  | .host name, args => perform k.call (k.host.native name args)

/-- Calls a value; a method passes its receiver in front of the other arguments. -/
def callValue (k : Calls σ) : Value → List Value → Eval σ (List Value)
  | .func _ f, args => k.callFunction f args
  | .native _ f, args => do
    let v ← k.callNative f args
    return [v]
  | .method _ r f, args => k.callValue f (r :: args)
  | _, _ => Eval.fail .notCallable

end Calls

/-- Calls a value, with at most `n` calls inside each other and `n` rounds in each loop. -/
def callWithin (host : Host σ) :
    (n : Nat) → (callee : Value) → (args : List Value) → Eval σ (List Value)
  | 0, _, _ => throw .outOfFuel
  | n + 1, callee, args => Calls.callValue ⟨host, callWithin host n, n⟩ callee args

/-- How a program runs with the bound `n`. -/
def Calls.within (host : Host σ) (n : Nat) : Calls σ := ⟨host, callWithin host n, n⟩

end DocScript
