import DocScript.Doc
import DocScript.Env
import DocScript.Host
import DocScript.Number
import DocScript.Text.Inspected
import DocScript.Text.Quoted

/-!
# Machines

The state in which scripts run: a heap of frames, docs and boxes, the globals, the output so far, and
the control state, which says in which frame the current code runs and how many calls of script
functions are active. Several machines can be built on one heap.
-/

namespace DocScript

/-- Everything that is referred to by number. -/
structure Heap (σ : Type) where
  frames : Frames
  docs : Array Doc
  boxes : Array σ
  /-- The number of the next function, native or method. -/
  nextId : Nat

def Heap.empty {σ : Type} : Heap σ := ⟨.empty, #[], #[], 0⟩

/-- What was printed. -/
structure Output where
  /-- Whether the text is kept for the host to read. -/
  captured : Bool
  text : String

namespace Output

/-- What the host can read back. -/
def read (o : Output) : String := if o.captured then o.text else ""

def println (o : Output) (line : String) : Output := { o with text := o.text ++ line ++ "\n" }

end Output

structure Machine (σ : Type) where
  heap : Heap σ
  globals : Bindings
  output : Output
  /-- The frame of the code that runs. -/
  env : FrameId
  /-- How many calls of script functions are active. -/
  depth : Nat
  /-- The frame of the module. -/
  root : FrameId
  /-- The prototype of all lists of this machine. -/
  arrayProto : DocId
  maxDepth : Nat

/-! ## Troubles -/

/-- What a machine itself raises. -/
inductive Trouble where
  | undefinedVariable (name : String)
  | notCallable
  | callDepth
  | notPrototype
  | notAddable
  | notNumbers
  | notNumber
  | notIndexable
  | notAssignable
  | noPrototype
  | invalidTarget
  | notDecorator
  | notIterable
  | lenOfOther
  | pushToOther
  deriving DecidableEq, Repr

def Trouble.message : Trouble → String
  | undefinedVariable name => s!"undefined variable '{name}'"
  | notCallable => "can only call functions"
  | callDepth => "maximum call depth exceeded"
  | notPrototype => "prototype must be a doc"
  | notAddable => "operands must be numbers or strings"
  | notNumbers => "operands must be numbers"
  | notNumber => "operand must be a number"
  | notIndexable => "value is not indexable"
  | notAssignable => "value does not support item assignment"
  | noPrototype => "value has no prototype"
  | invalidTarget => "invalid assignment target"
  | notDecorator => "decorator must be callable"
  | notIterable => "value is not iterable"
  | lenOfOther => "len expects a doc or a string"
  | pushToOther => "push expects a doc"

/-- The payload that scripts see. -/
def Trouble.payload (t : Trouble) : Value := .str t.message

/-- Why an evaluation gave no value. -/
inductive Fault where
  /-- An exception with its payload. -/
  | raised (payload : Value)
  /-- The bound on calls and rounds of loops was reached. -/
  | outOfFuel

/-- Evaluations on a machine. -/
abbrev Eval (σ : Type) := EStateM Fault (Machine σ)

namespace Eval

variable {σ β : Type}

def raise (payload : Value) : Eval σ β := throw (.raised payload)

def fail (t : Trouble) : Eval σ β := raise t.payload

/-- A result that was computed without the machine. -/
def ofExcept : Except Trouble β → Eval σ β
  | .ok b => pure b
  | .error t => fail t

end Eval

variable {σ : Type}

/-! ## Allocation -/

namespace Machine

/-- A new number for a function, native or method. -/
def fresh : Eval σ Nat := fun m =>
  .ok m.heap.nextId { m with heap := { m.heap with nextId := m.heap.nextId + 1 } }

/-- A new doc. -/
def newDoc (d : Doc) : Eval σ Value := fun m =>
  .ok (.doc m.heap.docs.size) { m with heap := { m.heap with docs := m.heap.docs.push d } }

/-- A new frame inside `parent`. -/
def newFrame (parent : Option FrameId) : Eval σ FrameId := fun m =>
  .ok m.heap.frames.size { m with heap := { m.heap with frames := m.heap.frames.push parent } }

/-- A new box. -/
def newBox (state : σ) (typeName : String) : Eval σ Value := fun m =>
  .ok (.box m.heap.boxes.size typeName)
    { m with heap := { m.heap with boxes := m.heap.boxes.push state } }

def newNative (f : Native) : Eval σ Value := do return .native (← fresh) f

/-- A function made in the current frame. -/
def newFunction (f : Function Unit) : Eval σ Value := do
  let env := (← get).env
  return .func (← fresh) ⟨f.name, f.params, f.body, env⟩

def newMethod (receiver callable : Value) : Eval σ Value := do
  return .method (← fresh) receiver callable

/-- The entries of a list: each item under its index. -/
def indexed (items : List Value) : List (Value × Value) :=
  items.zipIdx.map fun (v, i) => (.num (Number.ofNat i), v)

/-- A list with the given prototype. -/
def arrayDoc (proto : DocId) (items : List Value) : Doc :=
  (Doc.withProto (.doc proto)).insertMany (indexed items)

/-- A new list. -/
def newList (items : List Value) : Eval σ Value := fun m => newDoc (arrayDoc m.arrayProto items) m

/-! ## Variables -/

/-- The value of a variable, if it has one. -/
def lookup? (m : Machine σ) (v : Variable) : Option Value :=
  match v.scope with
  | .dynamic =>
    match m.heap.frames.get? m.env v.name with
    | some value => some value
    | none => m.globals.get? v.name
  | .local_ => m.heap.frames.getLocal? m.env v.name
  | .nonlocal => m.heap.frames.getOuter? m.env v.name
  | .global_ => m.globals.get? v.name

/-- The machine with other frames. -/
@[inline]
def withFrames (m : Machine σ) (f : Frames → Frames) : Machine σ :=
  { m with heap := { m.heap with frames := f m.heap.frames } }

def lookup (v : Variable) : Eval σ Value := fun m =>
  match m.lookup? v with
  | some value => .ok value m
  | none => Eval.fail (.undefinedVariable v.name) m

/-- Binds a name in the current frame. -/
def defineLocal (name : String) (value : Value) : Eval σ Unit := fun m =>
  .ok () (m.withFrames fun fs => fs.define m.env name value)

/-- Assigns to a variable. -/
def assign (v : Variable) (value : Value) : Eval σ Unit := fun m =>
  match v.scope with
  | .dynamic => .ok () (m.withFrames fun fs => fs.set m.env v.name value)
  | .local_ => defineLocal v.name value m
  | .nonlocal =>
    match m.heap.frames.assignOuter? m.env v.name value with
    | some fs => .ok () (m.withFrames fun _ => fs)
    | none => Eval.fail (.undefinedVariable v.name) m
  | .global_ => .ok () { m with globals := m.globals.set v.name value }

/-- Binds a variable in the current frame, unless a declaration says otherwise. -/
def bind (v : Variable) (value : Value) : Eval σ Unit :=
  match v.scope with
  | .dynamic => defineLocal v.name value
  | _ => assign v value

/-- Assigns to each variable, None to those beyond the end of `values`. -/
def assignEach : List Variable → List Value → Eval σ Unit
  | [], _ => pure ()
  | v :: vs, values => do
    assign v (Value.first values)
    assignEach vs values.tail

/-! ## Docs, boxes and strings -/

def doc? (m : Machine σ) (id : DocId) : Option Doc := m.heap.docs[id]?

/-- Whether a doc is a list of this machine. -/
def isArray (m : Machine σ) (d : Doc) : Bool :=
  match d.proto with
  | some (.doc id) => id == m.arrayProto
  | _ => false

/-- The position that a number gives in a string, if it is one. -/
def position? (n : Float) : Option Nat :=
  match Parts.ofFloat n with
  | .finite negative mantissa exponent =>
    if negative && mantissa != 0 then none else Number.whole? mantissa exponent
  | _ => none

/-- The character at a position, as a string. -/
def charAt (s : String) (key : Value) : Value :=
  match key.num?.bind position? with
  | some i =>
    match s.toList[i]? with
    | some c => .str c.toString
    | none => .none
  | none => .none

/-- `object[key]`, None if there is no such entry. -/
def index (host : Host σ) (object key : Value) : Eval σ Value := fun m =>
  match object with
  | .doc id => .ok (((m.doc? id).bind (·.get? key)).getD .none) m
  | .box id _ => .ok ((m.heap.boxes[id]?.map (host.index · key)).getD .none) m
  | .str s => .ok (charAt s key) m
  | _ => Eval.fail .notIndexable m

/-- Changes a doc. -/
def modifyDoc (id : DocId) (f : Doc → Doc) : Eval σ Unit := fun m =>
  .ok () { m with heap := { m.heap with docs := m.heap.docs.modify id f } }

/-- `object[key] = value` -/
def setIndex (host : Host σ) (object key value : Value) : Eval σ Unit := fun m =>
  match object with
  | .doc id => modifyDoc id (·.insert key value) m
  | .box id _ =>
    match m.heap.boxes[id]?.map (host.setIndex · key value) with
    | some (.ok state) =>
      .ok () { m with heap := { m.heap with boxes := m.heap.boxes.setIfInBounds id state } }
    | some (.error payload) => Eval.raise payload m
    | none => .ok () m
  | _ => Eval.fail .notAssignable m

/-- The prototype of an object; only docs and boxes can have one. -/
def prototype (host : Host σ) (object : Value) : Eval σ (Option Value) := fun m =>
  match object with
  | .doc id => .ok ((m.doc? id).bind Doc.proto) m
  | .box id _ => .ok (m.heap.boxes[id]?.bind host.prototype) m
  | _ => Eval.fail .noPrototype m

/-- `object->[key]`: what the prototype has under the key. A callable comes back as a method of the
object. -/
def arrow (host : Host σ) (object key : Value) : Eval σ Value := do
  match ← prototype host object with
  | none => return .none
  | some proto =>
    let found ← index host proto key
    if found.isCallable then newMethod object found else return found

/-- What a `for` loop goes through: value and index of a list, key and value of any other doc,
character and position of a string. -/
def pairs (iterable : Value) : Eval σ (List (Value × Value)) := fun m =>
  match iterable with
  | .doc id =>
    let d := (m.doc? id).getD .empty
    .ok (d.toList.map fun (k, v) => if m.isArray d then (v, k) else (k, v)) m
  | .str s =>
    .ok (s.toList.zipIdx.map fun (c, i) => (.str c.toString, .num (Number.ofNat i))) m
  | _ => Eval.fail .notIterable m

end Machine

end DocScript
