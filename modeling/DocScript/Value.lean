import DocScript.Program

/-!
# Values

None, booleans, numbers and strings are values by themselves. Docs and boxes live in a heap, and a
value only refers to them. Functions, natives and methods never change, so a value carries them
whole, together with the number under which they were made: two functions with the same text are
different values.

Equality is structural on plain values and goes by identity on docs, functions, natives and boxes. A
method is an object together with a callable found through its prototype; two methods are equal if
both parts are.
-/

namespace DocScript

/-- The number of a frame of bindings. -/
abbrev FrameId := Nat

/-- The number of a doc in the heap. -/
abbrev DocId := Nat

/-- The number of a box in the heap. -/
abbrev BoxId := Nat

/-- A function of a script: its code and the frame that it was made in. -/
structure Closure where
  name : String
  params : List String
  body : Block Unit
  env : FrameId

/-- A function that is not written in the language: the three built-in ones, and those of the host,
which are known by name. -/
inductive Native where
  | println
  | len
  | push
  | host (name : String)
  deriving DecidableEq, Repr

def Native.name : Native → String
  | println => "println"
  | len => "len"
  | push => "push"
  | host name => name

inductive Value where
  | none
  | bool (b : Bool)
  | num (n : Float)
  | str (s : String)
  | doc (id : DocId)
  | func (id : Nat) (f : Closure)
  | native (id : Nat) (f : Native)
  | method (id : Nat) (receiver callable : Value)
  | box (id : BoxId) (typeName : String)

namespace Value

instance : Inhabited Value := ⟨none⟩

/-- Only None and False count as false. -/
def truthy : Value → Bool
  | none | bool false => false
  | _ => true

def isCallable : Value → Bool
  | func _ _ | native _ _ | method _ _ _ => true
  | _ => false

/-- The name of a callable; a method has the name of what it calls. -/
def callableName? : Value → Option String
  | func _ f => some f.name
  | native _ f => some f.name
  | method _ _ f => f.callableName?
  | _ => Option.none

def num? : Value → Option Float
  | num n => some n
  | _ => Option.none

/-- Equality as scripts see it. -/
def equal : Value → Value → Bool
  | none, none => true
  | bool a, bool b => a == b
  | num a, num b => a == b
  | str a, str b => a == b
  | doc a, doc b => a == b
  | func a _, func b _ => a == b
  | native a _, native b _ => a == b
  | method _ r f, method _ s g => r.equal s && f.equal g
  | box a _, box b _ => a == b
  | _, _ => false

/-- What identifies a value that is more than its content: what sort of thing it is, and its
number among those. -/
def identity : Value → Nat × Nat
  | doc id => (0, id)
  | func id _ => (1, id)
  | native id _ => (2, id)
  | method id _ _ => (3, id)
  | box id _ => (4, id)
  | _ => (5, 0)

/-- The first of several values, for places that take one. -/
def first (vs : List Value) : Value := vs.headD none

end Value

end DocScript
