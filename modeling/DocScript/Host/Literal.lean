import DocScript.Host.Thermometer
import DocScript.Machine.Session

/-!
# Literals

Values as they are described outside a machine. `Literal.make` puts them into one: each list, doc,
native and box is new, and names stand for what the machine has bound them to.
-/

namespace DocScript

/-- A value as it is described from outside the machine. -/
inductive Literal where
  | none
  | bool (b : Bool)
  | num (n : Float)
  | str (s : String)
  | list (items : List Literal)
  | doc (entries : List (Literal × Literal)) (proto : Option Literal)
  /-- What a name is bound to in the module or else as a global. -/
  | ref (name : String)
  /-- The same, and if it is a method, what the method calls. -/
  | unbind (name : String)
  | native (name : String)
  | box (celsius : Float) (proto : Option Literal)

namespace Literal

/-- What a name is bound to, None if to nothing. -/
def resolve (m : Machine Thermometer) (name : String) : Value :=
  match m.root? name with
  | some v => v
  | Option.none => (m.global? name).getD .none

/-- A method without its receiver. -/
def unbound : Value → Value
  | .method _ _ f => f
  | v => v

mutual

/-- Makes the value, with new docs, natives and boxes. -/
def make : Literal → Eval Thermometer Value
  | none => pure .none
  | bool b => pure (.bool b)
  | num n => pure (.num n)
  | str s => pure (.str s)
  | list items => do
    let vs ← makeEach items
    Machine.newList vs
  | doc entries proto => do
    let proto ← makeOption proto
    let kvs ← makeEntries entries
    Machine.newDoc ((⟨[], proto⟩ : Doc).insertMany kvs)
  | ref name => fun m => .ok (resolve m name) m
  | unbind name => fun m => .ok (unbound (resolve m name)) m
  | native name => Machine.newNative (.host name)
  | box celsius proto => do
    let proto ← makeOption proto
    Machine.newBox ⟨celsius, proto⟩ Thermometer.typeName

def makeEach : List Literal → Eval Thermometer (List Value)
  | [] => pure []
  | l :: ls => do
    let v ← make l
    let vs ← makeEach ls
    return v :: vs

def makeEntries : List (Literal × Literal) → Eval Thermometer (List (Value × Value))
  | [] => pure []
  | (k, l) :: es => do
    let key ← make k
    let value ← make l
    let kvs ← makeEntries es
    return (key, value) :: kvs

def makeOption : Option Literal → Eval Thermometer (Option Value)
  | Option.none => pure Option.none
  | some l => do
    let v ← make l
    return some v

end

end Literal

end DocScript
