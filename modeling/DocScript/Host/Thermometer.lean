import DocScript.Host

/-!
# A host with thermometers

A small host that uses everything a host can do. Its boxes are thermometers, which scripts read in two
scales and set in one; its natives double numbers, call values, collect results, raise, and tell
about their argument.
-/

namespace DocScript

/-- A temperature, with a prototype for scripts. -/
structure Thermometer where
  celsius : Float
  proto : Option Value

namespace Thermometer

def typeName : String := "Temperature"

def fahrenheit (t : Thermometer) : Float := t.celsius * 9.0 / 5.0 + 32.0

def index (t : Thermometer) : Value → Value
  | .str "celsius" => .num t.celsius
  | .str "fahrenheit" => .num t.fahrenheit
  | _ => .none

def setIndex (t : Thermometer) : Value → Value → Except Value Thermometer
  | .str "celsius", .num n => .ok { t with celsius := n }
  | _, _ => .error (.str "read-only property")

/-- Goes on with the first value that a call returned; what it raised is raised again. -/
def passOn (next : List Value → Action) : Except Value (List Value) → Action
  | .ok vs => next vs
  | .error payload => .raise payload

/-- Twice a number. -/
def double : Value → Action
  | .num n => .done (.num (2 * n))
  | _ => .raise (.str "double expects a number")

/-- What a box is. -/
def describe : Value → Value
  | .box _ typeName => .str ("a " ++ typeName)
  | _ => .none

/-- The natives, by name. -/
def native (name : String) (args : List Value) : Action :=
  let first := Value.first args
  match name with
  | "double" => double first
  | "apply" => .call first args.tail (passOn fun vs => .done (Value.first vs))
  | "collect" => .call first args.tail (passOn fun vs => .newList vs .done)
  | "fail" => .raise first
  | "describe" => .done (describe first)
  | "callable" => .done (.bool first.isCallable)
  | _ => .done .none

/-- The host. -/
def host : Host Thermometer where
  native := native
  index := index
  setIndex := setIndex
  prototype := proto

end Thermometer

end DocScript
