import DocScript.Value

/-!
# Hosts

A host embeds the language. It offers natives, which may call back into scripts, and boxes, which
are objects with a state of their own that scripts use through indexing. What a native does is an
`Action`: it ends with a value or an exception, and before that it may call a value and look
at the outcome, make a list, or ask how a value is displayed. Boxes answer without effects on
anything but their own state.
-/

namespace DocScript

/-- What a native does. -/
inductive Action where
  | done (v : Value)
  | raise (payload : Value)
  /-- Calls a value and goes on with what it returned or raised. -/
  | call (callee : Value) (args : List Value) (next : Except Value (List Value) → Action)
  | newList (items : List Value) (next : Value → Action)
  | display (v : Value) (next : String → Action)

/-- A host whose boxes have states of type `σ`. -/
structure Host (σ : Type) where
  native : (name : String) → (args : List Value) → Action
  /-- What a box has under a key. -/
  index : σ → Value → Value
  /-- The box after an assignment to a key, or what the assignment raises. -/
  setIndex : σ → (key value : Value) → Except Value σ
  prototype : σ → Option Value

end DocScript
