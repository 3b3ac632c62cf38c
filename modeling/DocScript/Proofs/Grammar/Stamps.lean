import DocScript.Grammar.Parser
import DocScript.Proofs.Scoping

/-!
# Scopes in the order of the text

A parser writes on each occurrence of a variable the scope that is in force there, and objects to a declaration
that comes too late. Whether the same text would be read with the same scopes again depends on the mentions in
their order : `Body.follow?` goes through them in the way of a parser, and gives the body behind them if every
occurrence has the scope that is in force and no declaration meets an objection. A function is `Stamped` if
this holds of its own mentions and of all functions in it.
-/

namespace DocScript

variable {α : Type}

namespace Body

/-- The body behind the mentions `ms`, if they are such as a parser would write them. -/
def follow? (b : Body) : List (Mention α) → Option Body
  | [] => some b
  | .occurrence v :: ms => if b.scopeOf v.name = v.scope then (b.refer v.name).follow? ms else none
  | .declaration x s :: ms =>
    match b.objection? x s with
    | none => (b.declare x s).follow? ms
    | some _ => none
  | .function _ :: ms => b.follow? ms

theorem follow?_append (b : Body) (ms ms' : List (Mention α)) :
    b.follow? (ms ++ ms') = (b.follow? ms).bind (·.follow? ms') := by
  induction ms generalizing b with
  | nil => rfl
  | cons m ms ih =>
    cases m with
    | occurrence v =>
      rw [List.cons_append, follow?, follow?]
      split
      · exact ih _
      · rfl
    | declaration x s =>
      rw [List.cons_append, follow?, follow?]
      split
      · exact ih _
      · rfl
    | function f => exact ih _

/-- How many loops are open makes no difference. -/
theorem follow?_loopDepth (b : Body) (n : Nat) (ms : List (Mention α)) :
    Body.follow? { b with loopDepth := n } ms = (b.follow? ms).map ({ · with loopDepth := n }) := by
  induction ms generalizing b with
  | nil => rfl
  | cons m ms ih =>
    cases m with
    | occurrence v =>
      have hs : Body.scopeOf { b with loopDepth := n } v.name = b.scopeOf v.name := rfl
      rw [follow?, follow?, hs]
      split
      · exact ih (b.refer v.name)
      · rfl
    | declaration x s =>
      have ho : Body.objection? { b with loopDepth := n } x s = b.objection? x s := rfl
      rw [follow?, follow?, ho]
      split
      · exact ih (b.declare x s)
      · rfl
    | function f => exact ih _

end Body

/-- The function would be read with the same scopes again, and so would all functions inside it. -/
inductive Function.Stamped : Function α → Prop where
  | intro {f : Function α} (own : (Body.function f.params).follow? f.body.mentions ≠ none)
      (inner : ∀ g, .function g ∈ f.body.mentions → g.Stamped) : f.Stamped

end DocScript
