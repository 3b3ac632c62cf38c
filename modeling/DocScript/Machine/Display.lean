import DocScript.Machine

/-!
# How values are displayed

A string is displayed as it is, and quoted inside other values. Lists stand in brackets, other docs in
braces with their keys. A doc that encloses itself is not displayed again: `...` stands for it.
-/

namespace DocScript

variable {σ : Type}

namespace Value

/-- Anything but a doc, inside another value. -/
def plain : Value → String
  | none => "None"
  | bool true => "True"
  | bool false => "False"
  | num n => Number.text n
  | str s => Quoted.quote s
  | doc _ => "..."
  | func _ f => "<function " ++ f.name ++ ">"
  | native _ f => "<native function " ++ f.name ++ ">"
  | method _ _ f => "<method " ++ f.callableName?.getD "?" ++ ">"
  | box _ typeName => "<box " ++ typeName ++ ">"

end Value

namespace Machine

/-- A list of this machine, its items written by `item`. -/
def renderArray (item : Value → String) (d : Doc) : String :=
  "[" ++ String.intercalate ", " (d.toList.map fun (_, v) => item v) ++ "]"

/-- Any other doc, its keys and values written by `item`. -/
def renderDict (item : Value → String) (d : Doc) : String :=
  "\x7b" ++ String.intercalate ", " (d.toList.map fun (k, v) => item k ++ ": " ++ item v) ++ "\x7d"

/-- A doc, its keys and values written by `item`. -/
def renderDoc (m : Machine σ) (item : Value → String) (d : Doc) : String :=
  if m.isArray d then renderArray item d else renderDict item d

/-- A value inside the docs `opened`, with at most `fuel` docs inside each other. -/
def render (m : Machine σ) : (fuel : Nat) → (opened : List DocId) → Value → String
  | n + 1, opened, .doc id =>
    if id ∈ opened then "..."
    else
      match m.doc? id with
      | some d => m.renderDoc (m.render n (id :: opened)) d
      | none => "..."
  | _, _, v => v.plain

/-- A value as `println` shows it. No more docs can be inside each other than there are. -/
def display (m : Machine σ) : Value → String
  | .str s => s
  | v => m.render (m.heap.docs.size + 1) [] v

/-- A value for inspection: what it is, without the entries of docs. -/
def inspect (m : Machine σ) : Value → String
  | .none => "None"
  | .bool b => "Bool(" ++ (if b then "true" else "false") ++ ")"
  | .num n => "Num(" ++ Number.signedText n ++ ")"
  | .str s => "Str(" ++ Inspected.quote s ++ ")"
  | .doc id => "Doc(len " ++ toString ((m.doc? id).map Doc.size |>.getD 0) ++ ")"
  | .func _ f => "Func(" ++ f.name ++ ")"
  | .native _ f => "NativeFunc(" ++ f.name ++ ")"
  | .method _ _ f => "Method(" ++ m.inspect f ++ ")"
  | .box _ typeName => "Box(" ++ typeName ++ ")"

end Machine

end DocScript
