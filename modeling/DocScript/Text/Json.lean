/-!
# JSON documents

The part of JSON that reports need: natural numbers, strings, arrays and objects, written one
member per line with two blanks for each level. Empty arrays and objects stay on one line.
-/

namespace DocScript

/-- A JSON document. -/
inductive Json where
  | num (n : Nat)
  | str (s : String)
  | arr (items : List Json)
  | obj (members : List (String × Json))

namespace Json

/-- The last hexadecimal digit of `n`. -/
def hexDigit (n : Nat) : Char := Nat.digitChar (n % 16)

/-- One character inside a JSON string: quotes, backslashes and control characters are escaped. -/
def escapeChar (c : Char) : List Char :=
  if c = '"' then ['\\', '"']
  else if c = '\\' then ['\\', '\\']
  else if c = '\x08' then ['\\', 'b']
  else if c = '\x0c' then ['\\', 'f']
  else if c = '\n' then ['\\', 'n']
  else if c = '\r' then ['\\', 'r']
  else if c = '\t' then ['\\', 't']
  else if c.toNat < 32 then ['\\', 'u', '0', '0', hexDigit (c.toNat / 16), hexDigit c.toNat]
  else [c]

/-- A JSON string with its quotes. -/
def quote (s : String) : String :=
  String.ofList ('"' :: s.toList.flatMap escapeChar ++ ['"'])

/-- A line break followed by the indentation of level `depth`. -/
def lineBreak (depth : Nat) : String := String.ofList ('\n' :: List.replicate (2 * depth) ' ')

/-- Items between an opening and a closing bracket, each on a line of its own. -/
def bracketed (opening closing : String) (depth : Nat) (items : List String) : String :=
  if items.isEmpty then opening ++ closing
  else
    opening ++ lineBreak (depth + 1) ++ String.intercalate ("," ++ lineBreak (depth + 1)) items
      ++ lineBreak depth ++ closing

mutual

/-- The document at level `depth`. -/
def render (depth : Nat) : Json → String
  | num n => toString n
  | str s => quote s
  | arr items => bracketed "[" "]" depth (renderItems (depth + 1) items)
  | obj members => bracketed "\x7b" "\x7d" depth (renderMembers (depth + 1) members)

/-- Each item of an array. -/
def renderItems (depth : Nat) : List Json → List String
  | [] => []
  | j :: js => render depth j :: renderItems depth js

/-- Each member of an object, its name first. -/
def renderMembers (depth : Nat) : List (String × Json) → List String
  | [] => []
  | (k, j) :: ms => (quote k ++ ": " ++ render depth j) :: renderMembers depth ms

end

/-- The whole document. -/
def pretty (j : Json) : String := render 0 j

end Json

end DocScript
