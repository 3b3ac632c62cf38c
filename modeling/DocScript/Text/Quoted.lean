/-!
# Quoted strings

The escapes of string literals. Six characters are written as a backslash and a letter; `letter?`
and `escaped?` are the two directions of that table. `Quoted.encode` writes a literal.
-/

namespace DocScript.Quoted

/-- The letter that stands for `c` after a backslash, for the characters that need one. -/
def letter? (c : Char) : Option Char :=
  if c = '\n' then some 'n'
  else if c = '\r' then some 'r'
  else if c = '\t' then some 't'
  else if c = '\x08' then some 'b'
  else if c = '\\' then some '\\'
  else if c = '"' then some '"'
  else none

/-- The character that the letter `l` stands for after a backslash. -/
def escaped? (l : Char) : Option Char :=
  if l = 'n' then some '\n'
  else if l = 'r' then some '\r'
  else if l = 't' then some '\t'
  else if l = 'b' then some '\x08'
  else if l = '\\' then some '\\'
  else if l = '"' then some '"'
  else none

/-- One character inside a literal. -/
def encodeChar (c : Char) : List Char :=
  match letter? c with
  | some l => ['\\', l]
  | none => [c]

/-- The literal for `cs`, with its two quotes. -/
def encode (cs : List Char) : List Char := '"' :: cs.flatMap encodeChar ++ ['"']

/-- The literal for a string. -/
def quote (s : String) : String := String.ofList (encode s.toList)

end DocScript.Quoted
