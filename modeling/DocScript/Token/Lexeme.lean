import DocScript.Number
import DocScript.Token
import DocScript.Text.Quoted

/-!
# Lexemes

`Lexeme.scan` reads one lexeme off a text that starts with something other than blanks: a string,
a number, a name, or an operator of one or two characters. It gives the lexeme and the text behind
it. It always takes at least the first character, and what it takes together with what it leaves
is the text it was given (`Lexeme.scan_split`). Malformed literals are taken whole and give an
error token.
-/

namespace DocScript

/-- A lexeme: what it is, and the text it covers. -/
structure Lexeme where
  kind : TokenKind
  text : List Char
  deriving DecidableEq

namespace Lexeme

/-! ## Strings -/

/-- What follows an opening quote, up to the closing one or the end of the text. -/
structure StringBody where
  /-- The characters that the literal stands for. -/
  value : List Char
  /-- What stood behind the first backslash that starts no escape. -/
  badEscape : Option Char
  closed : Bool
  text : List Char
  deriving DecidableEq

/-- The first byte of the encoding of `c`, as a character of its own. -/
def leadByte (c : Char) : Char :=
  match String.utf8EncodeChar c with
  | b :: _ => Char.ofNat b.toNat
  | [] => c

/-- Reads a string literal behind its opening quote: its body, and the text behind it. -/
def stringBody : List Char → StringBody × List Char
  | [] => (⟨[], none, false, []⟩, [])
  | c :: cs =>
    if c = '"' then (⟨[], none, true, [c]⟩, cs)
    else if c = '\\' then
      match cs with
      | [] => (⟨[], none, false, [c]⟩, [])
      | l :: cs =>
        let (b, rest) := stringBody cs
        match Quoted.escaped? l with
        | some e => ({ b with value := e :: b.value, text := c :: l :: b.text }, rest)
        | none => ({ b with badEscape := some (leadByte l), text := c :: l :: b.text }, rest)
    else
      let (b, rest) := stringBody cs
      ({ b with value := c :: b.value, text := c :: b.text }, rest)

theorem stringBody_split (cs : List Char) :
    (stringBody cs).1.text ++ (stringBody cs).2 = cs := by
  fun_induction stringBody cs <;> simp_all +zetaDelta

/-- The token of a string literal. -/
def StringBody.kind (b : StringBody) : TokenKind :=
  if b.closed then
    match b.badEscape with
    | some c => .error (.invalidEscape c)
    | none => .string (String.ofList b.value)
  else .error .unterminatedString

/-- A string literal; `cs` is what follows the opening quote. -/
def string (cs : List Char) : Lexeme × List Char :=
  let (b, rest) := stringBody cs
  (⟨b.kind, '"' :: b.text⟩, rest)

/-! ## Numbers -/

/-- The base that a letter after a leading zero selects. -/
def radix? (c : Char) : Option Nat :=
  if c = 'x' ∨ c = 'X' then some 16
  else if c = 'o' ∨ c = 'O' then some 8
  else if c = 'b' ∨ c = 'B' then some 2
  else none

/-- The value of a digit or letter. -/
def digitValue (c : Char) : Nat :=
  if c.isDigit then c.toNat - '0'.toNat else c.toLower.toNat - 'a'.toNat + 10

/-- The number written by `ds` in the base `radix`. -/
def positionalValue (radix : Nat) (ds : List Char) : Nat :=
  ds.foldl (fun n d => n * radix + digitValue d) 0

/-- The token of the digits `ds` behind a base. The number has to fit into 64 bits. -/
def radixKind (radix : Nat) (ds : List Char) : TokenKind :=
  if ds = [] then .error (.missingDigits radix)
  else
    match ds.find? fun d => radix ≤ digitValue d with
    | some d => .error (.invalidDigit d radix)
    | none =>
      let n := positionalValue radix ds
      if n < UInt64.size then .number (Number.ofNat n) else .error .integerOverflow

/-- Digits and underscores, with at most one point, which stands between two digits: the longest
such start of a text and what follows it. `point` says that a point was seen, `gap` that the
character before was an underscore. -/
def decimalRun (point gap : Bool) : List Char → List Char × List Char
  | [] => ([], [])
  | c :: cs =>
    if c.isDigit then
      let (run, rest) := decimalRun point false cs
      (c :: run, rest)
    else if c = '_' then
      let (run, rest) := decimalRun point true cs
      (c :: run, rest)
    else if c = '.' && !point && !gap && cs.head?.any Char.isDigit then
      let (run, rest) := decimalRun true false cs
      (c :: run, rest)
    else ([], c :: cs)

theorem decimalRun_split (point gap : Bool) (cs : List Char) :
    (decimalRun point gap cs).1 ++ (decimalRun point gap cs).2 = cs := by
  fun_induction decimalRun point gap cs <;> simp_all +zetaDelta

/-- Whether two underscores stand side by side. -/
def doubleUnderscore : List Char → Bool
  | '_' :: '_' :: _ => true
  | _ :: cs => doubleUnderscore cs
  | [] => false

/-- The number written by digits with at most one point. -/
def decimalValue (cs : List Char) : Float :=
  let fraction := (cs.dropWhile (· ≠ '.')).drop 1
  Float.ofScientific (positionalValue 10 (cs.filter (· ≠ '.'))) true fraction.length

/-- The token of a run of digits and underscores. -/
def decimalKind (cs : List Char) : TokenKind :=
  if doubleUnderscore cs then .error .doubleUnderscore
  else if cs.getLast? = some '_' then .error .trailingUnderscore
  else .number (decimalValue (cs.filter (· ≠ '_')))

/-- A decimal number; `c` is its first digit. -/
def decimal (c : Char) (cs : List Char) : Lexeme × List Char :=
  let (run, rest) := decimalRun false false cs
  (⟨decimalKind (c :: run), c :: run⟩, rest)

theorem decimal_split (c : Char) (cs : List Char) :
    ∃ t, (decimal c cs).1.text = c :: t ∧ t ++ (decimal c cs).2 = cs :=
  ⟨(decimalRun false false cs).1, rfl, decimalRun_split ..⟩

/-- A number in any base; `c` is its first digit. -/
def number (c : Char) (cs : List Char) : Lexeme × List Char :=
  match cs with
  | [] => decimal c cs
  | b :: ds =>
    match radix? b with
    | some radix =>
      if c = '0' then
        let digits := ds.takeWhile Char.isAlphanum
        (⟨radixKind radix digits, c :: b :: digits⟩, ds.dropWhile Char.isAlphanum)
      else decimal c cs
    | none => decimal c cs

/-! ## Names and symbols -/

def isNameStart (c : Char) : Bool := c.isAlpha || c == '_'

def isNameChar (c : Char) : Bool := c.isAlphanum || c == '_'

/-- The token of a word: a reserved word or a name. -/
def wordKind (cs : List Char) : TokenKind :=
  let s := String.ofList cs
  match Keyword.ofText? s with
  | some k => .keyword k
  | none => .identifier s

/-- A name or reserved word; `c` is its first character. -/
def word (c : Char) (cs : List Char) : Lexeme × List Char :=
  let text := c :: cs.takeWhile isNameChar
  (⟨wordKind text, text⟩, cs.dropWhile isNameChar)

/-- The symbol of two characters, if the two make one. -/
def symbol2? (c d : Char) : Option Symbol :=
  if c = '-' ∧ d = '>' then some .arrow
  else if c = '*' ∧ d = '*' then some .starStar
  else if d ≠ '=' then none
  else if c = '=' then some .eqEq
  else if c = '!' then some .bangEq
  else if c = '<' then some .lessEq
  else if c = '>' then some .greaterEq
  else none

/-- The symbol of one character. -/
def symbol1? (c : Char) : Option Symbol :=
  match c with
  | '(' => some .lparen
  | ')' => some .rparen
  | '[' => some .lbracket
  | ']' => some .rbracket
  | '{' => some .lbrace
  | '}' => some .rbrace
  | ',' => some .comma
  | '.' => some .dot
  | ':' => some .colon
  | '@' => some .at_
  | '+' => some .plus
  | '-' => some .minus
  | '*' => some .star
  | '/' => some .slash
  | '=' => some .eq
  | '<' => some .less
  | '>' => some .greater
  | _ => none

/-- A single character: a symbol or nothing the language knows. -/
def single (c : Char) : Lexeme :=
  match symbol1? c with
  | some s => ⟨.symbol s, [c]⟩
  | none => ⟨.error (.unexpectedCharacter c), [c]⟩

/-- A symbol, as long as possible. -/
def symbol (c : Char) (cs : List Char) : Lexeme × List Char :=
  match cs with
  | [] => (single c, cs)
  | d :: ds =>
    match symbol2? c d with
    | some s => (⟨.symbol s, [c, d]⟩, ds)
    | none => (single c, cs)

/-! ## The scanner -/

/-- Reads one lexeme off the text `c :: cs`: the lexeme, and the text behind it. -/
def scan (c : Char) (cs : List Char) : Lexeme × List Char :=
  if c = '"' then string cs
  else if c.isDigit then number c cs
  else if isNameStart c then word c cs
  else symbol c cs

theorem single_text (c : Char) : (single c).text = [c] := by
  unfold single
  split <;> rfl

/-- A lexeme and the text behind it make up the text that was read; a lexeme is never empty. -/
theorem scan_split (c : Char) (cs : List Char) :
    ∃ t, (scan c cs).1.text = c :: t ∧ t ++ (scan c cs).2 = cs := by
  unfold scan
  split
  · next h => exact ⟨_, by rw [h]; rfl, stringBody_split cs⟩
  split
  · unfold number
    split
    · exact decimal_split ..
    · split
      · split
        · exact ⟨_, rfl, by simp⟩
        · exact decimal_split ..
      · exact decimal_split ..
  split
  · exact ⟨_, rfl, List.takeWhile_append_dropWhile⟩
  · unfold symbol
    split
    · exact ⟨[], single_text c, rfl⟩
    · split
      · exact ⟨_, rfl, rfl⟩
      · exact ⟨[], single_text c, rfl⟩

/-- The text behind a lexeme is shorter than the text that was read. -/
theorem length_scan_le (c : Char) (cs : List Char) : (scan c cs).2.length ≤ cs.length := by
  obtain ⟨t, -, h⟩ := scan_split c cs
  have hl := congrArg List.length h
  rw [List.length_append] at hl
  omega

end Lexeme

end DocScript
