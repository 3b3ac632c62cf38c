import DocScript.Text.Source
import DocScript.Text.Json

/-!
# Diagnostics

A diagnostic says what is wrong with a script and where. `Diagnostics` collects them: the first
twenty are stored, all of them are counted, and the first one is the error that callers report.
-/

namespace DocScript

/-- What part of the language a diagnostic is about. -/
inductive Category where
  /-- Malformed characters, literals or indentation. -/
  | scan
  /-- Token sequences outside the grammar. -/
  | grammar
  /-- Well-formed statements where they are not allowed. -/
  | context
  deriving DecidableEq, Repr

/-- The name of a category in reports. -/
def Category.text : Category → String
  | scan => "scan"
  | grammar => "syntax"
  | context => "context"

/-- The number of a kind of error. -/
structure ErrorCode where
  number : Nat
  deriving DecidableEq, Repr

namespace ErrorCode

def unexpectedCharacter : ErrorCode := ⟨100⟩
def unterminatedString : ErrorCode := ⟨101⟩
def invalidEscape : ErrorCode := ⟨102⟩
def invalidNumber : ErrorCode := ⟨103⟩
def badDedent : ErrorCode := ⟨104⟩
def mixedIndentation : ErrorCode := ⟨105⟩
def unexpectedToken : ErrorCode := ⟨200⟩
def invalidAssignTarget : ErrorCode := ⟨201⟩
def missingHandler : ErrorCode := ⟨202⟩
def returnOutsideFunction : ErrorCode := ⟨300⟩
def loopControlOutsideLoop : ErrorCode := ⟨301⟩
def declarationOutsideFunction : ErrorCode := ⟨302⟩
def declarationAfterUse : ErrorCode := ⟨303⟩
def conflictingDeclaration : ErrorCode := ⟨304⟩

/-- The hundreds of a code give its category. -/
def category (c : ErrorCode) : Category :=
  if c.number / 100 = 1 then .scan
  else if c.number / 100 = 3 then .context
  else .grammar

/-- A code is written with the letter `E`. -/
def text (c : ErrorCode) : String := s!"E{c.number}"

end ErrorCode

/-- One report about a script. -/
structure Diagnostic where
  file : String
  code : ErrorCode
  message : String
  span : Span
  /-- The text of the token complained about, or the name of its kind. -/
  lexeme : String
  /-- The line on which the span starts. -/
  sourceLine : String
  deriving DecidableEq, Repr

namespace Diagnostic

def category (d : Diagnostic) : Category := d.code.category

/-- The form shown to users. -/
def text (d : Diagnostic) : String :=
  s!"line {d.span.start.line} at '{d.lexeme}': {d.message}"

/-- The form read by tools. -/
def toJson (d : Diagnostic) : Json :=
  .obj [
    ("file", .str d.file),
    ("code", .num d.code.number),
    ("category", .str d.category.text),
    ("message", .str d.message),
    ("start_line", .num d.span.start.line),
    ("start_col", .num d.span.start.col),
    ("end_line", .num d.span.stop.line),
    ("end_col", .num d.span.stop.col),
    ("lexeme", .str d.lexeme),
    ("source_line", .str d.sourceLine)]

end Diagnostic

/-- The diagnostics of one script: the first ones in order, and how many there were. -/
structure Diagnostics where
  stored : List Diagnostic
  total : Nat
  deriving DecidableEq, Repr

namespace Diagnostics

/-- How many diagnostics are stored; later ones are only counted. -/
def capacity : Nat := 20

def empty : Diagnostics := ⟨[], 0⟩

/-- Records one more diagnostic. -/
def push (ds : Diagnostics) (d : Diagnostic) : Diagnostics :=
  { stored := if ds.stored.length < capacity then ds.stored ++ [d] else ds.stored
    total := ds.total + 1 }

/-- Records those of `other` after those of `ds`, also the ones that `other` only counted. -/
def extend (ds other : Diagnostics) : Diagnostics :=
  let pushed := other.stored.foldl push ds
  { pushed with total := pushed.total + (other.total - other.stored.length) }

def hasErrors (ds : Diagnostics) : Bool := 0 < ds.total

/-- The diagnostic reported as the error of the script. -/
def first? (ds : Diagnostics) : Option Diagnostic := ds.stored.head?

/-- The stored diagnostics, one per line. -/
def text (ds : Diagnostics) : String :=
  String.intercalate "\n" (ds.stored.map Diagnostic.text)

/-- The report for tools, as text. -/
def report (ds : Diagnostics) : String :=
  (Json.obj [
    ("errors", .arr (ds.stored.map Diagnostic.toJson)),
    ("total_errors", .num ds.total)]).pretty

end Diagnostics

end DocScript
