import DocScript.Token.Layout
import DocScript.Token.Segment

/-!
# Token streams

`Source.tokens` is the token stream of a script: lexemes with the marks of the line structure in
front of them, closed by one token for the end of the text. Text that cannot be read gives error
tokens and never stops the stream; `Source.scanErrors` are the diagnostics for them. `Source.trace`
is the stream with the state of the line structure behind each token.
-/

namespace DocScript

namespace Token

/-- The longest text that an error token quotes. -/
def excerptLimit : Nat := 32

/-- The first line of a text, without its line break. -/
def firstLine (cs : List Char) : List Char :=
  let line := cs.takeWhile (· ≠ '\n')
  if line.length < cs.length ∧ line.getLast? = some '\r' then line.dropLast else line

/-- What an error token quotes of a text: its first line, shortened. -/
def excerpt (cs : List Char) : String :=
  let line := firstLine cs
  if excerptLimit < line.length then String.ofList (line.take excerptLimit) ++ "..."
  else String.ofList line

/-- What a complaint about indentation quotes: the next character, if it is one byte long. -/
def upcoming : List Char → String
  | [] => ""
  | c :: _ => if c.utf8Size = 1 then excerpt [c] else ""

/-- A mark in front of a lexeme with the text `next`. -/
def ofMark (p : Pos) (next : List Char) (kind : TokenKind) : Token :=
  match kind with
  | .error .mixedIndentation => ⟨kind, .point p, upcoming next⟩
  | _ => .mark kind p

/-- The token of a lexeme that starts at `p`. -/
def ofLexeme (p : Pos) (x : Lexeme) : Token :=
  { kind := x.kind
    span := ⟨p, (p.advance x.text).lastOf⟩
    literal := if x.kind.isError then excerpt x.text else String.ofList x.text }

end Token

/-- The marks in front of a lexeme with the text `next`, which stands at `p`. -/
def marksAt (p : Pos) (next : List Char) (marks : List (TokenKind × Layout)) :
    List (Token × Layout) :=
  marks.map fun (kind, l) => (.ofMark p next kind, l)

/-- The tokens of segments that stand at `p`, with the trivia `last` behind them, each with the
state of the line structure behind it; the structure starts in the state `l`. -/
def traceFrom (last : Trivia) (l : Layout) (p : Pos) : List Segment → List (Token × Layout)
  | [] =>
    let p := p.advance last.text
    let (marks, l) := l.enter last.entered true
    marksAt p [] marks ++ [(.mark .endOfFile p, l)]
  | s :: segments =>
    let p := p.advance s.trivia.text
    let (marks, l) := l.enter s.trivia.entered false
    let l := l.after s.lexeme.kind
    marksAt p s.lexeme.text marks ++
      (.ofLexeme p s.lexeme, l) :: traceFrom last l (p.advance s.lexeme.text) segments

namespace Source

/-- The tokens of a script, each with the state of the line structure behind it. -/
def trace (s : Source) : List (Token × Layout) :=
  let x := Segmentation.ofText s.text.toList
  traceFrom x.last .start .start x.segments

/-- The tokens of a script; the last one is the end of the text. -/
def tokens (s : Source) : List Token := s.trace.map Prod.fst

/-- The first `n` tokens, the last one repeated as often as needed. -/
def pull (s : Source) (n : Nat) : List Token :=
  (s.tokens ++ List.replicate n (s.tokens.getLastD (.mark .endOfFile .start))).take n

/-- The diagnostic of an error token. -/
def scanError? (s : Source) (t : Token) : Option Diagnostic :=
  match t.kind with
  | .error e => some (t.complain s e.code e.message)
  | _ => none

/-- The diagnostics of all error tokens, in order. -/
def scanErrors (s : Source) : Diagnostics :=
  (s.tokens.filterMap s.scanError?).foldl .push .empty

end Source

end DocScript
