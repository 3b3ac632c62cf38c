import DocScript.Diagnostic

/-!
# Tokens

The vocabulary of scripts: reserved words, symbols, literals and names, together with the marks
that carry the line structure (`newline`, `indent`, `dedent`), tokens for what could not be
read, and the end of the text. A token has the span and the text it was read from.
-/

namespace DocScript

/-- Reserved words. -/
inductive Keyword where
  | def_ | if_ | elif | else_ | while_ | for_ | in_ | break_ | continue_ | return_ | raise
  | try_ | except | finally_ | as_ | pass | lambda | local_ | nonlocal | global_
  | and | or | not | none | true | false
  deriving DecidableEq, Repr

namespace Keyword

/-- All reserved words. -/
def all : List Keyword :=
  [def_, if_, elif, else_, while_, for_, in_, break_, continue_, return_, raise,
    try_, except, finally_, as_, pass, lambda, local_, nonlocal, global_,
    and, or, not, none, true, false]

def text : Keyword → String
  | def_ => "def"
  | if_ => "if"
  | elif => "elif"
  | else_ => "else"
  | while_ => "while"
  | for_ => "for"
  | in_ => "in"
  | break_ => "break"
  | continue_ => "continue"
  | return_ => "return"
  | raise => "raise"
  | try_ => "try"
  | except => "except"
  | finally_ => "finally"
  | as_ => "as"
  | pass => "pass"
  | lambda => "lambda"
  | local_ => "local"
  | nonlocal => "nonlocal"
  | global_ => "global"
  | and => "and"
  | or => "or"
  | not => "not"
  | none => "None"
  | true => "True"
  | false => "False"

/-- The reserved word with the given text. Case matters. -/
def ofText? (s : String) : Option Keyword := all.find? fun k => k.text == s

/-- Words after which a statement can end. -/
def canEndLine : Keyword → Bool
  | none | true | false | break_ | continue_ | return_ | pass => Bool.true
  | _ => Bool.false

end Keyword

/-- Operators and punctuation. -/
inductive Symbol where
  | plus | minus | star | starStar | slash
  | eq | eqEq | bangEq | less | lessEq | greater | greaterEq | arrow
  | lparen | rparen | lbrace | rbrace | lbracket | rbracket
  | comma | dot | colon | at_
  deriving DecidableEq, Repr

namespace Symbol

def text : Symbol → String
  | plus => "+"
  | minus => "-"
  | star => "*"
  | starStar => "**"
  | slash => "/"
  | eq => "="
  | eqEq => "=="
  | bangEq => "!="
  | less => "<"
  | lessEq => "<="
  | greater => ">"
  | greaterEq => ">="
  | arrow => "->"
  | lparen => "("
  | rparen => ")"
  | lbrace => "\x7b"
  | rbrace => "\x7d"
  | lbracket => "["
  | rbracket => "]"
  | comma => ","
  | dot => "."
  | colon => ":"
  | at_ => "@"

/-- Symbols after which a statement can end: closing brackets and the colon. -/
def canEndLine : Symbol → Bool
  | rparen | rbracket | rbrace | colon => true
  | _ => false

end Symbol

/-- Why a piece of text is no token. -/
inductive ScanError where
  | unexpectedCharacter (c : Char)
  | unterminatedString
  | invalidEscape (c : Char)
  | doubleUnderscore
  | trailingUnderscore
  | invalidDigit (digit : Char) (radix : Nat)
  | missingDigits (radix : Nat)
  | integerOverflow
  | badDedent
  | mixedIndentation
  deriving DecidableEq, Repr

namespace ScanError

def message : ScanError → String
  | unexpectedCharacter c => s!"unexpected character '{c}'"
  | unterminatedString => "unterminated string"
  | invalidEscape c => s!"invalid escape '\\{c}'"
  | doubleUnderscore => "double underscore in number literal"
  | trailingUnderscore => "number literal ends with underscore"
  | invalidDigit digit radix => s!"invalid digit '{digit}' in base {radix} literal"
  | missingDigits radix => s!"missing digits in base {radix} literal"
  | integerOverflow => "integer literal too large"
  | badDedent => "bad dedent"
  | mixedIndentation => "mixed tabs and spaces"

def code : ScanError → ErrorCode
  | unexpectedCharacter _ => .unexpectedCharacter
  | unterminatedString => .unterminatedString
  | invalidEscape _ => .invalidEscape
  | doubleUnderscore | trailingUnderscore | invalidDigit _ _ | missingDigits _
  | integerOverflow => .invalidNumber
  | badDedent => .badDedent
  | mixedIndentation => .mixedIndentation

end ScanError

/-- What a token is. -/
inductive TokenKind where
  | number (n : Float)
  | string (s : String)
  | identifier (name : String)
  | keyword (k : Keyword)
  | symbol (s : Symbol)
  | newline
  | indent
  | dedent
  | error (e : ScanError)
  | endOfFile
  deriving DecidableEq

namespace TokenKind

/-- The name of a kind in messages. -/
def text : TokenKind → String
  | number _ => "number"
  | string _ => "string"
  | identifier _ => "identifier"
  | keyword k => k.text
  | symbol s => s.text
  | newline => "new line"
  | indent => "indent"
  | dedent => "dedent"
  | error _ => "error"
  | endOfFile => "end of file"

def isKeyword : TokenKind → Bool
  | keyword _ => true
  | _ => false

def isError : TokenKind → Bool
  | error _ => true
  | _ => false

/-- Whether a logical line may end after such a token. A line break after any other token
continues the statement on the next line. -/
def canEndLine : TokenKind → Bool
  | number _ | string _ | identifier _ => true
  | keyword k => k.canEndLine
  | symbol s => s.canEndLine
  | _ => false

end TokenKind

/-- A token with its place and its text; marks have no text. -/
structure Token where
  kind : TokenKind
  span : Span
  literal : String
  deriving DecidableEq

namespace Token

/-- A token without text at one place. -/
def mark (kind : TokenKind) (p : Pos) : Token := ⟨kind, .point p, ""⟩

/-- How messages quote a token: by its text, or by its kind if it has none. -/
def lexeme (t : Token) : String := if t.literal.isEmpty then t.kind.text else t.literal

/-- The diagnostic that something is wrong with the token `t` of `source`. -/
def complain (source : Source) (t : Token) (code : ErrorCode) (message : String) : Diagnostic :=
  { file := source.name
    code
    message
    span := t.span
    lexeme := t.lexeme
    sourceLine := (source.line? t.span.start.line).getD "" }

end Token

end DocScript
