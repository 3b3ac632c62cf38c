import DocScript.Token
import DocScript.Token.Trivia

/-!
# Line structure

Blocks are marked by indentation alone. The layout remembers the indentation of the blocks that are
open and what the current line looks like so far; in front of each lexeme, `Layout.enter` gives the
marks that its line break and its indentation stand for.

- A line break ends the logical line if the last lexeme can end one, outside brackets.
- The first lexeme of a logical line opens a block if it is indented more than the innermost
  open one, and closes the blocks that are indented more than it is.
- A line that closes a block without falling back to an open one is a bad dedent; its width then
  counts as a level of its own, so that the rest of the block can still be read.
- All indented lines have to use the kind of blank that the first one uses.
-/

namespace DocScript

/-- The kind of blank that indents. -/
inductive IndentStyle where
  | spaces
  | tabs
  deriving DecidableEq, Repr

/-- The state of the line structure between two lexemes. -/
structure Layout where
  /-- The widths of the open blocks, innermost first; the last one is zero. -/
  levels : List Nat
  /-- Fixed by the first indented line. -/
  style : Option IndentStyle
  /-- The last lexeme can end a line that has not ended yet. -/
  lineOpen : Bool
  /-- The logical line has no lexeme yet. -/
  lineStart : Bool
  /-- How many brackets are open. -/
  depth : Nat
  deriving DecidableEq, Repr

namespace Layout

def start : Layout :=
  { levels := [0], style := none, lineOpen := false, lineStart := true, depth := 0 }

/-- The width of the innermost open block. -/
def top (l : Layout) : Nat := l.levels.headD 0

/-- Opens or closes blocks to reach the indentation `width`: each mark with the widths of the
blocks that are open behind it. -/
def settle (width : Nat) : List Nat → List (TokenKind × List Nat)
  | [] => if 0 < width then [(.indent, [width])] else []
  | level :: outer =>
    if width < level then
      if outer.headD 0 < width then [(.error .badDedent, width :: outer)]
      else (.dedent, outer) :: settle width outer
    else if level < width then [(.indent, width :: level :: outer)]
    else []

/-- The kind of blank that a line uses: none if it is not indented, an error if both. -/
def styleOf (leading : Leading) : Except ScanError (Option IndentStyle) :=
  if leading.width = 0 then .ok none
  else if leading.spaces && leading.tabs then .error .mixedIndentation
  else .ok (some (if leading.tabs then .tabs else .spaces))

/-- The style after a line with the given blanks, which has to agree with the lines before. -/
def adopt (style : Option IndentStyle) (leading : Leading) :
    Except ScanError (Option IndentStyle) :=
  match styleOf leading, style with
  | .error e, _ => .error e
  | .ok none, style => .ok style
  | .ok new, none => .ok new
  | .ok new, some old => if new = some old then .ok (some old) else .error .mixedIndentation

/-- The indentation that a line break stands for: none inside brackets or in the middle of a
logical line. -/
def measured (l : Layout) (entered : Option Leading) : Option Leading :=
  if l.depth = 0 && (l.lineOpen || l.lineStart) then entered else none

/-- Whether the logical line ends in front of the next lexeme. -/
def ends (l : Layout) (entered : Option Leading) (atEnd : Bool) : Bool :=
  l.lineOpen && l.depth = 0 && (entered.isSome || atEnd)

/-- The state behind the end of a logical line. -/
def endLine (l : Layout) : Layout := { l with lineOpen := false, lineStart := true }

/-- The state behind marks that start in the state `l`. -/
def behind (l : Layout) (marks : List (TokenKind × Layout)) : Layout :=
  (marks.getLast?.map Prod.snd).getD l

/-- The marks that a change of the indentation to `width` stands for, each with the state behind
it. -/
def blocks (l : Layout) (width : Nat) : List (TokenKind × Layout) :=
  (settle width l.levels).map fun (kind, levels) => (kind, { l with levels })

/-- The marks in front of the next lexeme, or in front of the end of the text, given the blanks
of the line that was entered since the last lexeme: each mark with the state behind it, and
the state behind all of them. -/
def enter (l : Layout) (entered : Option Leading) (atEnd : Bool) :
    List (TokenKind × Layout) × Layout :=
  let (line, l') : List (TokenKind × Layout) × Layout :=
    if l.ends entered atEnd then ([(.newline, l.endLine)], l.endLine) else ([], l)
  let (complaint, width, l') : List (TokenKind × Layout) × Nat × Layout :=
    match l.measured entered with
    | none => ([], l.top, l')
    | some leading =>
      match adopt l.style leading with
      | .ok style => ([], leading.width, { l' with style })
      | .error e => ([(.error e, l')], l.top, l')
  let marks := l'.blocks (if atEnd then 0 else width)
  (line ++ complaint ++ marks, l'.behind marks)

/-- The number of open brackets after a token. -/
def bracket (depth : Nat) : TokenKind → Nat
  | .symbol .lparen | .symbol .lbracket | .symbol .lbrace => depth + 1
  | .symbol .rparen | .symbol .rbracket | .symbol .rbrace => depth - 1
  | _ => depth

/-- The state behind a lexeme. What could not be read leaves the line as it was. -/
def after (l : Layout) (kind : TokenKind) : Layout :=
  if kind.isError then l
  else
    { l with
      depth := bracket l.depth kind
      lineOpen := kind.canEndLine
      lineStart := false }

end Layout

end DocScript
