import Pipewright.Source.Token

/-! Logical lines of a source and the depth of the block each stands in. -/
namespace Pipewright.Source
open Pipewright.Text

/-- A logical line: its tokens up to the newline that ends it, comments included, and the
newlines before it. A comment on its own is a line too. -/
structure Line where
  lead : List Token
  tokens : List Token
  /-- The number of blocks around the line. -/
  level : Nat
  deriving Repr, Inhabited

namespace Line

def spelling (l : Line) : List Char := spell l.lead ++ spell l.tokens

/-- The tokens that carry syntax. -/
def significant (l : Line) : List Token := l.tokens.filter fun t => !t.isTrivia

def isComment (l : Line) : Bool := l.tokens.all fun t => t.kind = .comment

/-- Whether a block may follow. -/
def opensBlock (l : Line) : Bool := (l.significant.getLast?).any fun t => t.isMark ":"

end Line

/-- Whether a statement goes on after this token, so that no newline ends it here. -/
def Token.dangles (t : Token) : Bool :=
  (t.kind = .mark &&
    ["=", "+", "-", "/", "%", "@", "&", "|", "^", "~", "<", ">", ".", "->", ":=", "==", "!=",
      "<=", ">=", "<>", "+=", "-=", "*=", "/=", "//", "%=", "@=", "&=", "|=", "^=", ">>", "<<",
      "**", "**=", "//=", ">>=", "<<="].any fun m => t.text = m.toList) ||
  (t.kind = .word &&
    ["and", "or", "not", "in", "is", "if", "elif", "else", "lambda", "await", "import", "from",
      "as", "del", "assert", "with", "for", "while", "def", "class", "global", "nonlocal"].any
      fun m => t.text = m.toList)

/-- Splits tokens at the newlines that end a logical line: those outside of brackets, after
something that can end there. `last` is the last token with syntax on the line so far. -/
def splitLines (depth : Nat) (last : Option Token) (lead line : List Token) :
    List Token → List Line
  | [] => if line.isEmpty then [] else [⟨lead, line, 0⟩]
  | t :: ts =>
    if t.kind = .newline then
      if line.isEmpty then splitLines 0 none (lead ++ [t]) [] ts
      else if depth = 0 && !(last.any Token.dangles) then
        ⟨lead, line, 0⟩ :: splitLines 0 none [t] [] ts
      else splitLines depth last lead (line ++ [t]) ts
    else
      let depth := if t.opens then depth + 1 else if t.closes then depth - 1 else depth
      splitLines depth (if t.isTrivia then last else some t) lead (line ++ [t]) ts

/-- Adds the width of blank text to a column: a tab counts eight, carriage returns and form feeds
start again, and any other character ends the count. -/
def gapWidth (column : Nat) : List Char → Nat
  | [] => column
  | c :: cs =>
    if c = ' ' then gapWidth (column + 1) cs
    else if c = '\t' then gapWidth (column + 8) cs
    else if c = '\r' || c = '\x0c' then gapWidth 0 cs
    else column

/-- The column of the first token of a line; joints in front of it are blank text. -/
def startColumn (column : Nat) : List Token → Nat
  | [] => column
  | t :: ts =>
    let column := gapWidth column t.gap
    if t.kind = .joint then startColumn column ts else column

def Line.column (l : Line) : Nat := startColumn 0 l.tokens

/-- The column of the next line that is not a comment; the end of the source is at column 0. -/
def nextColumn : List Line → Nat
  | [] => 0
  | l :: ls => if l.isComment then nextColumn ls else l.column

/-- Gives every line its level. `stack` holds the columns of the open blocks, `opened` says that
the line before may be followed by a block. A block ends before a line further left; comments
before that line still belong to the block if they are not further left themselves. -/
def place (stack : List Nat) (opened : Bool) : List Line → List Line
  | [] => []
  | l :: ls =>
    let next := nextColumn (l :: ls)
    let stack := if opened && stack.headD 0 < next then next :: stack else stack
    let stack := stack.dropWhile fun column => next < column && l.column < column
    { l with level := stack.length } :: place stack l.opensBlock ls

/-- The logical lines of a source. -/
def linesOf (cs : List Char) : List Line := place [] false (splitLines 0 none [] [] (lex cs))

end Pipewright.Source
