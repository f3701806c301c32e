import Pipewright.Literal.Printer
import Pipewright.Number.Reader
import Pipewright.Source.Brackets

/-! Reading of literal expressions of the script language. -/
namespace Pipewright.Literal
open Pipewright.Text Pipewright.Source

/-- The value of a whole number: decimal, or in the base its mark names. -/
def wholeValue? (text : List Char) : Option Literal :=
  let digits := text.filter (· ≠ '_')
  let n? := match digits.map lower with
    | '0' :: 'x' :: r => number? 16 r
    | '0' :: 'o' :: r => number? 8 r
    | '0' :: 'b' :: r => number? 2 r
    | _ => number? 10 digits
  n?.bind fun n => if n < Nat.pow 2 63 then some (.int n) else Option.none

/-- The value of a number with a point or an exponent. -/
def decimalValue? (text : List Char) : Option Literal :=
  (Binary64.readMagnitude? false (text.filter (· ≠ '_'))).map .float

/-- The letters before the quotes of a string, and what stands between the quotes. -/
def splitString (text : List Char) : List Char × List Char :=
  let lead := text.takeWhile isAsciiLetter
  let body := text.dropWhile isAsciiLetter
  let width := match body with
    | '"' :: '"' :: '"' :: _ => 3
    | '\'' :: '\'' :: '\'' :: _ => 3
    | _ => 1
  (lead, (body.drop width).take (body.length - 2 * width))

/-- The value of one string; a formatted string with fields has none. -/
def stringChars? (text : List Char) : Option (List Char) :=
  let (lead, inner) := splitString text
  let lead := lead.map lower
  if lead.contains 'f' && inner.contains '{' then Option.none
  else if lead.contains 'r' then some inner
  else some (unescape inner)

/-- The strings at the start of tokens, which stand for one. -/
def takeStrings : List Token → List Token × List Token
  | [] => ([], [])
  | t :: ts =>
    if t.kind = .string then
      let (ss, r) := takeStrings ts
      (t :: ss, r)
    else ([], t :: ts)

def joinStrings? (ts : List Token) : Option Literal :=
  (ts.mapM fun t => stringChars? t.text).map fun ss => .str (String.ofList ss.flatten)

def wordValue? (t : Token) : Option Literal :=
  if t.isWord "None" then some .none
  else if t.isWord "True" then some (.bool true)
  else if t.isWord "False" then some (.bool false)
  else Option.none

/-- A number with the sign in front of it. -/
def signed? (negative : Bool) : Literal → Option Literal
  | .int i => some (.int (if negative then -i else i))
  | .float x => some (.float (if negative then x.neg else x))
  | _ => Option.none

/-- The key under which a map holds a value: a string itself, else the script text. -/
def keyText : Literal → String
  | .str s => s
  | v => v.script

def skipJoints (ts : List Token) : List Token := ts.dropWhile fun t => t.kind = .joint

mutual
/-- Reads one literal. -/
def readValue : (fuel : Nat) → List Token → Option (Literal × List Token)
  | 0, _ => Option.none
  | _, [] => Option.none
  | n + 1, t :: ts =>
    match t.kind with
    | .word => (wordValue? t).map (·, ts)
    | .whole => (wholeValue? t.text).map (·, ts)
    | .decimal => (decimalValue? t.text).map (·, ts)
    | .string =>
      let (ss, r) := takeStrings ts
      (joinStrings? (t :: ss)).map (·, r)
    | .mark =>
      if t.isMark "-" || t.isMark "+" then
        match readValue n (skipJoints ts) with
        | some (v, r) => (signed? (t.isMark "-") v).map (·, r)
        | Option.none => Option.none
      else if t.isMark "[" then (readItems n "]" ts).map fun (vs, _, r) => (.list vs, r)
      else if t.isMark "(" then
        (readItems n ")" ts).map fun (vs, comma, r) =>
          match vs, comma with
          | [v], false => (v, r)
          | _, _ => (.list vs, r)
      else if t.isMark "\x7b" then (readEntries n ts).map fun (es, r) => (ofEntries es, r)
      else Option.none
    | _ => Option.none

/-- Reads items up to a closing bracket, and whether a comma follows the last of them. -/
def readItems : (fuel : Nat) → (close : String) → List Token →
    Option (List Literal × Bool × List Token)
  | 0, _, _ => Option.none
  | _, _, [] => Option.none
  | n + 1, close, t :: ts =>
    if t.isMark close then some ([], false, ts)
    else
      match readValue n (t :: ts) with
      | some (v, c :: r) =>
        if c.isMark close then some ([v], false, r)
        else if c.isMark "," then
          (readItems n close r).map fun (vs, comma, r) => (v :: vs, comma || vs.isEmpty, r)
        else Option.none
      | _ => Option.none

/-- Reads entries up to the closing brace. -/
def readEntries : (fuel : Nat) → List Token → Option (List (String × Literal) × List Token)
  | 0, _ => Option.none
  | _, [] => Option.none
  | n + 1, t :: ts =>
    if t.isMark "\x7d" then some ([], ts)
    else
      match (readValue n (t :: ts)).map fun (k, r) => (k, skipJoints r) with
      | some (k, c :: r) =>
        if !c.isMark ":" then Option.none
        else
          match readValue n (skipJoints r) with
          | some (v, e :: r) =>
            if e.isMark "\x7d" then some ([(keyText k, v)], r)
            else if e.isMark "," then (readEntries n r).map fun (es, r) => ((keyText k, v) :: es, r)
            else Option.none
          | _ => Option.none
      | _ => Option.none
end

/-- The value of an expression given by its tokens, if they are one literal. Comments are
passed over, newlines too: they can only stand within brackets here. -/
def ofTokens? (ts : List Token) : Option Literal :=
  let ts := ts.filter fun t => t.kind ≠ .comment && t.kind ≠ .newline
  match readValue (2 * ts.length + 2) ts with
  | some (v, []) => some v
  | _ => Option.none

/-- The text of an expression, without the trivia around it. -/
def exprText (ts : List Token) : List Char :=
  match ts with
  | [] => []
  | t :: r => t.text ++ spell r

/-- The value of an expression given by its tokens. -/
def ofTokens (ts : List Token) : Literal :=
  (ofTokens? ts).getD (.expr (String.ofList (exprText ts)))

/-- Whether the tokens up to a bracket depth of zero hold no newline: a newline outside of
brackets parts two statements unless it follows a sign. -/
def joinsLines (depth : Nat) (afterSign : Bool) : List Token → Bool
  | [] => true
  | t :: ts =>
    if t.kind = .newline then (0 < depth || afterSign) && joinsLines depth afterSign ts
    else if t.kind = .comment then joinsLines depth afterSign ts
    else
      let depth := if t.opens then depth + 1 else if t.closes then depth - 1 else depth
      joinsLines depth (t.isMark "-" || t.isMark "+") ts

def isSpacer (t : Token) : Bool := t.kind = .comment || t.kind = .newline

/-- Takes one mark off the end. -/
def dropEnd (mark : String) (ts : List Token) : List Token :=
  match ts.getLast? with
  | some t => if t.isMark mark then ts.dropLast else ts
  | Option.none => ts

/-- The statement a text consists of, without comments around it and the semicolon that may end
it. -/
def statementTokens (text : List Char) : List Token :=
  let ts := (lex text).dropWhile isSpacer
  dropEnd ";" (ts.reverse.dropWhile isSpacer).reverse

/-- Whether a mark gives a name a value or a type. -/
def assigns (t : Token) : Bool :=
  t.kind = .mark && [":", "=", "+=", "-=", "*=", "/=", "//=", "%=", "@=", "&=", "|=", "^=", ">>=",
    "<<=", "**="].any fun m => t.text = m.toList

/-- Whether a word joins operands instead of being one. -/
def isOperatorWord (t : Token) : Bool :=
  t.kind = .word && ["and", "or", "not", "in", "is", "if", "else", "for", "lambda", "await",
    "async", "yield", "from"].any fun w => t.text = w.toList

def startsOperand (t : Token) : Bool :=
  t.kind = .whole || t.kind = .decimal || t.kind = .string ||
    (t.kind = .word && !isOperatorWord t)

def endsOperand (t : Token) : Bool := startsOperand t || t.closes || t.isMark "..."

/-- Whether no operand stands right behind another one; strings may. -/
def alternates : List Token → Bool
  | t :: u :: r =>
    !(endsOperand t && startsOperand u && !(t.kind = .string && u.kind = .string)) &&
      alternates (u :: r)
  | _ => true

/-- Whether a word starts a statement that is no expression. -/
def startsStatement (t : Token) : Bool :=
  t.kind = .word && ["import", "from", "assert", "return", "del", "raise", "pass", "break",
    "continue", "global", "nonlocal", "if", "for", "while", "try", "with", "def", "class",
    "async"].any fun w => t.text = w.toList

/-- Whether every bracket has its partner. -/
def closesAll : (depth : Nat) → List Token → Bool
  | depth, [] => depth = 0
  | depth, t :: ts =>
    if t.opens then closesAll (depth + 1) ts
    else if t.closes then 0 < depth && closesAll (depth - 1) ts
    else closesAll depth ts

/-- Whether tokens form one statement that is an expression. -/
def isExpression (ts : List Token) : Bool :=
  ts.getLast?.any endsOperand && !(ts.head?.any startsStatement) && ts.all (·.kind ≠ .stray) &&
    closesAll 0 ts && alternates (ts.filter fun t => !t.isTrivia) &&
    ((splitAtTop (·.isMark ";") 0 0 ts).2).isNone

/-- Whether a statement stays whole although a comma stands in it outside of brackets. -/
def holdsCommas (ts : List Token) : Bool :=
  ts.head?.any (·.isWord "yield") || ((splitAtTop assigns 0 0 ts).2).isSome

/-- The only item of a statement that is an expression, if it has just one. -/
def item? (ts : List Token) : Option (List Token) :=
  let item := if holdsCommas ts then ts else dropEnd "," ts
  if isExpression item && (holdsCommas ts || ((splitAtTop (·.isMark ",") 0 0 item).2).isNone)
  then some item else Option.none

/-- Reads a text as a literal. Another expression is kept as it is written, and so is any other
text. -/
def read (s : String) : Literal :=
  let text := trim s.toList
  let ts := statementTokens text
  let item := if joinsLines 0 false ts then item? ts else Option.none
  let value := if joinsLines 0 false ts then ofTokens? (dropEnd "," ts) else Option.none
  value.getD (.expr (String.ofList ((item.map exprText).getD text)))

end Pipewright.Literal
