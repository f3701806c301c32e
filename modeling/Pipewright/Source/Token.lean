import Pipewright.Text.Blank
import Pipewright.Text.Digits

/-! Tokens of script sources. A token carries the blank text in front of it, so the tokens of a
source spell the whole source. -/
namespace Pipewright.Source
open Pipewright.Text

inductive TokenKind where
  | word
  | whole
  | decimal
  | string
  | mark
  | comment
  | newline
  /-- A backslash that joins two lines. -/
  | joint
  /-- A character that starts no token, or a string that is not closed. -/
  | stray
  deriving DecidableEq, Repr, Inhabited

structure Token where
  gap : List Char
  kind : TokenKind
  text : List Char
  deriving Repr, Inhabited

namespace Token

def spelling (t : Token) : List Char := t.gap ++ t.text
def isMark (t : Token) (s : String) : Bool := t.kind = .mark && t.text = s.toList
def isWord (t : Token) (s : String) : Bool := t.kind = .word && t.text = s.toList

/-- Tokens that carry no syntax. -/
def isTrivia (t : Token) : Bool := t.kind = .comment || t.kind = .newline || t.kind = .joint

def opens (t : Token) : Bool := t.isMark "(" || t.isMark "[" || t.isMark "\x7b"
def closes (t : Token) : Bool := t.isMark ")" || t.isMark "]" || t.isMark "\x7d"

end Token

/-- The text that tokens spell. -/
def spell (ts : List Token) : List Char := ts.flatMap Token.spelling

/-! Character classes -/

/-- Blank characters within a line; byte order marks and word joiners count too. -/
def isGap (c : Char) : Bool :=
  (isBlank c && c ≠ '\n') || c = '\uFEFF' || c = '\u2060' || c = '\u200B'

def isWordStart (c : Char) : Bool :=
  isAsciiLetter c || c = '_' || (128 ≤ c.toNat && !isBlank c && !isGap c)

def isWordChar (c : Char) : Bool := isWordStart c || isDigit c

def isQuoteMark (c : Char) : Bool := c = '\'' || c = '"' || c = '`'

/-! Numbers: each function counts the characters it takes from the start of a text. -/

/-- Groups of digits, each with at most one underscore before it. -/
def basedLength (digit : Char → Bool) : List Char → Nat
  | '_' :: c :: r => if digit c then 2 + basedLength digit r else 0
  | c :: r => if digit c then 1 + basedLength digit r else 0
  | [] => 0

/-- Groups of digits, each with at most one underscore after it. -/
def digitsLength : List Char → Nat
  | c :: '_' :: r => if isDigit c then 2 + digitsLength r else 0
  | c :: r => if isDigit c then 1 + digitsLength r else 0
  | [] => 0

/-- An exponent with its mark, or nothing. -/
def exponentLength : List Char → Nat
  | c :: r =>
    if c = 'e' || c = 'E' then
      let signs := match r with
        | '+' :: _ | '-' :: _ => 1
        | _ => 0
      let n := digitsLength (r.drop signs)
      if n = 0 then 0 else 1 + signs + n
    else 0
  | [] => 0

def suffixLength (marks : List Char) : List Char → Nat
  | c :: _ => if marks.contains c then 1 else 0
  | [] => 0

def baseDigit? (c : Char) : Option (Char → Bool) :=
  if c = 'x' || c = 'X' then some isHexDigit
  else if c = 'o' || c = 'O' then some fun d => '0' ≤ d && d ≤ '7'
  else if c = 'b' || c = 'B' then some fun d => d = '0' || d = '1'
  else none

/-- A number without base mark. -/
def plainNumber (cs : List Char) : TokenKind × Nat :=
  let whole := digitsLength cs
  match cs.drop whole with
  | '.' :: r =>
    let fraction := digitsLength r
    let n := whole + 1 + fraction
    let n := n + exponentLength (cs.drop n)
    (.decimal, n + suffixLength ['j', 'J'] (cs.drop n))
  | r =>
    let e := exponentLength r
    if e = 0 then (.whole, whole + suffixLength ['l', 'L', 'j', 'J'] r)
    else (.decimal, whole + e + suffixLength ['j', 'J'] (r.drop e))

/-- The number at the start of a text. -/
def numberLength (cs : List Char) : TokenKind × Nat :=
  match cs with
  | '0' :: b :: r =>
    match baseDigit? b with
    | some digit =>
      let n := basedLength digit r
      if n = 0 then plainNumber cs
      else (.whole, 2 + n + suffixLength ['l', 'L'] (r.drop n))
    | none => plainNumber cs
  | _ => plainNumber cs

/-! Strings -/

/-- What a string is written with. -/
structure Quotes where
  mark : Char
  triple : Bool
  raw : Bool
  format : Bool
  deriving DecidableEq, Repr

/-- Where a scan inside a string stands: in its text, in a replacement field, or in the format
that ends a field. `fresh` holds right after the opening quote, an escape and a field: only
there a newline is text of a string in single quotes. -/
inductive Frame where
  | text (q : Quotes) (fresh : Bool)
  | field (depth : Nat) (word : List Char)
  | format
  deriving Repr

/-- The number of characters an escape takes after its backslash; none if it is no escape. -/
def escapeLength : List Char → Nat
  | [] => 0
  | c :: r =>
    if c = 'u' then if ((r.take 4).takeWhile isHexDigit).length = 4 then 5 else 0
    else if c = 'U' then if ((r.take 8).takeWhile isHexDigit).length = 8 then 9 else 0
    else if c = 'x' then if ((r.take 2).takeWhile isHexDigit).length = 2 then 3 else 0
    else if isDigit c then 1 + ((r.take 2).takeWhile isDigit).length
    else if c = '\n' then 1
    else if c = '\r' then if r.head? = some '\n' then 2 else 0
    else if c = 'N' then
      match r with
      | '{' :: r =>
        let name := r.takeWhile (· ≠ '}')
        if name.isEmpty || name.length = r.length then 0 else name.length + 3
      | _ => 0
    else if ['\'', '"', 'a', 'b', 'f', 'n', 'r', 't', 'v', '\\'].contains c then 1
    else 0

/-- The number of characters that a raw string takes after a backslash without looking. -/
def rawEscapeLength (mark : Char) (cs : List Char) : Nat :=
  let n := match cs with
    | c :: _ => if c = mark || c = '\\' then 1 else 0
    | [] => 0
  match cs.drop n with
  | '\r' :: '\n' :: _ => n + 2
  | '\r' :: _ | '\n' :: _ => n + 1
  | _ => n

/-- The quotes that a mark opens after the letters in front of it, and how many more characters
belong to the opening. -/
def openQuotes (word : List Char) (mark : Char) (cs : List Char) : Quotes × Nat :=
  let triple := mark ≠ '`' && cs.take 2 = [mark, mark]
  (⟨mark, triple, word.any fun c => c = 'r' || c = 'R', word.any fun c => c = 'f' || c = 'F'⟩,
    if triple then 2 else 0)

/-- Whether letters may stand in front of a quote. -/
def isStringLead (word : List Char) : Bool :=
  word.all fun c => "fFrRbBuU".toList.contains c

inductive Step where
  | fail
  | close (more : Nat)
  | go (frames : List Frame) (more : Nat)

/-- Leaves a replacement field. -/
def closeField : List Frame → List Frame
  | .text q _ :: fs => .text q true :: fs
  | fs => fs

/-- One character of the text of a string. -/
def stepText (q : Quotes) (fresh : Bool) (below : List Frame) (c : Char) (cs : List Char) : Step :=
  if q.format && c = '{' then
    if cs.head? = some '{' then .go (.text q true :: below) 1
    else .go (.field 0 [] :: .text q true :: below) 0
  else if q.format && c = '}' then
    if cs.head? = some '}' then .go (.text q true :: below) 1 else .fail
  else if c = '\\' then
    if q.raw then .go (.text q fresh :: below) (rawEscapeLength q.mark cs)
    else .go (.text q true :: below) (escapeLength cs)
  else if c = q.mark then
    if q.triple then
      if cs.take 2 = [c, c] then
        match below with
        | [] => .close 2
        | _ => .go below 2
      else .go (.text q true :: below) 0
    else
      match below with
      | [] => .close 0
      | _ => .go below 0
  else if c = '\n' && !q.triple && !fresh then .fail
  else .go (.text q false :: below) 0

/-- One character of a replacement field. -/
def stepField (depth : Nat) (word : List Char) (below : List Frame) (c : Char) (cs : List Char) :
    Step :=
  if isWordChar c then .go (.field depth (word ++ [c]) :: below) 0
  else if isQuoteMark c then
    let lead := if isStringLead word then word else []
    let (q, more) := openQuotes lead c cs
    .go (.text q true :: .field depth [] :: below) more
  else if c = '(' || c = '[' || c = '{' then .go (.field (depth + 1) [] :: below) 0
  else if c = '}' && depth = 0 then .go (closeField below) 0
  else if c = ')' || c = ']' || c = '}' then .go (.field (depth - 1) [] :: below) 0
  else if c = ':' && depth = 0 then .go (.format :: below) 0
  else .go (.field depth [] :: below) 0

def stepFormat (below : List Frame) (c : Char) : Step :=
  if c = '{' then .go (.field 0 [] :: .format :: below) 0
  else if c = '}' then .go (closeField below) 0
  else .go (.format :: below) 0

def stepFrame : List Frame → Char → List Char → Step
  | [], _, _ => .fail
  | .text q fresh :: below, c, cs => stepText q fresh below c cs
  | .field depth word :: below, c, cs => stepField depth word below c cs
  | .format :: below, c, _ => stepFormat below c

/-- The number of characters up to the end of a string; `more` of them are passed unseen. A null
character ends the text, so no string goes beyond it. -/
def stringLength : (more : Nat) → List Frame → List Char → Option Nat
  | _, _, [] => none
  | n + 1, frames, c :: cs =>
    if c = '\x00' then none else (stringLength n frames cs).map (· + 1)
  | 0, frames, c :: cs =>
    if c = '\x00' then none else
    match stepFrame frames c cs with
    | .fail => none
    | .close more => if more ≤ cs.length then some (1 + more) else none
    | .go frames more => (stringLength more frames cs).map (· + 1)

/-! The lexer -/

def markTexts : List (List Char) :=
  ["...", "**=", "//=", ">>=", "<<=", "->", ":=", "==", "!=", "<=", ">=", "<>", "+=", "-=", "*=",
    "/=", "//", "%=", "@=", "&=", "|=", "^=", ">>", "<<", "**"].map String.toList

def isMarkChar (c : Char) : Bool := "()[]\x7b\x7d,;:.=+-*/%@&|^~<>!".toList.contains c

/-- The number of characters after the first one that a mark takes. -/
def markLength (cs : List Char) : Nat :=
  match markTexts.find? fun m => m.isPrefixOf cs with
  | some m => m.length - 1
  | none => 0

/-- A string at the start of a text, its lead letters included. -/
def stringToken? (cs : List Char) : Option (TokenKind × Nat) :=
  let word := cs.takeWhile fun c => "fFrRbBuU".toList.contains c
  match cs.drop word.length with
  | mark :: r =>
    if isQuoteMark mark then
      let (q, more) := openQuotes word mark r
      match stringLength more [.text q true] r with
      | some n => some (.string, word.length + n)
      | none => some (.stray, cs.length - 1)
    else none
  | [] => none

/-- The kind of the token that starts with a character, and how many of the characters after it
belong to the token. -/
def munch (c : Char) (cs : List Char) : TokenKind × Nat :=
  if c = '\n' then (.newline, 0)
  else if c = '#' then (.comment, (cs.takeWhile (· ≠ '\n')).length)
  else if c = '\\' then
    match cs with
    | [] => (.joint, 0)
    | '\n' :: _ => (.joint, 1)
    | '\r' :: '\n' :: _ => (.joint, 2)
    | _ => (.stray, 0)
  else
    match stringToken? (c :: cs) with
    | some r => r
    | none =>
      if isWordStart c then (.word, (cs.takeWhile isWordChar).length)
      else if isDigit c || (c = '.' && (cs.head?.any isDigit)) then
        let (k, n) := numberLength (c :: cs)
        (k, n - 1)
      else if isMarkChar c then (.mark, markLength (c :: cs))
      else (.stray, 0)

/-- A joint in front of a string is blank text. -/
def absorb (t : Token) : List Token → List Token
  | s :: r =>
    if t.kind = .joint && s.kind = .string then { s with gap := t.gap ++ t.text ++ s.gap } :: r
    else t :: s :: r
  | [] => [t]

/-- The tokens of a text read after some blank text, and the blank text at its end. -/
def lexFrom (gap : List Char) (cs : List Char) : List Token × List Char :=
  match cs with
  | [] => ([], gap)
  | c :: r =>
    if isGap c then lexFrom (gap ++ [c]) r
    else
      let (kind, n) := munch c r
      let (ts, tail) := lexFrom [] (r.drop n)
      (absorb ⟨gap, kind, c :: r.take n⟩ ts, tail)
termination_by cs.length
decreasing_by all_goals (simp only [List.length_cons, List.length_drop]; omega)

/-- The tokens of a source. -/
def lex (cs : List Char) : List Token := (lexFrom [] cs).1

end Pipewright.Source
