import Pipewright.Literal.Reader
import Pipewright.Signature
import Pipewright.Source.Layout
import Pipewright.Text.Lines

/-! Function definitions in the logical lines of a source. -/
namespace Pipewright.Source
open Pipewright.Text

def trimTrivia (ts : List Token) : List Token :=
  ((ts.dropWhile Token.isTrivia).reverse.dropWhile Token.isTrivia).reverse

/-- The text of tokens without the trivia around them. -/
def textOf (ts : List Token) : String := String.ofList (Literal.exprText (trimTrivia ts))

/-! Parameters -/

/-- What one item of a parameter list says. -/
inductive ParamItem where
  | separator (keywordsFollow : Bool)
  | param (p : Param)
  /-- A pattern without a name of its own. -/
  | unnamed

def paramName (ts : List Token) : String :=
  trimmed (String.ofList ((Literal.exprText ts).dropWhile (· = '*')))

/-- Reads one item; `keywords` says that plain parameters are passed by keyword only. -/
def paramItem (keywords : Bool) (ts : List Token) : ParamItem :=
  match trimTrivia ts with
  | [] => .unnamed
  | t :: r =>
    let (front, default?) := match splitAtTop (·.isMark "=") 0 0 (t :: r) with
      | (a, some (_, v)) => (a, some (trimTrivia v))
      | (a, none) => (a, none)
    let (target, annotation?) := match splitAtTop (·.isMark ":") 0 0 front with
      | (a, some (_, v)) => (trimTrivia a, some (textOf v))
      | (a, none) => (trimTrivia a, none)
    let named (kind : ParamKind) : ParamItem :=
      .param ⟨paramName target, kind, annotation?, default?.map Literal.ofTokens⟩
    if t.isMark "*" then if r.isEmpty then .separator true else named .rest
    else if t.isMark "/" then .separator false
    else if t.isMark "**" then named .keywordRest
    else if t.kind = .word then named (if keywords then .keywordOnly else .positional)
    else .unnamed

/-- The parameters among the items of a parameter list. -/
def paramsOf (keywords : Bool) : List (List Token) → List Param
  | [] => []
  | i :: is =>
    match paramItem keywords i with
    | .separator k => paramsOf (keywords || k) is
    | .unnamed => paramsOf keywords is
    | .param p => p :: paramsOf (keywords || p.kind = .rest) is

/-- The items of a parameter list. -/
def paramPieces (inside : List Token) : List (List Token) :=
  splitAllTop (·.isMark ",") inside.length inside

/-- The text of a parameter list from which the first item is cut, up to the start of the next
item or, if there is none, to its own end. -/
def cutFirst (inside rest : List Token) : List Char :=
  let isSpacer (t : Token) : Bool := t.kind = .comment || t.kind = .newline
  let front := inside.takeWhile isSpacer
  match inside.dropWhile isSpacer with
  | [] => spell inside ++ spell rest
  | t :: ts =>
    let behind :=
      if t.kind = .joint then ts
      else
        let (item, r) := splitAtTop (·.isMark ",") 0 0 (t :: ts)
        let trail := (item.reverse.takeWhile Token.isTrivia).reverse
        trail ++ (match r with
          | some (comma, r) => comma :: r
          | none => [])
    let next := behind.dropWhile fun t => isSpacer t || t.isMark ","
    spell front ++ t.gap ++
      (match next with
        | [] => spell behind ++ spell rest
        | u :: us => u.text ++ spell us ++ spell rest)

/-! Definitions -/

/-- The header of a definition. -/
structure Header where
  name : String
  /-- The tokens up to and with the bracket that opens the parameters. -/
  front : List Token
  inside : List Token
  /-- The tokens from the bracket that closes the parameters. -/
  behind : List Token
  returns : Option String
  /-- The tokens after the colon. -/
  tail : List Token

/-- Splits off the first token that carries syntax, with the trivia before it. -/
def firstSignificant : List Token → Option (List Token × Token × List Token)
  | [] => none
  | t :: ts =>
    if t.isTrivia then (firstSignificant ts).map fun (a, u, r) => (t :: a, u, r)
    else some ([], t, ts)

/-- Reads the parameters from the first bracket on; square brackets before it hold type
parameters. -/
def headerFrom (name : String) (front ts : List Token) : Option Header := do
  let (before, t, r) ← firstSignificant ts
  if t.isMark "(" then
    let (inside, behind) := bracketed 0 r
    let (signature, colon) := splitAtTop (·.isMark ":") 0 0 (behind.drop 1)
    let returns := match firstSignificant signature with
      | some (_, a, r) => if a.isMark "->" then some (textOf r) else none
      | none => none
    some ⟨name, front ++ before ++ [t], inside, behind, returns, (colon.map Prod.snd).getD []⟩
  else none

def skipTypeParams (front ts : List Token) : List Token × List Token :=
  match firstSignificant ts with
  | some (before, t, r) =>
    if t.isMark "[" then
      let (inside, behind) := bracketed 0 r
      (front ++ before ++ t :: inside ++ behind.take 1, behind.drop 1)
    else (front, ts)
  | none => (front, ts)

/-- The header of a line that defines a function. -/
def header? (ts : List Token) : Option Header := do
  let (before, t, r) ← firstSignificant ts
  let (before, t, r) ←
    if t.isWord "async" then
      (firstSignificant r).map fun (b, u, r) => (before ++ t :: b, u, r)
    else some (before, t, r)
  if t.isWord "def" then
    let (between, name, r) ← firstSignificant r
    let (front, r) := skipTypeParams (before ++ t :: between ++ [name]) r
    headerFrom (String.ofList name.text) front r
  else none

/-- The first statement of a line, and what follows it. -/
def firstStatement (ts : List Token) : List Token × List Token :=
  let (a, r) := splitAtTop (·.isMark ";") 0 0 ts
  let trail := (a.reverse.takeWhile Token.isTrivia).reverse
  (a.take (a.length - trail.length), trail ++ (match r with
    | some (t, r) => t :: r
    | none => []))

/-- The text of a string between its quotes, escapes left as they are. -/
def docText (text : List Char) : List Char := (Literal.splitString text).2

/-- The docstring that opens a body, and the tokens after its statement. -/
def docstring? (ts : List Token) : Option (List Char × List Token) :=
  let (statement, r) := firstStatement ts
  match statement with
  | t :: s =>
    if t.kind = .string && (s.filter fun u => !u.isTrivia).head?.all (·.isMark ",") then
      some (docText t.text, r)
    else none
  | [] => none

/-- The docstring of a body given by its lines, and the text after it. -/
def bodyDocstring? : List Line → Option (List Char × List Char)
  | [] => none
  | l :: ls =>
    if l.isComment then bodyDocstring? ls
    else (docstring? l.tokens).map fun (d, r) => (d, spell r ++ ls.flatMap Line.spelling)

/-- The bytes of a text. -/
def byteLength (cs : List Char) : Nat := (String.ofList cs).utf8ByteSize

/-- The signature of a function whose definition starts with the lines of its decorators. Joints in
front of the first of its lines are no part of it. -/
def signatureOf (decorators : List Line) (l : Line) (h : Header) (body : List Line) : Signature :=
  let params := paramsOf false (paramPieces h.inside)
  let isMethod := params.head?.any fun p => p.name = "self"
  let doc : Option (List Char × List Char) :=
    if h.tail.all Token.isTrivia then bodyDocstring? body
    else (docstring? h.tail).map fun (d, r) => (d, spell r)
  let after := body.flatMap Line.spelling
  let front := if decorators.isEmpty then Literal.skipJoints h.front else h.front
  let definition := spell front ++
    (if isMethod then cutFirst h.inside h.behind else spell h.inside ++ spell h.behind)
  let whole := match decorators with
    | [] => definition ++ after
    | d :: ds => spell (Literal.skipJoints d.tokens) ++ ds.flatMap Line.spelling ++
        spell l.lead ++ definition ++ after
  let first := Literal.skipJoints (match decorators with
    | [] => l.tokens
    | d :: _ => d.tokens)
  { name := h.name
    params := if isMethod then params.tail else params
    returns := h.returns
    docstring := doc.map fun p => String.ofList p.1
    source := String.ofList (dedent (trimEnd whole))
    body := String.ofList (dedent (trimEnd ((doc.map Prod.snd).getD (spell h.tail ++ after))))
    indent := byteLength ((first.head?.map Token.gap).getD []) }

/-- The definitions of a source in order, nested ones included. `decorators` are the lines of
decorators read since the last statement. -/
def signaturesOf (decorators : List Line) : List Line → List Signature
  | [] => []
  | l :: ls =>
    if l.isComment then
      signaturesOf (if decorators.isEmpty then [] else decorators ++ [l]) ls
    else if (l.significant.head?).any (·.isMark "@") then signaturesOf (decorators ++ [l]) ls
    else
      match header? l.tokens with
      | some h =>
        signatureOf decorators l h (ls.takeWhile fun m => l.level < m.level) :: signaturesOf [] ls
      | none => signaturesOf [] ls

end Pipewright.Source
