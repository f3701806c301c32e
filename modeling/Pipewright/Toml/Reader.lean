import Pipewright.Text.Lines
import Pipewright.Text.Quoted
import Pipewright.Toml.Number
import Pipewright.Toml.Table

/-! Reading of TOML texts. Each reader gives nothing where a text goes against the format. -/
namespace Pipewright.Toml
open Pipewright.Text

abbrev Rest := List Char

def isSpace (c : Char) : Bool := c = ' ' || c = '\t'
def skipSpace (cs : List Char) : List Char := cs.dropWhile isSpace

/-- Whether a character can stand in comments and literal strings. -/
def isPlain (c : Char) : Bool := c = '\t' || (0x20 ≤ c.toNat && c.toNat ≠ 0x7F)

/-- What follows a newline at the start of a text. -/
def newline? : List Char → Option Rest
  | '\n' :: r => some r
  | '\r' :: '\n' :: r => some r
  | _ => none

/-- Skips a comment at the start of a text. -/
def skipComment? : List Char → Option Rest
  | '#' :: r =>
    let r := r.dropWhile isPlain
    if r.isEmpty || (newline? r).isSome then some r else none
  | r => some r

/-- Skips spaces, newlines and comments. -/
def skipBlank? : (fuel : Nat) → List Char → Option Rest
  | 0, r => some r
  | n + 1, cs =>
    match skipSpace cs with
    | '#' :: r => (skipComment? ('#' :: r)).bind (skipBlank? n)
    | r =>
      match newline? r with
      | some r => skipBlank? n r
      | none => some r

/-! Strings -/

/-- The character of an escape whose backslash has been read. -/
def escape? : List Char → Option (Char × Rest)
  | 'b' :: r => some ('\x08', r)
  | 't' :: r => some ('\t', r)
  | 'n' :: r => some ('\n', r)
  | 'f' :: r => some ('\x0c', r)
  | 'r' :: r => some ('\r', r)
  | '"' :: r => some ('"', r)
  | '\\' :: r => some ('\\', r)
  | c :: r =>
    let width := if c = 'u' then 4 else if c = 'U' then 8 else 0
    if width = 0 || r.length < width then none
    else ((number? 16 (r.take width)).bind charOf?).map fun d => (d, r.drop width)
  | [] => none

def basicString? : (fuel : Nat) → List Char → Option (List Char × Rest)
  | 0, _ => none
  | n + 1, cs =>
    match cs with
    | '"' :: r => some ([], r)
    | '\\' :: r => do
      let (c, r) ← escape? r
      let (s, r) ← basicString? n r
      some (c :: s, r)
    | c :: r => if isPlain c then (basicString? n r).map fun (s, r) => (c :: s, r) else none
    | [] => none

def literalString? : List Char → Option (List Char × Rest)
  | '\'' :: r => some ([], r)
  | c :: r => if isPlain c then (literalString? r).map fun (s, r) => (c :: s, r) else none
  | [] => none

/-- The quotes at the start of a text, at most five: those before the last three are text. -/
def closing? (mark : Char) (cs : List Char) : Option (List Char × Rest) :=
  let n := min 5 (cs.takeWhile (· = mark)).length
  if n < 3 then none else some (List.replicate (n - 3) mark, cs.drop n)

/-- Skips spaces and newlines. -/
def skipWhite : List Char → Rest
  | ' ' :: r | '\t' :: r | '\n' :: r => skipWhite r
  | '\r' :: '\n' :: r => skipWhite r
  | r => r

/-- A backslash at the end of a line takes the newline and all blank text after it. -/
def lineEnd? (cs : List Char) : Option Rest := (newline? (skipSpace cs)).map skipWhite

def longBasic? : (fuel : Nat) → List Char → Option (List Char × Rest)
  | 0, _ => none
  | n + 1, cs =>
    match closing? '"' cs with
    | some r => some r
    | none =>
      match cs with
      | '\\' :: r =>
        match lineEnd? r with
        | some r => longBasic? n r
        | none => do
          let (c, r) ← escape? r
          let (s, r) ← longBasic? n r
          some (c :: s, r)
      | c :: r =>
        match newline? (c :: r) with
        | some r => (longBasic? n r).map fun (s, r) => ('\n' :: s, r)
        | none => if isPlain c then (longBasic? n r).map fun (s, r) => (c :: s, r) else none
      | [] => none

def longLiteral? : (fuel : Nat) → List Char → Option (List Char × Rest)
  | 0, _ => none
  | n + 1, cs =>
    match closing? '\'' cs with
    | some r => some r
    | none =>
      match newline? cs, cs with
      | some r, _ => (longLiteral? n r).map fun (s, r) => ('\n' :: s, r)
      | none, c :: r => if isPlain c then (longLiteral? n r).map fun (s, r) => (c :: s, r) else none
      | none, [] => none

/-- A newline right after the opening quotes is no text. -/
def dropNewline (cs : List Char) : Rest := (newline? cs).getD cs

def string? (cs : List Char) : Option (String × Rest) :=
  let text := fun (p : List Char × Rest) => (String.ofList p.1, p.2)
  match cs with
  | '"' :: '"' :: '"' :: r => (longBasic? (r.length + 1) (dropNewline r)).map text
  | '\'' :: '\'' :: '\'' :: r => (longLiteral? (r.length + 1) (dropNewline r)).map text
  | '"' :: r => (basicString? (r.length + 1) r).map text
  | '\'' :: r => (literalString? r).map text
  | _ => none

/-! Keys -/

def isBareKey (c : Char) : Bool := isAsciiLetter c || isDigit c || c = '_' || c = '-'

def simpleKey? (cs : List Char) : Option (String × Rest) :=
  match cs with
  | '"' :: r => (basicString? (r.length + 1) r).map fun (s, r) => (String.ofList s, r)
  | '\'' :: r => (literalString? r).map fun (s, r) => (String.ofList s, r)
  | _ =>
    let name := cs.takeWhile isBareKey
    if name.isEmpty then none else some (String.ofList name, cs.dropWhile isBareKey)

/-- Keys with dots between them: those before the last one, and the last one. -/
def key? : (fuel : Nat) → List Char → Option (List String × String × Rest)
  | 0, _ => none
  | n + 1, cs => do
    let (k, r) ← simpleKey? (skipSpace cs)
    match skipSpace r with
    | '.' :: r =>
      let (path, last, r) ← key? n r
      some (k :: path, last, r)
    | r => some ([], k, r)

/-! Values -/

def isScalarChar (c : Char) : Bool :=
  isAsciiLetter c || isDigit c || c = '_' || c = '+' || c = '-' || c = '.' || c = ':'

/-- The characters of a value without quotes. A space may part a date from a time. -/
def scalarRun (cs : List Char) : List Char × Rest :=
  let run := cs.takeWhile isScalarChar
  let r := cs.dropWhile isScalarChar
  match r with
  | ' ' :: c :: r' =>
    if isDigit c && (date? run).any fun p => p.2.isEmpty then
      (run ++ ' ' :: (c :: r').takeWhile isScalarChar, (c :: r').dropWhile isScalarChar)
    else (run, r)
  | _ => (run, r)

mutual
def value? : (fuel : Nat) → List Char → Option (Json × Rest)
  | 0, _ => none
  | n + 1, cs =>
    match cs with
    | '[' :: r => (arrayItems? n r).map fun (vs, r) => (.arr vs, r)
    | '{' :: r =>
      match skipSpace r with
      | '}' :: r => some (.obj [], r)
      | r => (pairs? n [] r).map fun (es, r) => (.obj (entryData es), r)
    | '"' :: _ | '\'' :: _ => (string? cs).map fun (s, r) => (.str s, r)
    | _ =>
      let (run, r) := scalarRun cs
      (scalar? run).map fun v => (v, r)

/-- The items of an array up to its closing bracket. -/
def arrayItems? : (fuel : Nat) → List Char → Option (List Json × Rest)
  | 0, _ => none
  | n + 1, cs => do
    match ← skipBlank? (cs.length + 1) cs with
    | ']' :: r => some ([], r)
    | r =>
      let (v, r) ← value? n r
      match ← skipBlank? (r.length + 1) r with
      | ',' :: r =>
        let (vs, r) ← arrayItems? n r
        some (v :: vs, r)
      | ']' :: r => some ([v], r)
      | _ => none

/-- The pairs of an inline table up to its closing brace. -/
def pairs? : (fuel : Nat) → (done : List (String × Item)) → List Char →
    Option (List (String × Item) × Rest)
  | 0, _, _ => none
  | n + 1, done, cs => do
    let (path, key, r) ← key? (cs.length + 1) cs
    let r ← afterMark? '=' (skipSpace r)
    let (v, r) ← value? n (skipSpace r)
    let done ← setValue? path key v .header done
    match skipSpace r with
    | ',' :: r => pairs? n done r
    | '}' :: r => some (done, r)
    | _ => none
end

/-! Documents -/

/-- Skips the end of a line: spaces, a comment and the newline. -/
def endLine? (cs : List Char) : Option Rest := do
  let r ← skipComment? (skipSpace cs)
  if r.isEmpty then some [] else newline? r

structure Document where
  /-- The keys of the header that values go to. -/
  header : List String
  root : List (String × Item)

/-- One line of a document. -/
def statement? (d : Document) (cs : List Char) : Option (Document × Rest) :=
  match cs with
  | '[' :: '[' :: r => do
    let (path, key, r) ← key? (r.length + 1) r
    let r ← (afterMark? ']' r).bind (afterMark? ']')
    let root ← addTable? path key d.root
    some (⟨path ++ [key], root⟩, ← endLine? r)
  | '[' :: r => do
    let (path, key, r) ← key? (r.length + 1) r
    let r ← afterMark? ']' r
    let root ← openTable? path key d.root
    some (⟨path ++ [key], root⟩, ← endLine? r)
  | _ => do
    let (path, key, r) ← key? (cs.length + 1) cs
    let r ← afterMark? '=' r
    let (v, r) ← value? (2 * r.length + 2) (skipSpace r)
    let root ← setIn? d.header path key v d.root
    some (⟨d.header, root⟩, ← endLine? r)

def statements? : (fuel : Nat) → Document → List Char → Option Document
  | 0, _, _ => none
  | n + 1, d, cs => do
    match ← skipBlank? (cs.length + 1) cs with
    | [] => some d
    | r =>
      let (d, r) ← statement? d r
      statements? n d r

/-- Reads a document. A byte order mark may stand in front of it. -/
def read? (s : String) : Option Json :=
  let cs := match s.toList with
    | '\uFEFF' :: r => r
    | r => r
  (statements? (cs.length + 1) ⟨[], []⟩ cs).map fun d => .obj (entryData d.root)

end Pipewright.Toml
