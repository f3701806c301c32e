import Pipewright.Json.Basic
import Pipewright.Number.Layout

/-! JSON texts: a compact form and one over several lines. -/
namespace Pipewright.Json

def hexDigit (n : Nat) : Char := if n < 10 then Char.ofNat (48 + n) else Char.ofNat (87 + n)

/-- Only the quote, the backslash and control characters are escaped. -/
def escapeChar (c : Char) : List Char :=
  if c = '"' then ['\\', '"']
  else if c = '\\' then ['\\', '\\']
  else if c = '\n' then ['\\', 'n']
  else if c = '\r' then ['\\', 'r']
  else if c = '\t' then ['\\', 't']
  else if c = '\x08' then ['\\', 'b']
  else if c = '\x0c' then ['\\', 'f']
  else if c.toNat < 0x20 then
    ['\\', 'u', '0', '0', hexDigit (c.toNat / 16), hexDigit (c.toNat % 16)]
  else [c]

def quoteChars : List Char → List Char
  | [] => []
  | c :: r => escapeChar c ++ quoteChars r

def quoteText (s : String) : List Char := '"' :: (quoteChars s.toList ++ ['"'])

/-- A double as a number, or `null` where JSON has no number for it. -/
def floatText : Binary64 → List Char
  | .finite s m e => (DecimalLayout.json.finiteText s m e).toList
  | _ => ['n', 'u', 'l', 'l']

def scalarText : Json → List Char
  | .null => ['n', 'u', 'l', 'l']
  | .bool true => ['t', 'r', 'u', 'e']
  | .bool false => ['f', 'a', 'l', 's', 'e']
  | .int i => (toString i).toList
  | .float x => floatText x
  | .str s => quoteText s
  | .arr _ | .obj _ => []

mutual
/-- The compact text of a value. -/
def chars : Json → List Char
  | .arr items => '[' :: (itemChars items ++ [']'])
  | .obj ms => '{' :: (memberChars ms ++ ['}'])
  | v => scalarText v

def itemChars : List Json → List Char
  | [] => []
  | [v] => chars v
  | v :: w :: r => chars v ++ ',' :: itemChars (w :: r)

def memberChars : List (String × Json) → List Char
  | [] => []
  | [(n, v)] => quoteText n ++ ':' :: chars v
  | (n, v) :: m :: r => quoteText n ++ ':' :: (chars v ++ ',' :: memberChars (m :: r))
end

def compact (v : Json) : String := String.ofList (chars v)

def blanks (n : Nat) : List Char := List.replicate n ' '

mutual
/-- The text with each item on its own line, two blanks deeper than what holds it; empty
collections stay on one line. -/
def linedChars (depth : Nat) : Json → List Char
  | .arr [] => ['[', ']']
  | .obj [] => ['{', '}']
  | .arr items => '[' :: (linedItems (depth + 1) items ++ '\n' :: (blanks (2 * depth) ++ [']']))
  | .obj ms => '{' :: (linedMembers (depth + 1) ms ++ '\n' :: (blanks (2 * depth) ++ ['}']))
  | v => scalarText v

def linedItems (depth : Nat) : List Json → List Char
  | [] => []
  | [v] => '\n' :: (blanks (2 * depth) ++ linedChars depth v)
  | v :: w :: r =>
    '\n' :: (blanks (2 * depth) ++ linedChars depth v ++ ',' :: linedItems depth (w :: r))

def linedMembers (depth : Nat) : List (String × Json) → List Char
  | [] => []
  | [(n, v)] => '\n' :: (blanks (2 * depth) ++ quoteText n ++ ':' :: ' ' :: linedChars depth v)
  | (n, v) :: m :: r =>
    '\n' :: (blanks (2 * depth) ++ quoteText n ++ ':' :: ' ' ::
      (linedChars depth v ++ ',' :: linedMembers depth (m :: r)))
end

def lined (v : Json) : String := String.ofList (linedChars 0 v)

end Pipewright.Json
