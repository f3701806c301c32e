import Pipewright.Text.Digits

/-! Text between single quotes, and the meaning of backslash escapes. -/
namespace Pipewright.Text

/-- The written form of one character between single quotes. -/
def escapeQuoted (c : Char) : List Char :=
  if c = '\\' then ['\\', '\\']
  else if c = '\'' then ['\\', '\'']
  else if c = '\n' then ['\\', 'n']
  else if c = '\t' then ['\\', 't']
  else if c = '\r' then ['\\', 'r']
  else [c]

def escapeAll : List Char → List Char
  | [] => []
  | c :: r => escapeQuoted c ++ escapeAll r

/-- A text as a literal in single quotes. -/
def quote (cs : List Char) : List Char := '\'' :: (escapeAll cs ++ ['\''])

/-- The meaning of a backslash before a character that takes no digits. -/
def plainEscape (c : Char) : List Char :=
  if c = '\n' then []
  else if c = 'n' then ['\n']
  else if c = 't' then ['\t']
  else if c = 'r' then ['\r']
  else if c = '0' then ['\x00']
  else if c = 'a' then ['\x07']
  else if c = 'b' then ['\x08']
  else if c = 'f' then ['\x0c']
  else if c = 'v' then ['\x0b']
  else if c = '\\' || c = '\'' || c = '"' then [c]
  else ['\\', c]

/-- The number of hexadecimal digits that an escape takes. -/
def hexWidth? (c : Char) : Option Nat :=
  if c = 'x' then some 2
  else if c = 'u' then some 4
  else if c = 'U' then some 8
  else none

/-- The character of a code point. -/
def charOf? (n : Nat) : Option Char :=
  if h : n.isValidChar then some (Char.ofNatAux n h) else none

/-- The meaning of an escape with hexadecimal digits; with too few of them, or with a number
that is no character, it stands for itself. -/
def hexEscape (mark : Char) (width : Nat) (digits : List Char) : List Char :=
  match (number? 16 digits).bind charOf? with
  | some c => if digits.length = width then [c] else '\\' :: mark :: digits
  | none => '\\' :: mark :: digits

/-- Resolves backslash escapes; unknown ones stand for themselves. -/
def unescape (cs : List Char) : List Char :=
  match cs with
  | [] => []
  | '\\' :: c :: r =>
    match hexWidth? c with
    | some w =>
      let digits := (r.take w).takeWhile isHexDigit
      hexEscape c w digits ++ unescape (r.drop digits.length)
    | none => plainEscape c ++ unescape r
  | c :: r => c :: unescape r
termination_by cs.length
decreasing_by all_goals simp <;> omega

end Pipewright.Text

namespace Pipewright

/-- A text as a literal in single quotes. -/
def quoted (s : String) : String := String.ofList (Text.quote s.toList)

end Pipewright
