import Pipewright.Result.Basic
import Pipewright.Text.Digits
import Pipewright.Text.Lines

/-! Limits on what is shown of a result. -/
namespace Pipewright

structure Peek where
  /-- How many lines or rows to keep; a negative number counts those dropped at the end. -/
  rows : Option Int
  /-- How many characters to keep before lines are counted. -/
  chars : Option Nat
  deriving DecidableEq, Repr, Inhabited

namespace Peek

/-- A limit on rows: a signed number of 64 bits. -/
def rows? (part : List Char) : Option Int := (Text.integer? part).filter fitsInt64

/-- A limit on characters: a number of 64 bits, which may have a plus sign. -/
def chars? (part : List Char) : Option Nat :=
  (Text.number? 10 (match part with
    | '+' :: cs => cs
    | cs => cs)).filter fun n => n < Nat.pow 2 64

/-- A limit that may be left out. -/
def limit? (f : List Char → Option α) (part : List Char) : Option (Option α) :=
  if part.isEmpty then some none else (f part).map some

def read? (s : String) : Option Peek := do
  match (Text.splitAt ',' s.toList).map Text.trim with
  | [rows] => return ⟨← limit? rows? rows, none⟩
  | [rows, chars] => return ⟨← limit? rows? rows, ← limit? chars? chars⟩
  | _ => none

/-- Reads limits: a number of lines, and a number of characters after a comma. -/
def read (s : String) : Except Fault Peek :=
  match read? s with
  | some p => .ok p
  | none => .error (.arguments s!"invalid peek '{s}', expected N[,C]")

/-- A text that ends its last line. -/
def endLine (cs : List Char) : List Char :=
  if cs.getLast? = some '\n' then cs else cs ++ ['\n']

/-- The first lines of a text. -/
def takeLines (limit : Int) (cs : List Char) : List Char :=
  let ls := Text.splitAt '\n' cs
  endLine (Text.joinWith ['\n'] (ls.take (Table.kept limit ls.length)))

def applyChars (p : Peek) (cs : List Char) : List Char :=
  let cs := match p.chars with
    | some n => cs.take n
    | none => cs
  match p.rows with
  | some n => takeLines n cs
  | none => cs

/-- Cuts a text down to the limits. -/
def apply (p : Peek) (s : String) : String := String.ofList (p.applyChars s.toList)

end Peek
end Pipewright
