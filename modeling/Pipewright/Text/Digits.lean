/-! Digits and the numbers they denote. -/
namespace Pipewright.Text

def isDigit (c : Char) : Bool := '0' ≤ c && c ≤ '9'
def isAsciiLetter (c : Char) : Bool := ('a' ≤ c && c ≤ 'z') || ('A' ≤ c && c ≤ 'Z')

/-- The value of a digit in any base up to sixteen. -/
def digitValue? (c : Char) : Option Nat :=
  if isDigit c then some (c.toNat - 48)
  else if 'a' ≤ c && c ≤ 'f' then some (c.toNat - 87)
  else if 'A' ≤ c && c ≤ 'F' then some (c.toNat - 55)
  else none

def isHexDigit (c : Char) : Bool := (digitValue? c).isSome

/-- The number that digits of one base denote, read after a given one. -/
def numberFrom? (base : Nat) : (value : Nat) → List Char → Option Nat
  | n, [] => some n
  | n, c :: cs =>
    match digitValue? c with
    | some d => if d < base then numberFrom? base (base * n + d) cs else none
    | none => none

/-- The number that a non-empty sequence of digits denotes. -/
def number? (base : Nat) (cs : List Char) : Option Nat :=
  if cs.isEmpty then none else numberFrom? base 0 cs

/-- A decimal integer with an optional sign. -/
def integer? : List Char → Option Int
  | '-' :: cs => (number? 10 cs).map fun n => -(n : Int)
  | '+' :: cs => (number? 10 cs).map Int.ofNat
  | cs => (number? 10 cs).map Int.ofNat

def lower (c : Char) : Char := c.toLower

end Pipewright.Text

namespace Pipewright

/-- Whether an integer fits in 64 bits with sign. -/
def fitsInt64 (i : Int) : Bool :=
  if i < 0 then decide (i.natAbs ≤ Nat.pow 2 63) else decide (i.natAbs < Nat.pow 2 63)

end Pipewright
