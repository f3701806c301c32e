import Pipewright.Number.Binary64
import Pipewright.Text.Digits

/-! Reading of doubles from decimal text. -/
namespace Pipewright.Binary64
open Pipewright.Text

/-- The double nearest to a decimal without sign: digits with at most one point among them, of
which one at least is there, and an optional exponent. -/
def readMagnitude? (negative : Bool) (cs : List Char) : Option Binary64 :=
  let whole := cs.takeWhile isDigit
  let r := cs.dropWhile isDigit
  let (fraction, r) := match r with
    | '.' :: r => (r.takeWhile isDigit, r.dropWhile isDigit)
    | r => ([], r)
  let power? : Option Int := match r with
    | [] => some 0
    | c :: e => if c = 'e' || c = 'E' then integer? e else none
  match number? 10 (whole ++ fraction), power? with
  | some n, some p => some (ofDecimal negative n (p - fraction.length))
  | _, _ => none

/-- Reads a decimal or the name of a number that is not finite, in any case. -/
def readUnsigned? (negative : Bool) (cs : List Char) : Option Binary64 :=
  let name := String.ofList (cs.map lower)
  if name = "inf" || name = "infinity" then some (.infinite negative)
  else if name = "nan" then some .nan
  else readMagnitude? negative cs

def read? : List Char → Option Binary64
  | '-' :: cs => readUnsigned? true cs
  | '+' :: cs => readUnsigned? false cs
  | cs => readUnsigned? false cs

end Pipewright.Binary64
