import Pipewright.Number.Shortest

/-! How the digits of a double are laid out as text. -/
namespace Pipewright

/-- The decisions of one number format; exponents are those of the leading digit. -/
structure DecimalLayout where
  /-- Where no exponent is written. -/
  positional : Int → Bool
  /-- Where a whole number is marked by `.0`. -/
  marksWhole : Int → Bool

namespace DecimalLayout

/-- Numbers in scripts and tables: never an exponent, and whole numbers below `10 ^ 16` are
marked by `.0`. -/
def plain : DecimalLayout := ⟨fun _ => true, fun k => k < 16⟩

/-- Numbers in JSON: an exponent from `10 ^ 16` on and below `10 ^ -5`. -/
def json : DecimalLayout := ⟨fun k => -5 ≤ k && k < 16, fun _ => true⟩

def digitsOf (n : Nat) : List Char := Nat.toDigits 10 n

/-- Digits with the point after the first `places` of them. -/
def pointAfter (places : Nat) (ds : List Char) : List Char :=
  ds.take places ++ '.' :: ds.drop places

def positionalText (l : DecimalLayout) (ds : List Char) (power : Int) : List Char :=
  if 0 ≤ power then
    ds ++ List.replicate power.toNat '0' ++
      (if l.marksWhole (power + ds.length - 1) then ['.', '0'] else [])
  else
    let places := (-power).toNat
    if places < ds.length then pointAfter (ds.length - places) ds
    else '0' :: '.' :: (List.replicate (places - ds.length) '0' ++ ds)

def exponentText (ds : List Char) (k : Int) : List Char :=
  (if ds.length = 1 then ds else pointAfter 1 ds) ++
    'e' :: (if k < 0 then '-' else '+') :: digitsOf k.natAbs

/-- The text of a decimal without its sign. -/
def magnitudeText (l : DecimalLayout) (x : Decimal.Scaled) : List Char :=
  let ds := digitsOf x.digits
  let k := x.power + ds.length - 1
  if l.positional k then l.positionalText ds x.power else exponentText ds k

/-- The text of a finite double. -/
def finiteText (l : DecimalLayout) (negative : Bool) (m : Nat) (e : Int) : String :=
  String.ofList ((if negative then ['-'] else []) ++ l.magnitudeText (Decimal.shortest m e))

end DecimalLayout
end Pipewright
