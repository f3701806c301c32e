import Pipewright.Number.Binary64

/-! The decimal of fewest digits that reads back as a given double, and of those the nearest. -/
namespace Pipewright.Decimal

/-- A decimal `digits * 10 ^ power`. -/
structure Scaled where
  digits : Nat
  power : Int
  deriving DecidableEq, Repr

/-- Whether `10 ^ k ≤ num / den`. -/
def tenPowerLe (k : Int) (num den : Nat) : Bool :=
  if 0 ≤ k then den * Nat.pow 10 k.toNat ≤ num else den ≤ num * Nat.pow 10 (-k).toNat

/-- The exponent of the greatest power of ten that is at most a positive quotient, sought
upwards from a lower bound. -/
def floorLog10 (num den : Nat) : (steps : Nat) → Int → Int
  | 0, k => k
  | n + 1, k => if tenPowerLe (k + 1) num den then floorLog10 num den n (k + 1) else k

/-- The grid point below a quotient: the greatest `d` with `d * 10 ^ s ≤ num / den`. -/
def gridFloor (num den : Nat) (s : Int) : Nat :=
  if 0 ≤ s then num / (den * Nat.pow 10 s.toNat) else num * Nat.pow 10 (-s).toNat / den

/-- Whether a quotient lies nearer to `d + 1` than to `d` on the grid of `10 ^ s`; in the
middle the even neighbour is taken. -/
def nearerAbove (num den : Nat) (s : Int) (d : Nat) : Bool :=
  let (n, q) :=
    if 0 ≤ s then (num, den * Nat.pow 10 s.toNat) else (num * Nat.pow 10 (-s).toNat, den)
  let r := n - d * q
  if 2 * r = q then d % 2 = 1 else q < 2 * r

/-- Whether a decimal reads back as the magnitude `m * 2 ^ e`. -/
def readsBack (m : Nat) (e : Int) (d : Nat) (s : Int) : Bool :=
  Binary64.ofDecimal false d s = .finite false m e

/-- The point of one grid that reads back, if there is one. -/
def onGrid? (m : Nat) (e s : Int) : Option Nat :=
  let (num, den) := Binary64.ratio m e
  let d := gridFloor num den s
  match readsBack m e d s, readsBack m e (d + 1) s with
  | true, true => some (if nearerAbove num den s d then d + 1 else d)
  | true, false => some d
  | false, true => some (d + 1)
  | false, false => none

/-- Tries grids of one digit more each; seventeen digits always suffice. -/
def searchGrids (m : Nat) (e : Int) : (left : Nat) → (s : Int) → Scaled
  | 0, s => ⟨gridFloor (Binary64.ratio m e).1 (Binary64.ratio m e).2 s, s⟩
  | n + 1, s =>
    match onGrid? m e s with
    | some d => ⟨d, s⟩
    | none => searchGrids m e n (s - 1)

/-- Moves factors of ten from the digits to the power. -/
def stripTens : (fuel : Nat) → Scaled → Scaled
  | 0, x => x
  | n + 1, x =>
    if x.digits ≠ 0 ∧ x.digits % 10 = 0 then stripTens n ⟨x.digits / 10, x.power + 1⟩ else x

/-- The shortest decimal that reads back as the magnitude `m * 2 ^ e`. -/
def shortest (m : Nat) (e : Int) : Scaled :=
  if m = 0 then ⟨0, 0⟩
  else
    let (num, den) := Binary64.ratio m e
    let low : Int := (num.log2 : Int) * 3 / 10 - (den.log2 : Int) * 302 / 1000 - 4
    let top := floorLog10 num den 40 low
    stripTens 20 (searchGrids m e 18 top)

end Pipewright.Decimal
