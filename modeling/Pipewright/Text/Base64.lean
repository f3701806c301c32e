import Pipewright.Fault

/-! Bytes written in base 64: four symbols for three bytes. The last group may hold two or three
symbols and is filled up with padding; its last symbol has no bits to spare. -/
namespace Pipewright.Base64

def padding : UInt8 := 61

/-- The six bits that a symbol stands for. -/
def value? (b : UInt8) : Option Nat :=
  let n := b.toNat
  if 65 ≤ n && n ≤ 90 then some (n - 65)
  else if 97 ≤ n && n ≤ 122 then some (n - 71)
  else if 48 ≤ n && n ≤ 57 then some (n + 4)
  else if n = 43 then some 62
  else if n = 47 then some 63
  else none

/-- The values of symbols that start at an offset. -/
def values (offset : Nat) : List UInt8 → Except Base64Fault (List Nat)
  | [] => .ok []
  | b :: r =>
    match value? b with
    | none => .error (.symbol b.toNat offset)
    | some v => do return v :: (← values (offset + 1) r)

/-- The bytes of up to four values; bits that fill no byte are dropped. -/
def bytes : List Nat → List UInt8
  | [a, b] => [UInt8.ofNat (a * 4 + b / 16)]
  | [a, b, c] => [UInt8.ofNat (a * 4 + b / 16), UInt8.ofNat (b * 16 + c / 4)]
  | [a, b, c, d] =>
    [UInt8.ofNat (a * 4 + b / 16), UInt8.ofNat (b * 16 + c / 4), UInt8.ofNat (c * 64 + d)]
  | _ => []

/-- Whether the last of the values has bits that fill no byte. -/
def hasSpareBits : List Nat → Bool
  | [_, b] => b % 16 ≠ 0
  | [_, _, c] => c % 4 ≠ 0
  | _ => false

/-- The symbols of the last group before its padding. There are two of them at least, and nothing
but padding follows. -/
def lastSymbols (offset : Nat) (group : List UInt8) : Except Base64Fault (List UInt8) :=
  let symbols := group.takeWhile (· ≠ padding)
  let rest := group.drop symbols.length
  if rest.isEmpty || (2 ≤ symbols.length && rest.all (· = padding)) then .ok symbols
  else
    match values offset symbols with
    | .error e => .error e
    | .ok _ => .error (.symbol padding.toNat (offset + symbols.length))

/-- Decodes the last group, of up to four bytes. -/
def decodeLast (offset : Nat) (group : List UInt8) : Except Base64Fault (List UInt8) := do
  let symbols ← lastSymbols offset group
  let vs ← values offset symbols
  if group.isEmpty then return []
  else if vs.length < 2 then throw (.length (offset + vs.length))
  else if group.length ≠ 4 then throw .padding
  else
    match symbols.getLast?, hasSpareBits vs with
    | some b, true => throw (.lastSymbol b.toNat (offset + vs.length - 1))
    | _, _ => return bytes vs

/-- Decodes all groups; all but the last are full. -/
def decodeGroups (offset : Nat) : List UInt8 → Except Base64Fault (List UInt8)
  | a :: b :: c :: d :: e :: r => do
    let vs ← values offset [a, b, c, d]
    return bytes vs ++ (← decodeGroups (offset + 4) (e :: r))
  | group => decodeLast offset group

/-- Decodes a text. A single byte too many is looked at first. -/
def decode (text : List UInt8) : Except Base64Fault (List UInt8) :=
  match text.length % 4, text.getLast? with
  | 1, some b =>
    if b ≠ padding && (value? b).isNone then .error (.symbol b.toNat (text.length - 1))
    else decodeGroups 0 text
  | _, _ => decodeGroups 0 text

end Pipewright.Base64
