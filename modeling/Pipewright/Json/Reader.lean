import Pipewright.Json.Basic
import Pipewright.Text.Digits

/-! Reading of JSON texts. Collections may be nested 127 deep. -/
namespace Pipewright.Json
open Pipewright.Text

def isSpace (c : Char) : Bool := c = ' ' || c = '\n' || c = '\t' || c = '\r'
def skipSpace (cs : List Char) : List Char := cs.dropWhile isSpace

/-- The number of four hexadecimal digits at the start of a text. -/
def fourHex? : List Char → Option (Nat × List Char)
  | a :: b :: c :: d :: r => (number? 16 [a, b, c, d]).map fun n => (n, r)
  | _ => none

def isHighSurrogate (n : Nat) : Bool := 0xD800 ≤ n && n < 0xDC00
def isLowSurrogate (n : Nat) : Bool := 0xDC00 ≤ n && n < 0xE000

/-- The character of one escape, whose backslash has been read. -/
def escape? : List Char → Option (Char × List Char)
  | '"' :: r => some ('"', r)
  | '\\' :: r => some ('\\', r)
  | '/' :: r => some ('/', r)
  | 'b' :: r => some ('\x08', r)
  | 'f' :: r => some ('\x0c', r)
  | 'n' :: r => some ('\n', r)
  | 'r' :: r => some ('\r', r)
  | 't' :: r => some ('\t', r)
  | 'u' :: r =>
    match fourHex? r with
    | none => none
    | some (n, r) =>
      if isLowSurrogate n then none
      else if isHighSurrogate n then
        match r with
        | '\\' :: 'u' :: r =>
          match fourHex? r with
          | some (m, r) =>
            if isLowSurrogate m then
              some (Char.ofNat (0x10000 + (n - 0xD800) * 0x400 + (m - 0xDC00)), r)
            else none
          | none => none
        | _ => none
      else some (Char.ofNat n, r)
  | _ => none

/-- The characters of a string up to its closing quote. -/
def readChars : (fuel : Nat) → List Char → Option (List Char × List Char)
  | 0, _ => none
  | _, [] => none
  | n + 1, c :: r =>
    if c = '"' then some ([], r)
    else if c = '\\' then
      match escape? r with
      | none => none
      | some (d, r) => (readChars n r).map fun (s, r) => (d :: s, r)
    else if c.toNat < 0x20 then none
    else (readChars n r).map fun (s, r) => (c :: s, r)

def readString (cs : List Char) : Option (String × List Char) :=
  (readChars (cs.length + 1) cs).map fun (s, r) => (String.ofList s, r)

/-- The number `digits * 10 ^ power` unless it is beyond the range of doubles. -/
def float? (negative : Bool) (digits : Nat) (power : Int) : Option Json :=
  match Binary64.ofDecimal negative digits power with
  | .finite s m e => some (.float (.finite s m e))
  | _ => none

/-- The value of a number without fraction and exponent. -/
def wholeNumber? (negative : Bool) (n : Nat) : Option Json :=
  if negative then
    if 0 < n && n ≤ Nat.pow 2 63 then some (.int (-(n : Int))) else float? true n 0
  else if n < Nat.pow 2 64 then some (.int n)
  else float? false n 0

/-- The fraction digits after a point; there has to be one. -/
def readFraction : List Char → Option (List Char × List Char)
  | '.' :: r =>
    let ds := r.takeWhile isDigit
    if ds.isEmpty then none else some (ds, r.dropWhile isDigit)
  | r => some ([], r)

/-- The exponent with its mark; there has to be a digit. -/
def readExponent : List Char → Option (Option Int × List Char)
  | c :: r =>
    if c = 'e' || c = 'E' then
      let (negative, r) := match r with
        | '-' :: r => (true, r)
        | '+' :: r => (false, r)
        | r => (false, r)
      match number? 10 (r.takeWhile isDigit) with
      | some n => some (some (if negative then -(n : Int) else n), r.dropWhile isDigit)
      | none => none
    else some (none, c :: r)
  | [] => some (none, [])

def readNumber (cs : List Char) : Option (Json × List Char) := do
  let (negative, cs) := match cs with
    | '-' :: r => (true, r)
    | r => (false, r)
  let whole := cs.takeWhile isDigit
  if whole.isEmpty || (whole.head? = some '0' && whole.length ≠ 1) then none
  else
    let (fraction, r) ← readFraction (cs.dropWhile isDigit)
    let (exponent, r) ← readExponent r
    let digits ← number? 10 (whole ++ fraction)
    let v ← if fraction.isEmpty && exponent.isNone then wholeNumber? negative digits
      else float? negative digits (exponent.getD 0 - fraction.length)
    some (v, r)

mutual
/-- Reads one value; `depth` counts the collections that may still be opened. -/
def readValue : (fuel depth : Nat) → List Char → Option (Json × List Char)
  | 0, _, _ => none
  | n + 1, depth, cs =>
    match skipSpace cs with
    | 'n' :: 'u' :: 'l' :: 'l' :: r => some (.null, r)
    | 't' :: 'r' :: 'u' :: 'e' :: r => some (.bool true, r)
    | 'f' :: 'a' :: 'l' :: 's' :: 'e' :: r => some (.bool false, r)
    | '"' :: r => (readString r).map fun (s, r) => (.str s, r)
    | '[' :: r =>
      match depth with
      | 0 => none
      | d + 1 =>
        match skipSpace r with
        | ']' :: r => some (.arr [], r)
        | r => (readItems n d r).map fun (vs, r) => (.arr vs, r)
    | '{' :: r =>
      match depth with
      | 0 => none
      | d + 1 =>
        match skipSpace r with
        | '}' :: r => some (.obj [], r)
        | r => (readMembers n d r).map fun (ms, r) => (.obj ms, r)
    | r => readNumber r

/-- Reads the items of an array up to its closing bracket. -/
def readItems : (fuel depth : Nat) → List Char → Option (List Json × List Char)
  | 0, _, _ => none
  | n + 1, depth, cs =>
    match readValue n depth cs with
    | none => none
    | some (v, r) =>
      match skipSpace r with
      | ']' :: r => some ([v], r)
      | ',' :: r => (readItems n depth r).map fun (vs, r) => (v :: vs, r)
      | _ => none

/-- Reads the members of an object up to its closing brace, repeated names included. -/
def readMembers : (fuel depth : Nat) → List Char → Option (List (String × Json) × List Char)
  | 0, _, _ => none
  | n + 1, depth, cs =>
    match skipSpace cs with
    | '"' :: r =>
      match readString r with
      | none => none
      | some (name, r) =>
        match skipSpace r with
        | ':' :: r =>
          match readValue n depth r with
          | none => none
          | some (v, r) =>
            match skipSpace r with
            | '}' :: r => some ([(name, v)], r)
            | ',' :: r => (readMembers n depth r).map fun (ms, r) => ((name, v) :: ms, r)
            | _ => none
        | _ => none
    | _ => none
end

/-- Reads a text with one value, keeping repeated names of members. -/
def readRaw? (s : String) : Option Json :=
  let cs := s.toList
  match readValue (2 * cs.length + 2) 127 cs with
  | some (v, r) => if (skipSpace r).isEmpty then some v else none
  | none => none

mutual
/-- Repeated names keep their first place and take their last value. -/
def settle : Json → Json
  | .arr items => .arr (settleItems items)
  | .obj ms => .obj (settleMembers [] ms)
  | v => v

def settleItems : List Json → List Json
  | [] => []
  | v :: r => settle v :: settleItems r

def settleMembers (done : List (String × Json)) : List (String × Json) → List (String × Json)
  | [] => done
  | (n, v) :: r => settleMembers (Entries.put n (settle v) done) r
end

/-- Reads a text with one value. -/
def read? (s : String) : Option Json := (readRaw? s).map settle

end Pipewright.Json
