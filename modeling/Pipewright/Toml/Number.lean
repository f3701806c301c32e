import Pipewright.Json.Basic
import Pipewright.Number.Reader

/-! Numbers and dates of TOML texts, read from the run of characters they consist of. -/
namespace Pipewright.Toml
open Pipewright.Text

/-- Digits with single underscores between them, without the underscores. -/
def digitRun? (digit : Char → Bool) : List Char → Option (List Char)
  | [] => none
  | [c] => if digit c then some [c] else none
  | c :: '_' :: r => if digit c then (digitRun? digit r).map (c :: ·) else none
  | c :: r => if digit c then (digitRun? digit r).map (c :: ·) else none

/-- Decimal digits without a zero in front of others. -/
def wholeRun? (cs : List Char) : Option (List Char) :=
  (digitRun? isDigit cs).filter fun ds => ds.length = 1 || ds.head? ≠ some '0'

def splitSign : List Char → Bool × List Char
  | '-' :: r => (true, r)
  | '+' :: r => (false, r)
  | r => (false, r)

/-- Digits after the mark of their base. -/
def basedInteger? (cs : List Char) : Option Int :=
  let based (base : Nat) (digit : Char → Bool) (r : List Char) : Option Int :=
    ((digitRun? digit r).bind (number? base)).map Int.ofNat
  match cs with
  | '0' :: 'x' :: r => based 16 isHexDigit r
  | '0' :: 'o' :: r => based 8 (fun c => '0' ≤ c && c ≤ '7') r
  | '0' :: 'b' :: r => based 2 (fun c => c = '0' || c = '1') r
  | _ => none

def decimalInteger? (cs : List Char) : Option Int :=
  let (negative, r) := splitSign cs
  ((wholeRun? r).bind (number? 10)).map fun n => if negative then -(n : Int) else n

def exponent? (cs : List Char) : Option Int :=
  let (negative, r) := splitSign cs
  ((digitRun? isDigit r).bind (number? 10)).map fun n => if negative then -(n : Int) else n

/-- A number with a fraction, an exponent or both. -/
def decimal? (cs : List Char) : Option Json := do
  let (negative, r) := splitSign cs
  let isMark (c : Char) : Bool := c = '.' || c = 'e' || c = 'E'
  let whole ← wholeRun? (r.takeWhile fun c => !isMark c)
  let (fraction, e) ← match r.dropWhile fun c => !isMark c with
    | '.' :: f =>
      (digitRun? isDigit (f.takeWhile fun c => !isMark c)).map
        fun ds => (ds, f.dropWhile fun c => !isMark c)
    | e => some ([], e)
  let power ← match e with
    | [] => if fraction.isEmpty then none else some 0
    | '.' :: _ => none
    | _ :: e => exponent? e
  let n ← number? 10 (whole ++ fraction)
  match Binary64.ofDecimal negative n (power - fraction.length) with
  | .infinite false => none
  | x => some (.float x)

def namedDecimal? (cs : List Char) : Option Json :=
  let (negative, r) := splitSign cs
  if r = ['i', 'n', 'f'] then some (.float (.infinite negative))
  else if r = ['n', 'a', 'n'] then some (.float .nan)
  else none

/-! Dates -/

/-- Exactly `n` digits at the start of a text. -/
def fixedDigits? (n : Nat) (cs : List Char) : Option (Nat × List Char) :=
  let ds := cs.take n
  if ds.length = n && ds.all isDigit then (number? 10 ds).map fun v => (v, cs.drop n) else none

def afterMark? (mark : Char) : List Char → Option (List Char)
  | c :: r => if c = mark then some r else none
  | [] => none

def isLeapYear (y : Nat) : Bool := y % 4 = 0 && (y % 100 ≠ 0 || y % 400 = 0)

def monthLength (y m : Nat) : Nat :=
  if m = 2 then if isLeapYear y then 29 else 28
  else if m = 4 || m = 6 || m = 9 || m = 11 then 30
  else 31

/-- A number with zeros in front up to a width. -/
def padded (width n : Nat) : String :=
  let ds := toString n
  "".pushn '0' (width - ds.length) ++ ds

def date? (cs : List Char) : Option (String × List Char) := do
  let (y, r) ← fixedDigits? 4 cs
  let (m, r) ← fixedDigits? 2 (← afterMark? '-' r)
  let (d, r) ← fixedDigits? 2 (← afterMark? '-' r)
  if 1 ≤ m && m ≤ 12 && 1 ≤ d && d ≤ monthLength y m then
    some (padded 4 y ++ "-" ++ padded 2 m ++ "-" ++ padded 2 d, r)
  else none

/-- A fraction of a second: nine digits count, zeros at the end are not written. -/
def secondFraction? : List Char → Option (String × List Char)
  | '.' :: r =>
    let ds := r.takeWhile isDigit
    if ds.isEmpty then none
    else
      let shown := ((ds.take 9).reverse.dropWhile (· = '0')).reverse
      some (if shown.isEmpty then "" else "." ++ String.ofList shown, r.dropWhile isDigit)
  | r => some ("", r)

def time? (cs : List Char) : Option (String × List Char) := do
  let (h, r) ← fixedDigits? 2 cs
  let (m, r) ← fixedDigits? 2 (← afterMark? ':' r)
  let (s, r) ← fixedDigits? 2 (← afterMark? ':' r)
  let (f, r) ← secondFraction? r
  if h ≤ 23 && m ≤ 59 && s ≤ 60 then
    some (padded 2 h ++ ":" ++ padded 2 m ++ ":" ++ padded 2 s ++ f, r)
  else none

/-- The distance from universal time, or nothing. No distance has a plus sign. -/
def offset? : List Char → Option String
  | [] => some ""
  | ['Z'] | ['z'] => some "Z"
  | sign :: r => do
    let (h, r) ← fixedDigits? 2 r
    let (m, r) ← fixedDigits? 2 (← afterMark? ':' r)
    if (sign = '+' || sign = '-') && h ≤ 23 && m ≤ 59 && r.isEmpty then
      let sign := if h = 0 && m = 0 then '+' else sign
      some (sign.toString ++ padded 2 h ++ ":" ++ padded 2 m)
    else none

/-- A date, a time or both; only both can have an offset. -/
def dateText? (cs : List Char) : Option String :=
  match date? cs with
  | some (d, []) => some d
  | some (d, c :: r) =>
    if c = 'T' || c = 't' || c = ' ' then do
      let (t, r) ← time? r
      let o ← offset? r
      some (d ++ "T" ++ t ++ o)
    else none
  | none =>
    match time? cs with
    | some (t, []) => some t
    | _ => none

/-- The name that marks a date among data. -/
def dateMark : String := "$__toml_private_datetime"

/-- The value of a run of characters that is not quoted. -/
def scalar? (cs : List Char) : Option Json :=
  let int? := ((basedInteger? cs).or (decimalInteger? cs)).map fun i =>
    if fitsInt64 i then some (Json.int i) else none
  if cs = "true".toList then some (.bool true)
  else if cs = "false".toList then some (.bool false)
  else
    match int? with
    | some v => v
    | none =>
      ((dateText? cs).map fun d => Json.obj [(dateMark, .str d)]).or
        ((namedDecimal? cs).or (decimal? cs))

end Pipewright.Toml
