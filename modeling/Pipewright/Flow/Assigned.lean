import Pipewright.Text.Lines
import Pipewright.Text.Word

/-! The channels that a statement makes: `x = …`, `.into { a; b }`, `.set { x }`. -/
namespace Pipewright.Flow
open Text

/-- The word that a text assigns to. A second equals sign makes it a comparison. -/
def assignedWord? (cs : List Char) : Option (List Char) :=
  let word := cs.takeWhile isWordChar
  match word, trimStart (cs.dropWhile isWordChar) with
  | [], _ => none
  | _, '=' :: c :: _ => if c = '=' then none else some word
  | _, _ => none

/-- The name that a statement assigns to; a `def` may stand in front of it. -/
def assignment? (cs : List Char) : Option (List Char) :=
  let cs := trimStart cs
  match afterLead? "def".toList cs with
  | some (c :: r) =>
    if isBlank c then (assignedWord? (trimStart r)).or (assignedWord? cs) else assignedWord? cs
  | _ => assignedWord? cs

/-- The names in a list with semicolons. -/
def listedNames (cs : List Char) : List (List Char) :=
  ((splitAt ';' cs).map trim).filter fun n => !n.isEmpty

/-- The names that values are sent to, if the text starts with such an operator, and what follows
it. -/
def targets? (cs : List Char) : Option (List (List Char) × List Char) :=
  match ((afterLead? ".into".toList cs).or (afterLead? ".set".toList cs)).map trimStart with
  | some ('{' :: r) =>
    match r.dropWhile (· ≠ '}') with
    | _ :: rest => some (listedNames (r.takeWhile (· ≠ '}')), rest)
    | [] => none
  | _ => none

/-- The names that the operators of a text send values to; `skip` counts the characters of an
operator still to be passed. -/
def sentTo : (skip : Nat) → List Char → List (List Char)
  | _, [] => []
  | n + 1, _ :: cs => sentTo n cs
  | 0, c :: cs =>
    match targets? (c :: cs) with
    | some (names, rest) => names ++ sentTo (cs.length - rest.length) cs
    | none => sentTo 0 cs

/-- The names of the channels that a statement makes. -/
def assignedChannels (statement : String) : List String :=
  let cs := statement.toList
  ((assignment? cs).toList ++ sentTo 0 cs).map String.ofList

end Pipewright.Flow
