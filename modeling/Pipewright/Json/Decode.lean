import Pipewright.Json.Basic
import Pipewright.Literal.Printer
import Pipewright.Names

/-! Decoding of data into records. Each decoder gives nothing for data of another shape. -/
namespace Pipewright.Json

/-- How arrays that stand for records and pairs are taken. -/
structure Strictness where
  /-- Whether an array may not be longer than what it stands for. -/
  exact : Bool

def string? : Json → Option String
  | .str s => some s
  | _ => none

def bool? : Json → Option Bool
  | .bool b => some b
  | _ => none

/-- A natural number of at most the given number of bits. -/
def natural? (bits : Nat) : Json → Option Nat
  | .int i => if 0 ≤ i && i.toNat < Nat.pow 2 bits then some i.toNat else none
  | _ => none

def list? (f : Json → Option α) : Json → Option (List α)
  | .arr items => items.mapM f
  | _ => none

/-- Data that may be null. -/
def nullable? (f : Json → Option α) : Json → Option (Option α)
  | .null => some none
  | v => (f v).map some

/-- An object as a map in the order of its names; of equal names the last counts. -/
def mapOf? (f : Json → Option α) : Json → Option (List (String × α))
  | .obj ms =>
    (ms.mapM fun (m : String × Json) => (f m.2).map fun a => (m.1, a)).map Entries.sort
  | _ => none

def pair? (strict : Strictness) (f : Json → Option α) : Json → Option (α × α)
  | .arr (a :: b :: r) =>
    if strict.exact && !r.isEmpty then none
    else
      match f a, f b with
      | some a, some b => some (a, b)
      | _, _ => none
  | _ => none

def names? : Json → Option Names
  | .str s => some (.one s)
  | .arr items => (items.mapM string?).map .list
  | _ => none

def hasRepeats : List String → Bool
  | [] => false
  | n :: ns => ns.contains n || hasRepeats ns

/-- The fields of a record: an object with known and distinct names, or an array with the fields
in the order of their names. -/
def fields? (strict : Strictness) (names : List String) : Json → Option (List (String × Json))
  | .obj ms =>
    let given := ms.map Prod.fst
    if given.all names.contains && !hasRepeats given then some ms else none
  | .arr items =>
    if strict.exact && names.length < items.length then none else some (names.zip items)
  | _ => none

/-- The fields of a record that may have other fields as well. -/
def openFields? (names : List String) : Json → Option (List (String × Json))
  | .obj ms => fields? ⟨true⟩ names (.obj (ms.filter fun m => names.contains m.1))
  | v => fields? ⟨true⟩ names v

/-- A field that has to be there. -/
def required? (fields : List (String × Json)) (name : String) (f : Json → Option α) : Option α :=
  (Entries.get? name fields).bind f

/-- A field with a value for its absence. -/
def optional? (fields : List (String × Json)) (name : String) (absent : α)
    (f : Json → Option α) : Option α :=
  match Entries.get? name fields with
  | some v => f v
  | none => some absent

end Pipewright.Json
