import Pipewright.Entries
import Pipewright.Number.Binary64

/-! JSON values. Objects keep the order of their members. -/
namespace Pipewright

/-- A JSON value. Numbers written as integers stay integers while they fit in 64 bits. -/
inductive Json where
  | null
  | bool (b : Bool)
  | int (i : Int)
  | float (x : Binary64)
  | str (s : String)
  | arr (items : List Json)
  | obj (members : List (String × Json))
  deriving Inhabited, Repr

namespace Json

def get? (name : String) : Json → Option Json
  | .obj ms => Entries.get? name ms
  | _ => none

def asString? : Json → Option String
  | .str s => some s
  | _ => none

end Json
end Pipewright
