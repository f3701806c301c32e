import Pipewright.Entries
import Pipewright.Number.Layout
import Pipewright.Text.Quoted

/-! Values of script literals: what a default, a setting or a parameter can be. -/
namespace Pipewright

/-- A literal value. What is not a literal is kept as the text of an expression. -/
inductive Literal where
  | none
  | bool (b : Bool)
  | int (i : Int)
  | float (x : Binary64)
  | str (s : String)
  | list (items : List Literal)
  | map (entries : List (String × Literal))
  | expr (text : String)
  deriving Inhabited, Repr

namespace Literal

def isNone : Literal → Bool
  | .none => true
  | _ => false

def asStr? : Literal → Option String
  | .str s => some s
  | _ => Option.none

/-- A map from entries in any order; of equal keys the last counts. -/
def ofEntries (entries : List (String × Literal)) : Literal := .map (Entries.sort entries)

end Literal
end Pipewright
