/-! One name or a list of names. -/
namespace Pipewright

inductive Names where
  | one (name : String)
  | list (names : List String)
  deriving DecidableEq, Repr, Inhabited

namespace Names

def toList : Names → List String
  | .one n => [n]
  | .list ns => ns

/-- The name, if there is just one and no list. -/
def single? : Names → Option String
  | .one n => some n
  | .list _ => none

def isList : Names → Bool
  | .one _ => false
  | .list _ => true

end Names
end Pipewright
