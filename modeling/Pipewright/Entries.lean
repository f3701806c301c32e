/-! Lists of named entries: in the order in which names first came, or in the order of the names. -/
namespace Pipewright.Entries

variable {α : Type _}

/-- The first entry of a name. -/
def get? (name : String) (es : List (String × α)) : Option α :=
  (es.find? fun e => e.1 = name).map Prod.snd

/-- Sets an entry: a new name goes to the end, a known one keeps its place. -/
def put (name : String) (v : α) : List (String × α) → List (String × α)
  | [] => [(name, v)]
  | (n, w) :: r => if n = name then (n, v) :: r else (n, w) :: put name v r

/-- Sets an entry among entries in the order of their names. -/
def putSorted (name : String) (v : α) : List (String × α) → List (String × α)
  | [] => [(name, v)]
  | (n, w) :: r =>
    if n = name then (name, v) :: r
    else if name < n then (name, v) :: (n, w) :: r
    else (n, w) :: putSorted name v r

/-- Entries in the order of their names; of equal names the last counts. -/
def sort (es : List (String × α)) : List (String × α) :=
  es.foldl (fun sorted e => putSorted e.1 e.2 sorted) []

end Pipewright.Entries
