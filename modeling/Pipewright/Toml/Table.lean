import Pipewright.Json.Basic

/-! Tables of TOML texts as they are filled: which of them may be opened again. -/
namespace Pipewright.Toml

/-- How a table came to be. -/
inductive Origin where
  /-- By a header of its own. -/
  | header
  /-- On the way to another header. -/
  | passed
  /-- By a key with dots. -/
  | dotted
  deriving DecidableEq, Repr

inductive Item where
  | value (v : Json)
  | table (origin : Origin) (entries : List (String × Item))
  | tables (list : List (List (String × Item)))
  deriving Inhabited

abbrev Entries := List (String × Item)

/-- Changes the last element of a list. -/
def changeLast? (f : α → Option α) : List α → Option (List α)
  | [] => none
  | [a] => (f a).map fun b => [b]
  | a :: r => (changeLast? f r).map (a :: ·)

/-- Changes the table that keys lead to, making the tables that are missing on the way. Keys with
dots do not lead into tables that have a header. -/
def changeAt? (dotted : Bool) (f : Origin → Entries → Option Entries) :
    List String → Origin → Entries → Option Entries
  | [], origin, es => f origin es
  | k :: ks, _, es =>
    match Pipewright.Entries.get? k es with
    | none =>
      let origin := if dotted then .dotted else .passed
      (changeAt? dotted f ks origin []).map fun inner =>
        Pipewright.Entries.put k (.table origin inner) es
    | some (.value _) => none
    | some (.table origin inner) =>
      if dotted && origin = .header then none
      else
        (changeAt? dotted f ks origin inner).map fun inner =>
          Pipewright.Entries.put k (.table origin inner) es
    | some (.tables list) =>
      (changeLast? (changeAt? dotted f ks .header) list).map fun list =>
        Pipewright.Entries.put k (.tables list) es

/-- Sets a key that is not there yet. -/
def define? (key : String) (item : Item) (es : Entries) : Option Entries :=
  if (Pipewright.Entries.get? key es).isSome then none else some (es ++ [(key, item)])

/-- Sets a value under keys. -/
def setValue? (path : List String) (key : String) (v : Json) (origin : Origin) (es : Entries) :
    Option Entries :=
  changeAt? true (fun o inner =>
    if (o = .dotted) = path.isEmpty then none else define? key (.value v) inner) path origin es

/-- Opens the table of a header. -/
def openTable? (path : List String) (key : String) (root : Entries) : Option Entries :=
  changeAt? false (fun _ inner =>
    match Pipewright.Entries.get? key inner with
    | none => some (inner ++ [(key, .table .header [])])
    | some (.table .passed es) => some (Pipewright.Entries.put key (.table .header es) inner)
    | some _ => none) path .header root

/-- Adds a table to the list of a header. -/
def addTable? (path : List String) (key : String) (root : Entries) : Option Entries :=
  changeAt? false (fun _ inner =>
    match Pipewright.Entries.get? key inner with
    | none => some (inner ++ [(key, .tables [[]])])
    | some (.tables list) => some (Pipewright.Entries.put key (.tables (list ++ [[]])) inner)
    | some _ => none) path .header root

/-- Sets a value in the table of the header above it. -/
def setIn? (header path : List String) (key : String) (v : Json) (root : Entries) :
    Option Entries :=
  changeAt? false (fun o inner => setValue? path key v o inner) header .header root

mutual
def itemData : Item → Json
  | .value v => v
  | .table _ es => .obj (entryData es)
  | .tables list => .arr (listData list)

def entryData : List (String × Item) → List (String × Json)
  | [] => []
  | (k, i) :: r => (k, itemData i) :: entryData r

def listData : List (List (String × Item)) → List Json
  | [] => []
  | es :: r => .obj (entryData es) :: listData r
end

end Pipewright.Toml
