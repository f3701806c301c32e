import Pipewright.Json.Decode
import Pipewright.Text.Base64

/-! The results of a function: scalars, lists and maps of results, tables and figures. -/
namespace Pipewright

inductive Scalar where
  | null
  | bool (b : Bool)
  | int (i : Int)
  | float (x : Binary64)
  | str (s : String)
  deriving Repr, Inhabited

/-- A table: a label for each row, names of columns, rows of cells. -/
structure Table where
  index : List Json
  columns : List Json
  data : List (List Json)
  deriving Repr, Inhabited

structure Figure where
  /-- The format of the image and the extension of its file. -/
  format : String
  data : List UInt8
  deriving Repr, Inhabited

inductive Result where
  | scalar (s : Scalar)
  | sequence (items : List Result)
  | mapping (entries : List (String × Result))
  | table (t : Table)
  | figure (f : Figure)
  deriving Repr, Inhabited

namespace Table

def decode? (v : Json) : Option Table := do
  let fs ← Json.openFields? ["index", "columns", "data"] v
  let index ← Json.optional? fs "index" [] (Json.list? some)
  let columns ← Json.optional? fs "columns" [] (Json.list? some)
  let data ← Json.optional? fs "data" [] (Json.list? (Json.list? some))
  return { index, columns, data }

/-- How many of `length` items a limit keeps; a negative one counts those dropped at the end. -/
def kept (limit : Int) (length : Nat) : Nat :=
  if 0 ≤ limit then min length limit.toNat else length - limit.natAbs

/-- The first rows of a table. An index with fewer labels than rows are kept is dropped. -/
def peek (t : Table) (limit : Int) : Table :=
  let n := kept limit t.data.length
  { t with
    index := if n ≤ t.index.length then t.index.take n else []
    data := t.data.take n }

end Table

namespace Figure

/-- The text of a member, if there is one. -/
def text? (name : String) (v : Json) : Option String := (v.get? name).bind Json.asString?

def decode (v : Json) : Except Fault Figure :=
  match Base64.decode ((text? "data" v).getD "").toUTF8.toList with
  | .ok data => .ok { format := (text? "format" v).getD "png", data }
  | .error e => .error (.figureData e)

end Figure

namespace Result

def number (i : Int) : Scalar :=
  if fitsInt64 i then .int i else .float (Binary64.ofRatio (i < 0) i.natAbs 1)

mutual
/-- Reads a result. A single member with a special name makes a table or a figure. -/
def ofJson : Json → Except Fault Result
  | .null => .ok (.scalar .null)
  | .bool b => .ok (.scalar (.bool b))
  | .int i => .ok (.scalar (number i))
  | .float x => .ok (.scalar (.float x))
  | .str s => .ok (.scalar (.str s))
  | .arr items => do return .sequence (← itemsOfJson items)
  | .obj ms =>
    match ms with
    | [(name, v)] =>
      if name = "__table__" then
        match Table.decode? v with
        | some t => .ok (.table t)
        | none => .error .malformed
      else if name = "__plot__" then do return .figure (← Figure.decode v)
      else do return .mapping [(name, ← ofJson v)]
    | ms => do return .mapping (← entriesOfJson ms)

def itemsOfJson : List Json → Except Fault (List Result)
  | [] => .ok []
  | v :: r => do
    let v ← ofJson v
    return v :: (← itemsOfJson r)

def entriesOfJson : List (String × Json) → Except Fault (List (String × Result))
  | [] => .ok []
  | (k, v) :: r => do
    let v ← ofJson v
    return (k, v) :: (← entriesOfJson r)
end

def typeName : Result → String
  | .scalar .null => "NoneType"
  | .scalar (.bool _) => "bool"
  | .scalar (.int _) => "int"
  | .scalar (.float _) => "float"
  | .scalar (.str _) => "str"
  | .sequence _ => "list"
  | .mapping _ => "dict"
  | .table _ => "DataFrame"
  | .figure _ => "Figure"

end Result
end Pipewright
