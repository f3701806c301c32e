import Pipewright.Json.Writer
import Pipewright.Result.Basic
import Pipewright.Text.Lines

/-! Results as text: one line for a scalar, columns parted by tabs for all else. -/
namespace Pipewright

namespace Scalar

/-- A double in plain digits, never with an exponent. -/
def floatText : Binary64 → String
  | .nan => "NaN"
  | .infinite false => "inf"
  | .infinite true => "-inf"
  | .finite s m e => DecimalLayout.plain.finiteText s m e

/-- The text of a scalar on its own. -/
def text : Scalar → String
  | .null => "None"
  | .bool true => "True"
  | .bool false => "False"
  | .int i => toString i
  | .float x => floatText x
  | .str s => s

/-- The text as a cell: nothing for what is missing. -/
def field : Scalar → String
  | .null => ""
  | s => s.text

/-- The text within other results. -/
def innerText : Scalar → String
  | .str s => "'" ++ s ++ "'"
  | s => s.text

end Scalar

namespace Result

mutual
/-- The text of a result within another one. -/
def innerText : Result → String
  | .scalar s => s.innerText
  | .sequence items => "[" ++ joined ", " (innerItems items) ++ "]"
  | .mapping entries => "\x7b" ++ joined ", " (innerEntries entries) ++ "\x7d"
  | .table _ => "<DataFrame>"
  | .figure _ => "<Figure>"

def innerItems : List Result → List String
  | [] => []
  | v :: r => innerText v :: innerItems r

def innerEntries : List (String × Result) → List String
  | [] => []
  | (k, v) :: r => ("'" ++ k ++ "': " ++ innerText v) :: innerEntries r
end

/-- The text of a result on its own. -/
def text : Result → String
  | .scalar s => s.text
  | v => v.innerText

end Result

namespace Table

/-- The text of a cell. -/
def cellText : Json → String
  | .null => ""
  | v =>
    match Result.ofJson v with
    | .ok r => r.text
    | .error _ => v.compact

/-- The label of a row; its number if the index has none. -/
def label (t : Table) (i : Nat) : String := ((t.index[i]?).map cellText).getD (toString i)

/-- The names of the columns, each behind a tab. -/
def header (t : Table) : String := joined "" (t.columns.map fun c => "\t" ++ cellText c) ++ "\n"

def rowText (t : Table) (row : List Json) (i : Nat) : String :=
  t.label i ++ joined "" (row.map fun c => "\t" ++ cellText c) ++ "\n"

/-- The table with tabs: the names of the columns, then each row after its label. -/
def text (t : Table) : String :=
  t.header ++ joined "" (t.data.zipIdx.map fun r => t.rowText r.1 r.2)

end Table

namespace Result

/-- A row of cells. -/
def line (cells : List String) : String := joined "\t" cells ++ "\n"

/-- The cells of a row: a sequence is spread. -/
def cells : Result → List String
  | .sequence items => items.map text
  | v => [v.text]

/-- The entries of a row; what is no mapping has none. -/
def entries : Result → List (String × Result)
  | .mapping es => es
  | _ => []

/-- The keys of rows in the order in which they first come. -/
def columnKeys (rows : List (List (String × Result))) : List String :=
  (rows.flatMap fun row => row.map Prod.fst).foldl
    (fun keys k => if keys.contains k then keys else keys ++ [k]) []

/-- The cell of a row under a key. -/
def cellAt (key : String) (row : List (String × Result)) : String :=
  match Entries.get? key row with
  | some (.scalar s) => s.field
  | some v => v.text
  | none => ""

/-- The first part that has no text form within other results. -/
def formless? (parts : List Result) : Option Result :=
  parts.find? fun
    | .table _ | .figure _ => true
    | _ => false

/-- The text of a sequence: its first item decides on the layout. -/
def sequenceText (items : List Result) : String :=
  match items with
  | [] => ""
  | .sequence _ :: _ => joined "" (items.map fun v => line v.cells)
  | .mapping _ :: _ =>
    let rows := items.map entries
    let keys := columnKeys rows
    line keys ++ joined "" (rows.map fun row => line (keys.map fun k => cellAt k row))
  | _ => joined "" (items.map fun v => v.text ++ "\n")

/-- The text of a mapping: its last value decides on the layout. -/
def mappingText (es : List (String × Result)) : String :=
  match es.getLast? with
  | none => ""
  | some (_, .mapping _) =>
    let keys := columnKeys (es.map fun e => e.2.entries)
    "\t" ++ line keys ++
      joined "" (es.map fun e => e.1 ++ "\t" ++ line (keys.map fun k => cellAt k e.2.entries))
  | _ => joined "" (es.map fun e => e.1 ++ "\t" ++ line e.2.cells)

/-- The text of a result, or the part of it that has no text form. -/
def render (v : Result) : Except Result String :=
  match v with
  | .scalar s => .ok (s.text ++ "\n")
  | .table t => .ok t.text
  | .figure _ => .error v
  | .sequence items =>
    match formless? items with
    | some part => .error part
    | none => .ok (sequenceText items)
  | .mapping es =>
    match formless? (es.map Prod.snd) with
    | some part => .error part
    | none => .ok (mappingText es)

end Result
end Pipewright
