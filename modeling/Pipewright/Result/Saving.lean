import Pipewright.Json.Reader
import Pipewright.Result.Peek
import Pipewright.Result.Text
import Pipewright.Storage.Job

/-! Where results go: to files, or to the output. -/
namespace Pipewright

/-- One result with where it goes. -/
structure ResultEntry where
  /-- The file; without one the result is shown. -/
  destination : Option String
  /-- The result as it came. -/
  raw : Json
  value : Result
  deriving Inhabited

/-- What becomes of a result. -/
inductive Delivery where
  | file (path : String) (content : ByteArray)
  | shown (text : String)
  /-- There is no way to save a result with this part. -/
  | skipped (part : Result)
  deriving Inhabited

/-- What was saved. -/
structure SaveReport where
  written : List String
  skipped : List Nat
  deriving DecidableEq, Repr, Inhabited

namespace Figure

/-- The file of a figure: its format is added to a name without it. -/
def path (destination format : String) : String :=
  if Path.hasExtension destination format then destination else destination ++ "." ++ format

end Figure

namespace ResultEntry

/-- A destination that names a file. -/
def named? (destination : Option String) : Option String :=
  destination.filter fun d => !d.isEmpty && d ≠ "None"

def decodeFields? (v : Json) : Option (Option String × Json) := do
  let fs ← Json.openFields? ["destination", "value"] v
  let destination ← Json.optional? fs "destination" none (Json.nullable? Json.string?)
  let value ← Json.optional? fs "value" .null some
  return (destination, value.settle)

def ofFields (fields : Option String × Json) : Except Fault ResultEntry := do
  let value ← Result.ofJson fields.2
  return { destination := named? fields.1, raw := fields.2, value }

/-- Reads the results of a script: a list of records with a destination and a value. -/
def readAll (payload : String) : Except Fault (List ResultEntry) :=
  match (Json.readRaw? payload).bind (Json.list? decodeFields?) with
  | some entries => entries.mapM ofFields
  | none => .error .malformed

/-- Sends a text to a file or shows it. -/
def deliverText (destination : Option String) (text : String) : Delivery :=
  match destination with
  | some path => .file path text.toUTF8
  | none => .shown text

/-- What becomes of a value that is not written as it came. -/
def deliverValue (peek : Option Peek) (destination : Option String) : Result → Delivery
  | .figure f =>
    match destination with
    | some d => .file (Figure.path d f.format) (ByteArray.mk f.data.toArray)
    | none => .shown "Figure cannot be displayed\n"
  | .table t =>
    deliverText destination (match peek.bind Peek.rows with
      | some n => (t.peek n).text
      | none => t.text)
  | v =>
    match v.render with
    | .ok text => deliverText destination (match peek with
      | some p => p.apply text
      | none => text)
    | .error part => .skipped part

/-- What becomes of a result; one for a JSON file is written as it came. -/
def deliver (peek : Option Peek) (e : ResultEntry) : Delivery :=
  match e.destination.filter fun d => Path.hasExtension d "json" with
  | some path => .file path e.raw.compact.toUTF8
  | none => deliverValue peek e.destination e.value

def skipWarning (i : Nat) (part : Result) : String :=
  s!"No built-in method to save result [{i}] of type {part.typeName}"

/-- Saves the result of a number. -/
def saveOne (peek : Option Peek) (report : SaveReport) (e : ResultEntry) (i : Nat) :
    Job SaveReport := do
  match e.deliver peek with
  | .file path content =>
    Job.writeBytes path content
    return { report with written := report.written ++ [path] }
  | .shown text =>
    Job.print text
    return report
  | .skipped part =>
    Job.warn [skipWarning i part]
    return { report with skipped := report.skipped ++ [i] }

/-- Saves all results in order. -/
def saveAll (entries : List ResultEntry) (peek : Option Peek) : Job SaveReport :=
  entries.zipIdx.foldlM (fun report e => saveOne peek report e.1 e.2) ⟨[], []⟩

end ResultEntry
end Pipewright
