import Pipewright.Binding.Arguments
import Pipewright.Notebook.Cells
import Pipewright.Notebook.Sections
import Pipewright.Source.File

/-! The capture of a run: a document from a script and the words it was run with. -/
namespace Pipewright

structure CaptureRequest where
  script : String
  function : String
  /-- The words that the script was run with. -/
  words : List String
  title : String
  deriving DecidableEq, Repr, Inhabited

namespace CaptureRequest

/-- Binds the words by given settings. -/
def bindWith (m : ScriptModule) (function : String) (os : Overrides) (words : List String) :
    Job BoundArguments := do
  let (b, warnings) ← Job.ofExcept (Binding.ofModule m function os)
  Job.warn warnings
  Job.ofExcept (b.parse words)

/-- Binds the words by the settings that the script carries. Without any, the standard ones are
tried and then none at all. -/
def bindWords (m : ScriptModule) (function : String) (words : List String) :
    Job BoundArguments := do
  match m.constant? Overrides.constantName with
  | some text =>
    match Overrides.read? text with
    | some os => bindWith m function os words
    | none => Job.fail .unreadableSettings
  | none =>
    try bindWith m function Overrides.standard words
    catch
      | .arguments _ => bindWith m function [] words
      | e => Job.fail e

/-- Where files of runs are. -/
def workMark : List Char := "/pipeline/work/".toList

/-- The path to show for a file of a run. -/
def tablePath? (path : String) : Job (Option String) := do
  if !(← Job.isFile path) then return none
  let real ← Job.ask fun t here => t.locate here path
  match Text.indexOf? workMark real.text.toList, real.getLast? with
  | some (_ + 1), some name => return some ("../tables/" ++ name)
  | _, _ => return none

/-- The value of a parameter as code. -/
def valueCode (v : Literal) : Job String := do
  match v with
  | .str s => return "'" ++ (← tablePath? s).getD s ++ "'"
  | v => return v.script

def paramLine (p : String × Literal) : Job String := do
  return p.1 ++ " = " ++ (← valueCode p.2)

/-- A documentation text in which each line breaks. -/
def describe (doc : Option String) : String :=
  (doc.map fun d => dedented (replaced "\n" "  \n" d)).getD ""

/-- Captures a run. -/
def capture (r : CaptureRequest) : Job Document := do
  if !(← Job.isFile r.script) then Job.fail (.noScript r.script)
  let m ← ScriptModule.load r.script
  let f ← Job.ofExcept (m.function r.function)
  let bound ← bindWords m r.function r.words
  let params ← bound.values.mapM paramLine
  return {
    title := r.title
    description := describe f.docstring
    imports := Notebook.importLines m.source
    params
    sections := Notebook.sections f.body }

/-- The document in the form that a path asks for. -/
def textFor (path : String) (d : Document) : String :=
  if Path.hasExtension path "ipynb" then d.notebook else d.markdown

/-- Writes a document to a file or shows it. -/
def write (d : Document) (target : Option String) : Job Unit := do
  match target with
  | none => Job.print d.markdown
  | some path =>
    let t ← Job.askOr (.unwritable path) fun t here => t.write here path (textFor path d).toUTF8
    modify fun w => { w with files := t }

/-- Captures a run and writes it. -/
def run (r : CaptureRequest) (target : Option String) : Job Document := do
  let d ← r.capture
  write d target
  return d

end CaptureRequest
end Pipewright
