import Pipewright.Storage.Tree

/-! Jobs: what the pipeline does to files, and what it tells on the way. A job that fails keeps
what it has done so far. -/
namespace Pipewright

/-- What a job works on. -/
structure Workspace where
  files : FileTree
  /-- The working directory. -/
  here : Place
  warnings : List String
  /-- What was written to the output. -/
  output : ByteArray
  deriving Inhabited

abbrev Job (α : Type) := ExceptT Fault (StateM Workspace) α

namespace Job

def ofExcept (r : Except Fault α) : Job α := fun w => (r, w)

def fail (e : Fault) : Job α := ofExcept (.error e)

def warn (texts : List String) : Job Unit :=
  modify fun w => { w with warnings := w.warnings ++ texts }

def print (s : String) : Job Unit :=
  modify fun w => { w with output := w.output ++ s.toUTF8 }

/-- Asks the files; a fault of the files is told by `tell`. -/
def askOr (tell : FileFault → Fault) (f : FileTree → Place → Except FileFault α) : Job α := do
  let w ← get
  match f w.files w.here with
  | .ok a => return a
  | .error e => fail (tell e)

def ask (f : FileTree → Place → Except FileFault α) : Job α := askOr .file f

def look (f : FileTree → Place → α) : Job α := do
  let w ← get
  return f w.files w.here

/-- Changes the files, or nothing at all. -/
def change (f : FileTree → Place → Except FileFault FileTree) : Job Unit := do
  let t ← ask f
  modify fun w => { w with files := t }

def isFile (path : String) : Job Bool := look fun t here => t.isFile here path
def isDirectory (path : String) : Job Bool := look fun t here => t.isDirectory here path

def writeBytes (path : String) (content : ByteArray) : Job Unit :=
  change fun t here => t.write here path content

def writeText (path text : String) : Job Unit := writeBytes path text.toUTF8

/-- Writes a file that can be run. -/
def writeExecutable (path text : String) : Job Unit := do
  writeText path text
  change fun t here => t.setExecutable here path true

def makeDirectories (path : String) : Job Unit := do
  let w ← get
  let (t, r) := w.files.makeDirectories w.here path
  set { w with files := t }
  ofExcept (r.mapError .file)

/-- The path of the working directory. -/
def workingDirectory : Job String := do
  return (← get).here.text

/-- Runs a job. -/
def runOn (job : Job α) (w : Workspace) : Except Fault α × Workspace := job.run.run w

end Job
end Pipewright
