import Pipewright.Cleanup
import Pipewright.Manifest
import Pipewright.Pipeline.Assembly
import Pipewright.Program.ImageBuilder
import Pipewright.Program.Runner
import Pipewright.Result.Saving
import Pipewright.Tool.Command

/-! What the commands of the tool do. -/
namespace Pipewright.Tool

/-- Why a command fails. -/
inductive Failure where
  | fault (e : Fault)
  | told (text : String)
  deriving DecidableEq, Repr

/-- A failure in words. A fault comes with a hint on how to recover from it. -/
def Failure.text : Failure → String
  | .fault e => e.message ++ e.hintText
  | .told text => text

abbrev Deed (α : Type) := ExceptT Failure (StateM Workspace) α

/-- What the tool knows from outside: the text that comes in, and the home of the user. -/
structure Surroundings where
  input : String
  home : Option String
  deriving Repr, Inhabited

/-- How a run of the tool ends. -/
structure Exit where
  code : Nat
  /-- What is said about a failure. -/
  complaint : String
  /-- Whether the last line of the output still lacks the time it took. -/
  untimed : Bool
  deriving DecidableEq, Repr, Inhabited

namespace Deed

def ofJob (job : Job α) : Deed α := fun w =>
  let (r, w) := job.runOn w
  (r.mapError .fault, w)

def fail (text : String) : Deed α := throw (.told text)

def say (line : String) : Deed Unit := ofJob (Job.print (line ++ "\n"))

end Deed

/-! Colours of the terminal -/

def styled (style text : String) : String := "\x1b[" ++ style ++ "m" ++ text ++ "\x1b[0m"
def bold : String → String := styled "1"
def dim : String → String := styled "2"
def green : String → String := styled "32"
def yellow : String → String := styled "33"
def cyan : String → String := styled "36"

/-! The commands -/

def headline (verb subject : String) : String :=
  "\n" ++ bold name ++ " - " ++ verb ++ " " ++ cyan subject ++ "\n"

/-- The lines about an assembled pipeline, but for the last. -/
def reportLines (r : AssemblyReport) : List String :=
  (r.processes.map fun p => "  " ++ green "✓" ++ " " ++ p) ++
    (r.scripts.map fun s => "  " ++ dim "script" ++ " " ++ s) ++
    (r.containers.map fun c => "  " ++ dim "container" ++ " " ++ c.1 ++ " → " ++ c.2) ++
    r.findings.map fun f => "  " ++ yellow "warning" ++ " " ++ f.text

def reportEnd (r : AssemblyReport) : String :=
  "\n" ++ green "Built" ++ " " ++ r.layout.workflow ++ " (" ++ toString r.processes.length ++
    " processes, " ++ toString r.params.length ++ " params)"

def assembly (m : Manifest) (output : Option String) : Assembly where
  location := output.getD m.location
  settings := m.settings
  params := m.params
  builder := Container.programBuilder none
  stages := m.stages

def performBuild (path : String) (output : Option String) : Deed Unit := do
  if !(← Deed.ofJob (Job.look fun t here => t.exists? here path)) then
    let here ← Deed.ofJob Job.workingDirectory
    Deed.fail s!"Manifest not found: {path} (current directory: {here})"
  let m ← Deed.ofJob (Manifest.load path)
  Deed.say (headline "Building" m.name)
  let report ← Deed.ofJob (assembly m output).run
  (reportLines report).forM Deed.say
  Deed.ofJob (Job.print (reportEnd report))

/-- The file of environment variables in the home of the user. -/
def standardEnvFile : String := ".sge_env"

def performRun (around : Surroundings) (r : Runner) : Deed Unit := do
  if !(← Deed.ofJob (Job.isFile (Path.join r.location "main.nf"))) then
    Deed.fail s!"No main.nf in {r.location}; run \x60flowspect build\x60 first"
  Deed.say (headline "Running" r.location)
  let envFile := r.envFile.or (around.home.map fun h => Path.join h standardEnvFile)
  let (lines, outcome) ← Deed.ofJob { r with envFile : Runner }.run
  lines.forM Deed.say
  match outcome with
  | .ok () => Deed.say ("\n" ++ green "Done")
  | .error e => throw (.fault e)

def performSave (around : Surroundings) (peek : Option Peek) : Deed Unit := do
  let entries ← Deed.ofJob (Job.ofExcept (ResultEntry.readAll around.input))
  let _ ← Deed.ofJob (ResultEntry.saveAll entries peek)

def column (s : String) : String := "  " ++ padded 24 s ++ " "

def argumentLines (a : Argument) : List String :=
  let default := (a.default.map fun v => " = " ++ v.script).getD ""
  let role := match a.role with
    | .input => "input"
    | .output n => "result " ++ toString n
  let names := if a.isPositional then a.dest else joined ", " a.flags
  (column names ++ dim (a.kind.title ++ default) ++ " [" ++ role ++ "]") ::
    if a.help.isEmpty then [] else [column "" ++ a.help]

def flagLine (note : String) (p : String × String) : String :=
  column p.1 ++ "'" ++ p.2 ++ "'" ++ note

/-- The lines about the command line of a script. -/
def bindingLines (b : Binding) (doc : Bool) : List String :=
  [bold b.function] ++ (b.version.map ("version " ++ ·)).toList ++
    (if b.description.isEmpty then [] else ["\n" ++ trimmedEnd b.description]) ++
    ["\n" ++ bold "Arguments"] ++ b.arguments.flatMap argumentLines ++
    ["\n" ++ bold "Flag table"] ++ b.flagTable.inputs.map (flagLine "") ++
    b.flagTable.outputs.map (flagLine " (output)") ++
    if doc then ["\n" ++ b.inspectDoc] else []

def performInspect (script function : String) (doc : Bool) : Deed Unit := do
  if !(← Deed.ofJob (Job.isFile script)) then Deed.fail s!"Script not found: {script}"
  let m ← Deed.ofJob (ScriptModule.load script)
  let (b, warnings) ← Deed.ofJob (Job.ofExcept (Binding.ofModule m function Overrides.standard))
  Deed.ofJob (Job.warn warnings)
  (bindingLines b doc).forM Deed.say

def performClean (location : String) (pipeline : Bool) : Deed Unit := do
  if !(← Deed.ofJob (Job.isDirectory location)) then Deed.fail s!"Not a directory: {location}"
  let removed ← Deed.ofJob (Cleanup.run location pipeline)
  removed.forM fun p => Deed.say ("  " ++ dim "removed" ++ " " ++ p)
  Deed.say (green "Cleaned" ++ " " ++ toString removed.length ++ " entries")

def perform (around : Surroundings) : Command → Deed Unit
  | .build manifest output => performBuild manifest output
  | .run location profile resume envFile ansiLog =>
    performRun around { location, program := none, envFile, profile, resume, ansiLog }
  | .capture request target => do
    let _ ← Deed.ofJob (request.run target)
  | .save peek => performSave around peek
  | .inspect script function doc => performInspect script function doc
  | .clean location pipeline => performClean location pipeline

def isBuild : Command → Bool
  | .build .. => true
  | _ => false

/-- Runs the tool. -/
def run (around : Surroundings) (words : List String) : StateM Workspace Exit := do
  match read words with
  | .error (.misused line) => return ⟨2, line ++ "\n", false⟩
  | .error (.shown text) =>
    modify fun w => { w with output := w.output ++ text.toUTF8 }
    return ⟨0, "", false⟩
  | .ok command =>
    match ← (perform around command).run with
    | .ok () => return ⟨0, "", isBuild command⟩
    | .error e => return ⟨1, "Error: " ++ e.text ++ "\n", false⟩

end Pipewright.Tool
