import Pipewright.Channel.Wiring
import Pipewright.Pipeline.Layout
import Pipewright.Settings
import Pipewright.Source.File
import Pipewright.Stage.Basic
import Pipewright.Stage.Packages
import Pipewright.Template.Process
import Pipewright.Template.Script

/-! What becomes of a stage: a block of the workflow and, for a function, a script. -/
namespace Pipewright

/-- The lines of a block. -/
structure BlockLines where
  inputs : List String
  outputs : List String
  command : String
  /-- The pipeline parameters that the inputs read, with their values. -/
  params : List (String × Literal)
  deriving Repr, Inhabited

structure CompiledStage where
  name : String
  block : String
  params : List (String × Literal)
  /-- The settings of the process, except for its container. -/
  settings : List (String × Literal)
  container : Option String
  environment : Option String
  /-- The path of the script of a function. -/
  script : Option String
  deriving Repr, Inhabited

/-- A function that is the body of a stage, with the module around it. -/
structure StageFunction where
  module : ScriptModule
  signature : Signature
  binding : Binding
  deriving Inhabited

namespace Stage

/-- The lines of a stage with a shell command; their inputs have to be given. -/
def commandLines (s : Stage) (command : String) : Except Fault BlockLines :=
  match s.inputs with
  | none => .error (.missingInputs s.name)
  | some inputs => .ok {
      inputs
      outputs := s.outputs.getD []
      command := trimmed command
      params := [] }

/-- The import lines of the script: those of the module and those of the dependencies. Packages
that are expected to be there are noted. -/
def importLines (s : Stage) (m : ScriptModule) : List String :=
  m.imports ++ s.dependencies.imports ++ s.dependencies.gitPackages.map ("# requires: " ++ ·)

/-- The script of a stage. -/
def script (s : Stage) (f : StageFunction) (packagesDir : String) (settings : Settings) :
    Script where
  packagesDir
  imports := s.importLines f.module
  helpers := (f.module.helpers s.function).map Signature.source
  functionSource := f.signature.source
  binding := f.binding
  overrides := s.overrides.map Overrides.text
  saveCommand := settings.saveCommand

def capture? (s : Stage) (settings : Settings) : Option Capture :=
  if s.captured then
    some ⟨settings.captureProgram, s.captureParams.1, s.captureParams.2, s.function⟩
  else none

def wiringRequest (s : Stage) (b : Binding) (settings : Settings) : WiringRequest where
  process := s.name
  binding := b
  channels := s.channels
  inchannels := s.inchannels
  outchannels := s.outchannels
  params := s.params
  capture := s.capture? settings

/-- The lines that a wiring declares. Given lines take their place; given inputs read no
pipeline parameters. -/
def wiredLines (s : Stage) (q : WiringRequest) (w : Wiring) : BlockLines where
  inputs := s.inputs.getD (w.inputs.map InputLine.text)
  outputs := s.outputs.getD (w.outputs.map OutputLine.text)
  command := Wiring.command q w
  params := if s.inputs.isSome then [] else w.pipelineParams

/-- A text between single quotes, if it does not start with a quote itself. -/
def quotedName (s : String) : String :=
  if s.startsWith "'" || s.startsWith "\"" then s else "'" ++ s ++ "'"

/-- The directives of the block; the environment is the last one. -/
def allDirectives (s : Stage) : List (String × String) :=
  s.directives ++ (s.environment?.map fun e => ("conda", quotedName e)).toList

def block (s : Stage) (lines : BlockLines) (doc : String) : ProcessBlock where
  name := s.name
  doc
  pretreat := s.pretreat.map Statement.parts
  directives := s.allDirectives
  inputs := lines.inputs
  outputs := lines.outputs
  command := lines.command

/-- A stage with its lines, the text that describes it and the path of its script. -/
def compiled (s : Stage) (lines : BlockLines) (doc : String) (script : Option String) :
    CompiledStage where
  name := s.name
  block := (s.block lines doc).render
  params := lines.params
  settings := s.processSettings.filter fun p => p.1 ≠ "container"
  container := s.image?
  environment := s.environment?
  script

/-- Reads the function of a stage. -/
def readFunction (s : Stage) (source : String) : Job StageFunction := do
  let m ← ScriptModule.load source
  let (b, warnings) ← Job.ofExcept
    (Binding.ofModule m s.function (s.overrides.getD Overrides.standard))
  Job.warn warnings
  let f ← Job.ofExcept (m.function s.function)
  return ⟨m, f, b⟩

/-- Compiles a stage with a function: packages, script, then wiring. -/
def compileFunction (s : Stage) (layout : Layout) (settings : Settings) : Job CompiledStage := do
  let source ← Job.ofExcept (match s.source with
    | some path => .ok path
    | none => .error s.sourceFault)
  let f ← s.readFunction source
  Packages.copy s.dependencies.inhousePackages layout.packages
  let path := layout.script s.name
  Job.writeExecutable path (s.script f layout.packages settings).render
  let q := s.wiringRequest f.binding settings
  Job.warn (Wiring.warnings q)
  let w ← Job.ofExcept (Wiring.wire q)
  let doc := (s.manualDoc.or f.signature.docstring).getD ""
  return s.compiled (s.wiredLines q w) doc (some path)

/-- Compiles a stage. -/
def compile (s : Stage) (layout : Layout) (settings : Settings) : Job CompiledStage := do
  match s.command with
  | some command =>
    let lines ← Job.ofExcept (s.commandLines command)
    return s.compiled lines (s.manualDoc.getD "") none
  | none => s.compileFunction layout settings

end Stage
end Pipewright
