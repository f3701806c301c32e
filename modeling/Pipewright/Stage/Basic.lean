import Pipewright.Binding.Override
import Pipewright.Channel.Basic

/-! Stages: the processes of a pipeline, each a function of a module or a shell command. -/
namespace Pipewright

/-- A statement before the block of a process. -/
inductive Statement where
  | line (text : String)
  /-- A chain of operators. -/
  | chain (parts : List String)
  deriving DecidableEq, Repr, Inhabited

namespace Statement

def parts : Statement → List String
  | .line t => [t]
  | .chain ps => ps

/-- The statement on one line. -/
def text (s : Statement) : String := joined "." s.parts

def decode? (v : Json) : Option Statement :=
  (Json.names? v).map fun
    | .one t => .line t
    | .list ps => .chain ps

end Statement

/-- What a stage needs besides its own script. -/
structure Dependencies where
  /-- The environment of a stage that names none. -/
  conda : Option String
  /-- The container of a stage that names none. -/
  container : Option String
  imports : List String
  /-- Packages that the environment is expected to have. -/
  gitPackages : List String
  /-- Directories of packages that are copied into the pipeline. -/
  inhousePackages : List String
  deriving DecidableEq, Repr, Inhabited

namespace Dependencies

def none : Dependencies := ⟨.none, .none, [], [], []⟩

def fieldNames : List String :=
  ["conda", "container", "imports", "git_packages", "inhouse_packages"]

def decode? (strict : Json.Strictness) (v : Json) : Option Dependencies := do
  let fs ← Json.fields? strict fieldNames v
  let conda ← Json.optional? fs "conda" .none (Json.nullable? Json.string?)
  let container ← Json.optional? fs "container" .none (Json.nullable? Json.string?)
  let imports ← Json.optional? fs "imports" [] (Json.list? Json.string?)
  let gitPackages ← Json.optional? fs "git_packages" [] (Json.list? Json.string?)
  let inhousePackages ← Json.optional? fs "inhouse_packages" [] (Json.list? Json.string?)
  return { conda, container, imports, gitPackages, inhousePackages }

end Dependencies

/-- One stage of a pipeline. -/
structure Stage where
  /-- The name of the process and of its script. -/
  name : String
  /-- The path of the module. -/
  source : Option String
  /-- The function that the script runs. -/
  function : String
  /-- A shell command in the place of a function. -/
  command : Option String
  inchannels : List String
  outchannels : List String
  /-- Values of parameters that no channel feeds. -/
  params : List (String × Literal)
  /-- Input lines in the place of those that the channels give. -/
  inputs : Option (List String)
  /-- Output lines in the place of those that the channels give. -/
  outputs : Option (List String)
  conda : Option String
  container : Option String
  processSettings : List (String × Literal)
  /-- Whether a notebook of each run is rendered too. -/
  captured : Bool
  /-- The variables with the title and the path of the notebook. -/
  captureParams : String × String
  /-- The settings of the arguments; without them one result goes to `-o`. -/
  overrides : Option Overrides
  /-- A description in the place of the docstring. -/
  manualDoc : Option String
  channels : List Channel
  pretreat : List Statement
  directives : List (String × String)
  dependencies : Dependencies
  deriving Repr, Inhabited

namespace Stage

def standardFunction : String := "process"
def standardCaptureParams : String × String := ("notebooktitle", "capturednotebook")

/-- A stage that runs a module and sets nothing else. -/
def simple (name source : String) : Stage where
  name
  source := some source
  function := standardFunction
  command := none
  inchannels := []
  outchannels := []
  params := []
  inputs := none
  outputs := none
  conda := none
  container := none
  processSettings := []
  captured := false
  captureParams := standardCaptureParams
  overrides := none
  manualDoc := none
  channels := []
  pretreat := []
  directives := []
  dependencies := .none

/-- The text, if it shows something. -/
def filled? (text : Option String) : Option String := text.filter fun t => !isBlankText t

/-- The environment: the stage's own or else the one its dependencies ask for. -/
def environment? (s : Stage) : Option String :=
  (filled? s.conda).or (filled? s.dependencies.conda)

/-- The container that the settings of the process name. -/
def settingsContainer? (s : Stage) : Option String :=
  match Entries.get? "container" s.processSettings with
  | some (.str t) => if t.isEmpty then none else some t
  | _ => none

/-- The container: the stage's own, the one in its settings or else the one its dependencies ask
for. -/
def image? (s : Stage) : Option String :=
  ((filled? s.container).or s.settingsContainer?).or (filled? s.dependencies.container)

/-- The fault of a stage that is neither a function nor a command. -/
def sourceFault (s : Stage) : Fault :=
  .manifest s!"process '{s.name}' needs either \x60source\x60 or \x60command\x60"

def fieldNames : List String :=
  ["name", "source", "function", "command", "inchannels", "outchannels", "params", "inputs",
    "outputs", "conda", "container", "process_settings", "capture", "capture_params", "arguments",
    "manual_doc", "channel", "pretreat", "directives", "dependencies"]

def literal? (v : Json) : Option Literal := some (.ofJson v)

def decode? (strict : Json.Strictness) (v : Json) : Option Stage := do
  let fs ← Json.fields? strict fieldNames v
  let strings? := Json.list? Json.string?
  let name ← Json.required? fs "name" Json.string?
  let source ← Json.optional? fs "source" none (Json.nullable? Json.string?)
  let function ← Json.optional? fs "function" standardFunction Json.string?
  let command ← Json.optional? fs "command" none (Json.nullable? Json.string?)
  let inchannels ← Json.optional? fs "inchannels" [] strings?
  let outchannels ← Json.optional? fs "outchannels" [] strings?
  let params ← Json.optional? fs "params" [] (Json.mapOf? literal?)
  let inputs ← Json.optional? fs "inputs" none (Json.nullable? strings?)
  let outputs ← Json.optional? fs "outputs" none (Json.nullable? strings?)
  let conda ← Json.optional? fs "conda" none (Json.nullable? Json.string?)
  let container ← Json.optional? fs "container" none (Json.nullable? Json.string?)
  let processSettings ← Json.optional? fs "process_settings" [] (Json.mapOf? literal?)
  let captured ← Json.optional? fs "capture" false Json.bool?
  let captureParams ← Json.optional? fs "capture_params" standardCaptureParams
    (Json.pair? strict Json.string?)
  let overrides ← Json.optional? fs "arguments" none
    (Json.nullable? (Overrides.decode? strict))
  let manualDoc ← Json.optional? fs "manual_doc" none (Json.nullable? Json.string?)
  let channels ← Json.optional? fs "channel" [] (Json.list? (Channel.decode? strict))
  let pretreat ← Json.optional? fs "pretreat" [] (Json.list? Statement.decode?)
  let directives ← Json.optional? fs "directives" [] (Json.mapOf? Json.string?)
  let dependencies ← Json.optional? fs "dependencies" .none (Dependencies.decode? strict)
  return {
    name, source, function, command, inchannels, outchannels, params, inputs, outputs, conda
    container, processSettings, captured, captureParams, overrides, manualDoc, channels, pretreat
    directives, dependencies }

end Stage
end Pipewright
