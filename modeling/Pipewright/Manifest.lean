import Pipewright.Settings
import Pipewright.Stage.Basic
import Pipewright.Storage.Job
import Pipewright.Toml.Reader

/-! Manifests: a whole pipeline in one text. -/
namespace Pipewright

structure Manifest where
  name : String
  /-- Where the pipeline is written, if the manifest says so. -/
  target : Option String
  /-- Values of pipeline parameters. -/
  params : List (String × Literal)
  settings : Settings
  ownStages : List Stage
  /-- Channels that all stages share. -/
  shared : List Channel
  /-- The directory that relative paths start from. -/
  base : String
  deriving Inhabited

namespace Manifest

/-- Arrays may be longer than the pairs they stand for. -/
def strictness : Json.Strictness := ⟨false⟩

def decodeHead? (v : Json) : Option (String × Option String) := do
  let fs ← Json.fields? strictness ["name", "location"] v
  let name ← Json.required? fs "name" Json.string?
  let target ← Json.optional? fs "location" none (Json.nullable? Json.string?)
  return (name, target)

def decode? (base : String) (v : Json) : Option Manifest := do
  let fs ← Json.fields? strictness ["pipeline", "params", "settings", "process", "channel"] v
  let (name, target) ← Json.required? fs "pipeline" decodeHead?
  let params ← Json.optional? fs "params" [] (Json.mapOf? Stage.literal?)
  let settings ← Json.optional? fs "settings" .standard (Settings.decode? strictness)
  let ownStages ← Json.optional? fs "process" [] (Json.list? (Stage.decode? strictness))
  let shared ← Json.optional? fs "channel" [] (Json.list? (Channel.decode? strictness))
  return { name, target, params, settings, ownStages, shared, base }

/-- What is wrong with the stages, the first thing first. -/
def stageFault? : (seen : List String) → List Stage → Option Fault
  | _, [] => none
  | seen, s :: r =>
    if seen.contains s.name then some (.manifest s!"process '{s.name}' is declared twice")
    else if s.source.isNone && s.command.isNone then some s.sourceFault
    else stageFault? (s.name :: seen) r

/-- Lets the paths of a stage start from a directory. -/
def rebase (base : String) (s : Stage) : Stage :=
  { s with
    source := s.source.map (Path.join base)
    dependencies := { s.dependencies with
      inhousePackages := s.dependencies.inhousePackages.map (Path.join base) } }

/-- Reads a manifest whose relative paths start from `base`. -/
def read (base text : String) : Except Fault Manifest :=
  match (Toml.read? text).bind (decode? base) with
  | none => .error (.manifest "TOML parse error")
  | some m =>
    match stageFault? [] m.ownStages with
    | some e => .error e
    | none => .ok { m with ownStages := m.ownStages.map (rebase base) }

/-- Reads the manifest of a file; its paths start from the directory of the file. -/
def load (path : String) : Job Manifest := do
  let text ← Job.askOr (fun e => .manifest s!"cannot read {path}: {e.message}")
    fun t here => t.readText here path
  Job.ofExcept (read ((Path.parent? path).getD "") text)

/-- Where the pipeline is written: into `pipeline` beside the manifest, if it does not say. -/
def location (m : Manifest) : String := Path.join m.base (m.target.getD "pipeline")

/-- Adds a channel that no channel of the list has the name of. -/
def addShared (channels : List Channel) (c : Channel) : List Channel :=
  if channels.any fun own => own.name = c.name then channels else channels ++ [c]

/-- A stage with the shared channels that it does not declare itself. -/
def withShared (m : Manifest) (s : Stage) : Stage :=
  { s with channels := m.shared.foldl addShared s.channels }

def stages (m : Manifest) : List Stage := m.ownStages.map m.withShared

end Manifest
end Pipewright
