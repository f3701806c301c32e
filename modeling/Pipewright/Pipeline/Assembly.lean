import Pipewright.Container
import Pipewright.Flow.Basic
import Pipewright.Stage.Compile
import Pipewright.Template.Config

/-! The assembly of a pipeline: the scripts of its stages, the workflow and its configuration. -/
namespace Pipewright

/-- What a pipeline is made from. -/
structure Assembly where
  location : String
  settings : Settings
  /-- Pipeline parameters that are given; they win over those of stages. -/
  params : List (String × Literal)
  builder : Container.Builder
  stages : List Stage

/-- What an assembly has made so far. -/
structure AssemblyState where
  images : Container.Cache
  /-- The references of stages with the paths of their images. -/
  containers : List (String × String)
  blocks : List String
  processSettings : List (String × List (String × Literal))
  scripts : List String
  /-- The pipeline parameters of stages that are not given. -/
  added : List (String × Literal)
  deriving Inhabited

structure AssemblyReport where
  layout : Layout
  processes : List String
  scripts : List String
  /-- All pipeline parameters in the order of the configuration. -/
  params : List (String × Literal)
  containers : List (String × String)
  /-- The images that were built: references with paths. -/
  images : Container.Cache
  findings : List Finding
  deriving Inhabited

namespace Assembly

/-- Adds a parameter of a stage to those of earlier stages. A given one stands; of those of stages
the last counts. -/
def addParam (given added : List (String × Literal)) (p : String × Literal) :
    List (String × Literal) :=
  if (Entries.get? p.1 given).isSome then added else Entries.put p.1 p.2 added

/-- Notes the image of a reference, unless it is known. -/
def addContainer (containers : List (String × String)) (reference image : String) :
    List (String × String) :=
  if (Entries.get? reference containers).isSome then containers
  else containers ++ [(reference, image)]

/-- Resolves the container of a stage and puts it into its settings. -/
def addImage (a : Assembly) (root : String) (st : AssemblyState) (c : CompiledStage) :
    Job (AssemblyState × List (String × Literal)) := do
  match c.container with
  | none => return (st, c.settings)
  | some reference =>
    let (image, images) ← Container.resolve a.builder root reference st.images
    let containers := addContainer st.containers reference image
    return ({ st with images, containers }, c.settings ++ [("container", .str image)])

/-- Adds a compiled stage. -/
def addCompiled (a : Assembly) (root : String) (st : AssemblyState) (c : CompiledStage) :
    Job AssemblyState := do
  let (st, settings) ← a.addImage root st c
  return { st with
    added := c.params.foldl (addParam a.params) st.added
    blocks := st.blocks ++ [c.block]
    processSettings := st.processSettings ++ [(c.name, settings)]
    scripts := st.scripts ++ c.script.toList }

/-- Compiles a stage and adds it. -/
def addStage (a : Assembly) (layout : Layout) (st : AssemblyState) (s : Stage) :
    Job AssemblyState := do
  a.addCompiled layout.root st (← s.compile layout a.settings)

/-- The script that hands captures on to the tool. -/
def captureScript (settings : Settings) : String :=
  "#!/bin/sh\nexec " ++ settings.tool ++ " capture \"$@\"\n"

def writeCaptureScript (layout : Layout) (settings : Settings) : Job Unit :=
  Job.writeExecutable (Path.join layout.scripts settings.captureProgram) (captureScript settings)

def config (a : Assembly) (st : AssemblyState) : WorkflowConfig where
  params := a.params ++ st.added
  processes := st.processSettings
  settings := a.settings

def report (a : Assembly) (layout : Layout) (st : AssemblyState) : AssemblyReport where
  layout
  processes := a.stages.map Stage.name
  scripts := st.scripts
  params := a.params ++ st.added
  containers := st.containers
  images := st.images
  findings := Flow.findings a.stages

/-- Assembles a pipeline. The workflow and its configuration are written last, when all stages
have been compiled. -/
def run (a : Assembly) : Job AssemblyReport := do
  let layout ← Layout.create a.location
  writeCaptureScript layout a.settings
  Job.warn ((Flow.findings a.stages).map Finding.text)
  let st ← a.stages.foldlM (a.addStage layout) default
  Job.writeText layout.workflow (Workflow.render st.blocks)
  Job.writeText layout.config (a.config st).render
  return a.report layout st

end Assembly
end Pipewright
