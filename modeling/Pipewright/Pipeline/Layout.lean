import Pipewright.Storage.Job

/-! The directories of a pipeline. -/
namespace Pipewright

/-- Where the parts of a pipeline are written. -/
structure Layout where
  root : String
  deriving DecidableEq, Repr, Inhabited

namespace Layout

/-- Where the scripts are. -/
def scripts (l : Layout) : String := Path.join l.root "bin"

/-- Where the packages that scripts import are. -/
def packages (l : Layout) : String := Path.join l.root "packages"

def workflow (l : Layout) : String := Path.join l.root "main.nf"
def config (l : Layout) : String := Path.join l.root "nextflow.config"
def script (l : Layout) (process : String) : String := Path.join l.scripts (process ++ ".py")

/-- The layout below a path, with its directories made. -/
def create (location : String) : Job Layout := do
  let l : Layout := ⟨Path.join (← Job.workingDirectory) location⟩
  Job.makeDirectories l.scripts
  Job.makeDirectories l.packages
  return l

end Layout
end Pipewright
