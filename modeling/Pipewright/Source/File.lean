import Pipewright.Source.Module
import Pipewright.Storage.Job

/-! Script modules in files. -/
namespace Pipewright.ScriptModule

def readFault (path : String) (e : FileFault) : Fault :=
  .parse s!"Failed to read file {path}: {e.message}"

/-- Reads the module in a file. -/
def load (path : String) : Job ScriptModule := do
  let source ← Job.askOr (readFault path) fun t here => t.readText here path
  return ofSource path source

end Pipewright.ScriptModule
