import Pipewright.Settings

/-! The configuration of the workflow. -/
namespace Pipewright

structure WorkflowConfig where
  params : List (String × Literal)
  /-- Settings of single processes. -/
  processes : List (String × List (String × Literal))
  settings : Settings

namespace WorkflowConfig

def paramLine (p : String × Literal) : String := "params." ++ p.1 ++ " = " ++ p.2.config ++ "\n"

/-- A text between single quotes as it is. -/
def inQuotes (s : String) : String := "'" ++ s ++ "'"

def schedulerText (s : Scheduler) : String :=
  if s.isEmpty then ""
  else
    "\nexecutor \x7b\n" ++
      ((s.queueSize.map fun n => "    queueSize = " ++ toString n ++ "\n").getD "") ++
      ((s.pollInterval.map fun t => "    pollInterval = " ++ inQuotes t ++ "\n").getD "") ++
      "\x7d\n"

def profilesText (s : Settings) : String :=
  "\nprofiles \x7b\n" ++
    "    standard \x7b\n" ++
    "        process.executor = " ++ inQuotes s.localExecutor ++ "\n" ++
    "    \x7d\n" ++
    "    cluster \x7b\n" ++
    "        process.executor = " ++ inQuotes s.cluster.executor ++ "\n" ++
    "        process.cpus = " ++ toString s.cluster.cpus ++ "\n" ++
    "        process.penv = " ++ inQuotes s.cluster.penv ++ "\n" ++
    "        process.errorStrategy = " ++ inQuotes s.cluster.errorStrategy ++ "\n" ++
    "        process.clusterOptions = \x7b " ++ inQuotes s.cluster.clusterOptions ++ " \x7d\n" ++
    "    \x7d\n" ++
    "\x7d\n"

/-- Settings under a selector. -/
def selected (selector name : String) (values : List (String × Literal)) : String :=
  "    " ++ selector ++ ":" ++ name ++ " \x7b\n" ++
    joined "" (values.map fun (k, v) => "        " ++ k ++ " = " ++ v.config ++ "\n") ++
    "    \x7d\n"

def processText (c : WorkflowConfig) : String :=
  "process \x7b\n" ++
    joined "" ((c.processes.filter fun p => !p.2.isEmpty).map fun p =>
      selected "withName" p.1 p.2) ++
    joined "" (c.settings.labels.map fun l => selected "withLabel" l.1 l.2) ++ "\x7d\n"

def runtimeText (r : ContainerRuntime) : String :=
  r.engine ++ " \x7b\n" ++
    "    enabled = " ++ toString r.enabled ++ "\n" ++
    "    autoMounts = " ++ toString r.autoMounts ++ "\n" ++
    joined "" (r.extra.map fun l => "    " ++ l ++ "\n") ++ "\x7d\n"

def render (c : WorkflowConfig) : String :=
  joined "" (c.params.map paramLine) ++ "\n" ++ schedulerText c.settings.scheduler ++
    profilesText c.settings ++ processText c ++ runtimeText c.settings.containers

end WorkflowConfig
end Pipewright
