import Pipewright.Json.Decode
import Pipewright.Text.Lines

/-! Settings of a whole pipeline. -/
namespace Pipewright

/-- How the scheduler is asked. -/
structure Scheduler where
  queueSize : Option Nat
  pollInterval : Option String
  deriving DecidableEq, Repr, Inhabited

/-- The profile for a cluster. -/
structure Cluster where
  executor : String
  cpus : Nat
  penv : String
  errorStrategy : String
  clusterOptions : String
  deriving DecidableEq, Repr, Inhabited

/-- The program that runs containers. -/
structure ContainerRuntime where
  engine : String
  enabled : Bool
  autoMounts : Bool
  /-- Lines added as they are. -/
  extra : List String
  deriving DecidableEq, Repr, Inhabited

structure Settings where
  scheduler : Scheduler
  /-- The executor of the standard profile. -/
  localExecutor : String
  cluster : Cluster
  containers : ContainerRuntime
  /-- Settings of processes by label. -/
  labels : List (String × List (String × Literal))
  /-- The program that scripts send their results to. -/
  tool : String
  /-- The name under which the renderer of notebooks is found. -/
  captureProgram : String
  deriving Repr, Inhabited

namespace Scheduler

def standard : Scheduler := ⟨none, none⟩
def isEmpty (s : Scheduler) : Bool := s.queueSize.isNone && s.pollInterval.isNone

def decode? (strict : Json.Strictness) (v : Json) : Option Scheduler := do
  let fs ← Json.fields? strict ["queue_size", "poll_interval"] v
  let queueSize ← Json.optional? fs "queue_size" none (Json.nullable? (Json.natural? 32))
  let pollInterval ← Json.optional? fs "poll_interval" none (Json.nullable? Json.string?)
  return { queueSize, pollInterval }

end Scheduler

namespace Cluster

def standard : Cluster := ⟨"sge", 1, "smp", "retry", "-V -S /bin/bash -q all.q@apollo-*"⟩

def decode? (strict : Json.Strictness) (v : Json) : Option Cluster := do
  let fs ← Json.fields? strict ["executor", "cpus", "penv", "error_strategy", "cluster_options"] v
  let executor ← Json.optional? fs "executor" standard.executor Json.string?
  let cpus ← Json.optional? fs "cpus" standard.cpus (Json.natural? 32)
  let penv ← Json.optional? fs "penv" standard.penv Json.string?
  let errorStrategy ← Json.optional? fs "error_strategy" standard.errorStrategy Json.string?
  let clusterOptions ← Json.optional? fs "cluster_options" standard.clusterOptions Json.string?
  return { executor, cpus, penv, errorStrategy, clusterOptions }

end Cluster

namespace ContainerRuntime

def standard : ContainerRuntime := ⟨"singularity", true, true, []⟩

def decode? (strict : Json.Strictness) (v : Json) : Option ContainerRuntime := do
  let fs ← Json.fields? strict ["engine", "enabled", "auto_mounts", "extra"] v
  let engine ← Json.optional? fs "engine" standard.engine Json.string?
  let enabled ← Json.optional? fs "enabled" standard.enabled Json.bool?
  let autoMounts ← Json.optional? fs "auto_mounts" standard.autoMounts Json.bool?
  let extra ← Json.optional? fs "extra" standard.extra (Json.list? Json.string?)
  return { engine, enabled, autoMounts, extra }

end ContainerRuntime

namespace Settings

def standard : Settings where
  scheduler := .standard
  localExecutor := "local"
  cluster := .standard
  containers := .standard
  labels := []
  tool := "flowspect"
  captureProgram := "captureIntoNotebook.py"

def fieldNames : List String :=
  ["executor", "local_executor", "cluster", "containers", "labels", "tool", "capture_program"]

def decode? (strict : Json.Strictness) (v : Json) : Option Settings := do
  let fs ← Json.fields? strict fieldNames v
  let scheduler ← Json.optional? fs "executor" standard.scheduler (Scheduler.decode? strict)
  let localExecutor ← Json.optional? fs "local_executor" standard.localExecutor Json.string?
  let cluster ← Json.optional? fs "cluster" standard.cluster (Cluster.decode? strict)
  let containers ← Json.optional? fs "containers" standard.containers
    (ContainerRuntime.decode? strict)
  let labels ← Json.optional? fs "labels" standard.labels
    (Json.mapOf? (Json.mapOf? fun v => some (.ofJson v)))
  let tool ← Json.optional? fs "tool" standard.tool Json.string?
  let captureProgram ← Json.optional? fs "capture_program" standard.captureProgram Json.string?
  return { scheduler, localExecutor, cluster, containers, labels, tool, captureProgram }

/-- The command that scripts send their results to. -/
def saveCommand (s : Settings) : List String := wordsOf s.tool ++ ["save"]

end Settings
end Pipewright
