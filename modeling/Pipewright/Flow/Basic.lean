import Pipewright.Flow.Assigned
import Pipewright.Flow.Links
import Pipewright.Stage.Basic

/-! How channels flow between stages, and what looks wrong about it. Stages are told apart by their
position. -/
namespace Pipewright

/-- What looks wrong about channels. None of it stops a build. -/
inductive Finding where
  /-- A channel can be read only once. -/
  | manyConsumers (channel : String) (stages : List String)
  | notProduced (channel stage : String)
  /-- Stages that feed each other. -/
  | cycle (stages : List String)
  deriving DecidableEq, Repr

def Finding.text : Finding → String
  | .manyConsumers c ss =>
    s!"Channel '{c}' is consumed by several processes: " ++ joined ", " ss
  | .notProduced c s => s!"Channel '{c}' consumed by {s} is never produced"
  | .cycle ss => "Processes form a cycle: " ++ joined " → " (ss ++ ss.take 1)

namespace Flow

/-- Adds a consumer to those of a channel. -/
def addConsumer (consumers : List (String × List Nat)) (channel : String) (stage : Nat) :
    List (String × List Nat) :=
  Entries.put channel ((Entries.get? channel consumers).getD [] ++ [stage]) consumers

/-- The channels that stages read with the stages that read them, in the order in which they are
first read. -/
def consumers (stages : List Stage) : List (String × List Nat) :=
  stages.zipIdx.foldl (fun cs s => s.1.inchannels.foldl (fun cs c => addConsumer cs c s.2) cs) []

/-- The stages that write to a channel, once for each time that they name it. -/
def producers (stages : List Stage) (channel : String) : List Nat :=
  stages.zipIdx.flatMap fun s => (s.1.outchannels.filter (· = channel)).map fun _ => s.2

/-- The channels that are made outside of all stages. -/
def external (stages : List Stage) : List String :=
  stages.flatMap fun s =>
    (s.pretreat.flatMap fun st => assignedChannels st.text) ++
      (s.channels.filter Channel.fromParams).flatMap fun c => c.name.toList

/-- A link for each channel from a stage that writes to it to a stage that reads it. -/
def links (stages : List Stage) : Links :=
  (consumers stages).flatMap fun (channel, readers) =>
    (producers stages channel).flatMap fun p => readers.map fun c => (p, c)

def nameOf (stages : List Stage) (i : Nat) : String := ((stages[i]?).map Stage.name).getD ""

/-- The findings about one channel. -/
def channelFindings (stages : List Stage) (channel : String) (readers : List Nat) : List Finding :=
  (if 1 < readers.length then [.manyConsumers channel (readers.map (nameOf stages))] else []) ++
    (if (producers stages channel).isEmpty && !(external stages).contains channel then
      readers.map fun r => .notProduced channel (nameOf stages r)
    else [])

def cycleFindings (stages : List Stage) : List Finding :=
  (Links.loops stages.length (links stages)).map fun loop =>
    .cycle ((loop.map (nameOf stages)).mergeSort fun a b => decide (a ≤ b))

/-- The findings about the channels in the order in which they are first read, then the cycles. -/
def findings (stages : List Stage) : List Finding :=
  ((consumers stages).flatMap fun (channel, readers) => channelFindings stages channel readers) ++
    cycleFindings stages

end Flow
end Pipewright
