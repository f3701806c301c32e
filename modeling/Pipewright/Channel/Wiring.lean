import Pipewright.Binding.Basic
import Pipewright.Channel.Basic

/-! The wiring of a process: which channel feeds which parameter, the lines this declares and the
command it runs. -/
namespace Pipewright

/-- A line that reads values into variables. -/
structure InputLine where
  kind : String
  declaration : String
  /-- Whether the line reads a pipeline parameter rather than a channel. -/
  fromParams : Bool
  source : String
  transform : String
  deriving DecidableEq, Repr

def InputLine.text (l : InputLine) : String :=
  l.kind ++ " " ++ l.declaration ++ " from " ++ (if l.fromParams then "params." else "") ++
    l.source ++ l.transform

/-- A line that sends variables to channels. -/
structure OutputLine where
  kind : String
  declaration : String
  target : Names
  transform : String
  deriving DecidableEq, Repr

def OutputLine.text (l : OutputLine) : String :=
  l.kind ++ (if l.declaration.isEmpty then "" else " " ++ l.declaration) ++ l.target.route ++
    l.transform

/-- A flagged word of the command and the parameter it is for. -/
structure FlagWord where
  param : String
  text : String
  deriving DecidableEq, Repr

/-- The renderer of notebooks and what it is told. -/
structure Capture where
  program : String
  /-- The variable with the title. -/
  title : String
  /-- The variable with the path. -/
  notebook : String
  function : String
  deriving DecidableEq, Repr

/-- What the wiring of a process starts from. -/
structure WiringRequest where
  process : String
  binding : Binding
  channels : List Channel
  inchannels : List String
  outchannels : List String
  /-- Values of parameters that no channel feeds. -/
  params : List (String × Literal)
  capture : Option Capture

structure Wiring where
  inputs : List InputLine
  outputs : List OutputLine
  flags : List FlagWord
  /-- The words of positional arguments by parameter. -/
  positionals : List (String × String)
  /-- Words at the end, for the parameter that takes what is left. -/
  trailing : List String
  /-- The pipeline parameters that the process reads, with their values. -/
  pipelineParams : List (String × Literal)
  /-- Parameters that a channel feeds. -/
  bound : List String
  deriving Repr

namespace Wiring

def empty : Wiring := ⟨[], [], [], [], [], [], []⟩

/-- Passes a reference to a parameter. A flag that takes many words is attached to its value, or
it would take the words after it. -/
def emit (b : Binding) (w : Wiring) (param reference : String) : Wiring :=
  if isStarred param then { w with trailing := w.trailing ++ [reference] }
  else
    let many := (b.argument? param).any Argument.takesMany
    match b.flagTable.get? param with
    | some "" => { w with positionals := Entries.put param reference w.positionals }
    | some flag =>
      let text := if many then trimmedEnd flag ++ "=" ++ reference else flag ++ reference
      { w with flags := w.flags ++ [⟨param, text⟩] }
    | none => { w with flags := w.flags ++ [⟨param, "--" ++ param ++ " " ++ reference⟩] }

/-- Passes the variable of a channel to a parameter; no parameter is fed twice. -/
def emitBound (q : WiringRequest) (channel : Names) (w : Wiring) (param reference : String) :
    Except Fault Wiring :=
  if isStarred param then .ok (emit q.binding w param reference)
  else if w.bound.contains param then
    .error (.duplicateBinding q.process channel.display param)
  else .ok (emit q.binding { w with bound := w.bound ++ [param] } param reference)

/-- The parameters of a channel with the references to their variables. -/
def links (r : ResolvedChannel) : List (String × String) :=
  (r.params.zip r.vars).filterMap fun (p, v) => p.map fun p => (p, shellReference v)

/-- Feeds the parameters of a channel. -/
def feed (q : WiringRequest) (channel : Names) (w : Wiring) (r : ResolvedChannel) :
    Except Fault Wiring :=
  (links r).foldlM (fun w (p, reference) => emitBound q channel w p reference) w

/-- Whether a channel is among the inputs. -/
def isInput (q : WiringRequest) (c : Channel) : Bool :=
  c.name.single?.any q.inchannels.contains

/-- Whether a channel is among the outputs. -/
def isOutput (q : WiringRequest) (c : Channel) : Bool :=
  c.name.toList.any q.outchannels.contains

def inputLine (c : Channel) (name : String) (r : ResolvedChannel) : InputLine :=
  ⟨c.kind.getD "", r.declaration, c.fromParams, name, c.transform.getD ""⟩

def outputLine (c : Channel) (r : ResolvedChannel) : OutputLine :=
  ⟨c.kind.getD "", r.declaration, c.name, c.transform.getD ""⟩

/-- Wires one input channel. -/
def wireInput (q : WiringRequest) (w : Wiring) (c : Channel) : Except Fault Wiring := do
  let r ← c.resolve
  let w ← feed q c.name w r
  let name := c.name.single?.getD ""
  return { w with
    inputs := w.inputs ++ [inputLine c name r]
    pipelineParams := w.pipelineParams ++
      if c.fromParams then [(name, (Entries.get? name q.params).getD .none)] else [] }

/-- Wires one output channel. -/
def wireOutput (q : WiringRequest) (w : Wiring) (c : Channel) : Except Fault Wiring := do
  let r ← c.resolve
  let w ← feed q c.name w r
  return { w with outputs := w.outputs ++ [outputLine c r] }

/-- The value of a parameter that no channel feeds. -/
def fallbackValue (q : WiringRequest) (param : String) : Literal :=
  ((Entries.get? param q.params).or ((q.binding.argument? param).bind Argument.default)).getD .none

def fallbackLine (param : String) : InputLine := ⟨"val", param, true, param, ""⟩

/-- Feeds a parameter from the pipeline parameter of its name. -/
def fallBack (q : WiringRequest) (w : Wiring) (param : String) : Wiring :=
  emit q.binding { w with
    inputs := w.inputs ++ [fallbackLine param]
    pipelineParams := w.pipelineParams ++ [(param, fallbackValue q param)] } param ("$" ++ param)

/-- A file argument without a channel: its name is a pipeline parameter and is sent on. -/
def fallBackOutput (q : WiringRequest) (w : Wiring) (param : String) : Wiring :=
  let w := fallBack q w param
  { w with outputs := w.outputs ++ [⟨"val", param, .one param, ""⟩] }

/-- The parameters that none of the channels names. -/
def unclaimed (cs : List Channel) (params : List String) : List String :=
  let claimed := cs.flatMap Channel.paramNames
  params.filter fun p => !claimed.contains p

/-- Wires a process: input channels, inputs without a channel, output channels, outputs without
a channel. -/
def wire (q : WiringRequest) : Except Fault Wiring := do
  let ins := q.channels.filter (isInput q)
  let outs := q.channels.filter (isOutput q)
  let table := q.binding.flagTable
  let w ← (ins.filter fun c => !c.isSkipped).foldlM (wireInput q) empty
  let w := (unclaimed ins (table.inputs.map Prod.fst)).foldl (fallBack q) w
  let w ← (outs.filter fun c => !c.isSkipped).foldlM (wireOutput q) w
  return (unclaimed outs (table.outputs.map Prod.fst)).foldl (fallBackOutput q) w

/-- The words of the positional arguments in the order of the arguments. -/
def positionalWords (b : Binding) (w : Wiring) : List String :=
  b.arguments.filterMap fun a => Entries.get? a.param w.positionals

/-- The words after the script: positional, flagged, trailing. -/
def words (b : Binding) (w : Wiring) : List String :=
  positionalWords b w ++ w.flags.map FlagWord.text ++ w.trailing

/-- The command of a process, followed by the one that captures it. -/
def command (q : WiringRequest) (w : Wiring) : String :=
  let run := joined " " ((q.process ++ ".py") :: words q.binding w)
  match q.capture with
  | none => run
  | some c =>
    run ++ "\n" ++ c.program ++ " --notebooktitle $" ++ c.title ++ " --capturednotebook $" ++
      c.notebook ++ " --function " ++ c.function ++ " " ++ run

def paramWarning (q : WiringRequest) (name : String) : String :=
  s!"Parameter '{name}' is not a parameter of {q.process} and is ignored"

def fanOutWarning (q : WiringRequest) (c : Channel) : String :=
  s!"Channel '{c.name.display}' fans out and cannot be an input of {q.process}, ignoring it"

/-- Values for parameters that do not exist. -/
def strayParams (q : WiringRequest) : List String :=
  (q.params.map Prod.fst).filter fun n =>
    (q.binding.argument? n).isNone && !(q.channels.any fun c => c.name.toList.contains n)

/-- The warnings about an input channel, and whether wiring goes on after it. -/
def inputWarnings (q : WiringRequest) (w : Wiring) : List Channel → List String
  | [] => []
  | c :: cs =>
    if c.name.isList then
      (if c.name.toList.any q.inchannels.contains then [fanOutWarning q c] else []) ++
        inputWarnings q w cs
    else if isInput q c && !c.isSkipped then
      match wireInput q w c with
      | .ok w => inputWarnings q w cs
      | .error _ => []
    else inputWarnings q w cs

/-- The warnings of a wiring; a fault keeps those of the channels after it back. -/
def warnings (q : WiringRequest) : List String :=
  (strayParams q).map (paramWarning q) ++ inputWarnings q empty q.channels

end Wiring
end Pipewright
