import Pipewright.Binding.Override
import Pipewright.Docstring
import Pipewright.Source.Module

/-! The command line that a script offers for one of its functions. -/
namespace Pipewright

/-- What an argument is for. -/
inductive Role where
  | input
  /-- The argument names the file of a result, counted from one. -/
  | output (result : Nat)
  deriving DecidableEq, Repr, Inhabited

/-- One argument of a script. -/
structure Argument where
  param : String
  /-- The name under which its value is found. -/
  dest : String
  flags : List String
  help : String
  default : Option Literal
  kind : ArgumentKind
  nargs : Option String
  role : Role
  /-- Whether the function takes it by keyword only. -/
  keyword : Bool
  deriving Repr, Inhabited

namespace Argument

def isPositional (a : Argument) : Bool := a.flags.isEmpty

/-- The first flag and a blank, or nothing for positional arguments. -/
def spelling (a : Argument) : String := (a.flags.head?.map (· ++ " ")).getD ""

/-- Whether the argument takes any number of words. -/
def takesMany (a : Argument) : Bool :=
  match a.nargs with
  | some n => n = "*" || n = "+" || n = "?"
  | none => a.kind.isList

end Argument

/-- How each parameter is spelled on the command line. -/
structure FlagTable where
  inputs : List (String × String)
  outputs : List (String × String)
  deriving Repr, Inhabited

namespace FlagTable

def get? (t : FlagTable) (param : String) : Option String :=
  Entries.get? param (t.inputs ++ t.outputs)

def isOutput (t : FlagTable) (param : String) : Bool := t.outputs.any fun p => p.1 = param

def ofArguments (inputs outputs : List Argument) : FlagTable :=
  ⟨inputs.map fun a => (a.param, a.spelling), outputs.map fun a => (a.param, a.spelling)⟩

end FlagTable

structure Binding where
  function : String
  description : String
  /-- Inputs in the order of the signature, then the arguments that name files. -/
  arguments : List Argument
  flagTable : FlagTable
  /-- For each result the destination that names its file. -/
  outputs : List (Option String)
  version : Option String
  inspectDoc : String
  restParam : Option String
  deriving Repr, Inhabited

namespace Binding

/-- A value with the warnings met on the way to it. -/
abbrev Warned (α : Type) := α × List String

/-- The flags of an input and its destination. A default makes it a flagged argument. -/
def inputFlags (param : String) (tune : Option Override) (default : Option Literal) :
    List String × String :=
  let flags := (tune.map Override.flags).getD []
  let dest := tune.bind Override.dest
  let (flags, dest) := if default.isSome && flags.length < 2 then (["--" ++ param], some param)
    else (flags, dest)
  let flagged := dest.isSome || flags.any fun f => f.startsWith "-"
  (if flagged then flags else [], dest.getD param)

/-- The argument for a parameter of the function. -/
def inputArgument (doc : Docstring) (p : Param) (tune : Option Override) : Argument :=
  let keyword := p.kind = .keywordOnly
  let default := (tune.bind Override.default).or (if keyword then p.default else none)
  let (flags, dest) := inputFlags p.name tune default
  { param := p.name
    dest
    flags
    help := ((tune.bind Override.help).or (doc.help? p.name)).getD ""
    default
    kind := ((tune.bind Override.kind).or (p.annotation.map ArgumentKind.ofAnnotation)).getD .str
    nargs := tune.bind Override.nargs
    role := .input
    keyword }

/-- A flag without the dashes in front. -/
def flagName (flag : String) : String := String.ofList (flag.toList.dropWhile (· = '-'))

/-- The argument that names the file of a result. -/
def outputArgument (name : String) (o : Override) : Argument :=
  let long := ((o.flags.find? fun f => f.startsWith "--").or o.flags.head?).getD ""
  { param := name
    dest := o.dest.getD (flagName long)
    flags := o.flags
    help := o.help.getD ""
    default := o.default
    kind := o.kind.getD .str
    nargs := o.nargs
    role := .output o.output
    keyword := false }

/-- The settings of names that are no parameters. -/
def foreign (f : Signature) (os : Overrides) : Overrides :=
  os.filter fun (name, _) => (f.param? name).isNone && name ≠ "self"

def resultIndex (a : Argument) : Nat :=
  match a.role with
  | .output n => n
  | .input => 0

/-- Inserts an argument after those of the same and of earlier results. -/
def insertByResult (a : Argument) : List Argument → List Argument
  | [] => [a]
  | b :: bs => if resultIndex a < resultIndex b then a :: b :: bs else b :: insertByResult a bs

def sortByResult (as : List Argument) : List Argument :=
  as.foldl (fun sorted a => insertByResult a sorted) []

/-- The arguments that name files, in the order of their results. -/
def outputArguments (f : Signature) (os : Overrides) : List Argument :=
  sortByResult (((foreign f os).filter fun (_, o) => o.output ≠ 0 && !o.flags.isEmpty).map
    fun (name, o) => outputArgument name o)

/-- The number of results: at least one, and as many as the settings name. -/
def resultCount (f : Signature) (os : Overrides) : Nat :=
  (foreign f os).foldl (fun n (_, o) => max n o.output) 1

/-- Sends each result to the last argument for it. -/
def outputDests (count : Nat) (as : List Argument) : List (Option String) :=
  as.foldl (fun slots a => slots.set (resultIndex a - 1) (some a.dest)) (List.replicate count none)

def inputWarning (f : Signature) (p : Param) : String :=
  s!"Parameter '{p.name}' of '{f.name}' is a function parameter and cannot be an output"

def foreignWarning (f : Signature) (name : String) : String :=
  s!"Argument '{name}' matches no parameter of '{f.name}' and names no output"

def warnings (f : Signature) (os : Overrides) : List String :=
  ((f.exposed.filter fun p => (os.get? p.name).any fun o => 0 < o.output).map (inputWarning f)) ++
    ((foreign f os).filter fun (_, o) => o.output = 0).map fun (name, _) => foreignWarning f name

/-- The command line of a function on its own. -/
def ofSignature (f : Signature) (os : Overrides) : Binding :=
  let doc := Docstring.read f.docstring
  let inputs := f.exposed.map fun p => inputArgument doc p (os.get? p.name)
  let outputs := outputArguments f os
  { function := f.name
    description := doc.description
    arguments := inputs ++ outputs
    flagTable := .ofArguments inputs outputs
    outputs := outputDests (resultCount f os) outputs
    version := none
    inspectDoc := ""
    restParam := f.restParam? }

def docEntry (f : Signature) : String := f.name ++ "\n" ++ f.docstring.getD ""

/-- What the script shows about its functions. -/
def inspectText (m : ScriptModule) (master : Signature) : String :=
  "The master function:\n\n" ++ docEntry master ++ "\n\n\nThe helper functions:\n\n" ++
    joined "" ((m.helpers master.name).map fun f => docEntry f ++ "\n\n\n")

/-- The command line of a function of a module. -/
def ofModule (m : ScriptModule) (function : String) (os : Overrides) :
    Except Fault (Warned Binding) := do
  let f ← m.function function
  return ({ ofSignature f os with
    version := m.version?
    inspectDoc := inspectText m f }, warnings f os)

def argument? (b : Binding) (param : String) : Option Argument :=
  b.arguments.find? fun a => a.param = param

def inputArguments (b : Binding) : List Argument := b.arguments.filter fun a => a.role = .input
def fileArguments (b : Binding) : List Argument := b.arguments.filter fun a => a.role ≠ .input

end Binding
end Pipewright
