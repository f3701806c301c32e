import Pipewright.Binding.Basic
import Pipewright.CommandLine.Parser

/-! The values that a command line gives to the arguments of a script. -/
namespace Pipewright

/-- The arguments of one run. -/
structure BoundArguments where
  values : List (String × Literal)
  /-- What was asked to be shown of the results. -/
  peek : Option (List String)
  rest : List String
  deriving Repr

def BoundArguments.get? (b : BoundArguments) (dest : String) : Option Literal :=
  Entries.get? dest b.values

namespace Argument
open CommandLine

/-- The long names of the flags: those after two dashes, and several letters after one. -/
def longNames (flags : List String) : List String :=
  flags.filterMap fun f =>
    match f.toList with
    | '-' :: '-' :: name => some (String.ofList name)
    | ['-', _] => none
    | '-' :: name => some (String.ofList name)
    | _ => none

/-- The letter of the last flag that has one. -/
def shortName (flags : List String) : Option Char :=
  (flags.filterMap fun f =>
    match f.toList with
    | ['-', '-'] => none
    | ['-', c] => some c
    | _ => none).getLast?

/-- The option of an argument; without flags it is positional. -/
def option? (a : Argument) : Option Opt :=
  let longs := longNames a.flags
  let short := shortName a.flags
  if longs.isEmpty && short.isNone then none
  else some {
    id := a.dest
    longs
    short
    action := if a.kind.isList then .values ',' else .value none
    valueName := a.dest }

/-- The value of an argument from the words it was given. -/
def value (a : Argument) (words : Option (List String)) : Literal :=
  match words with
  | none => a.default.getD .none
  | some ws =>
    if a.kind.isList then
      let kind := if a.kind = .list then .strList else a.kind
      .list (ws.map kind.convert)
    else (ws.head?.map a.kind.convert).getD .none

end Argument

namespace Binding
open CommandLine

def peekOption : Opt where
  id := "displayMax"
  longs := ["peek"]
  short := some 'p'
  action := .value (some ',')
  valueName := "displayMax"

def inspectOption : Opt := .plain "inspect" (some 'i') .switch
def versionOption : Opt := .plain "version" none .version
def helpOption : Opt := .plain "help" (some 'h') .help

/-- What the command line of a script takes. -/
def spec (b : Binding) : Spec where
  options := [peekOption, inspectOption] ++ (if b.version.isSome then [versionOption] else []) ++
    b.arguments.filterMap Argument.option? ++ [helpOption]
  positionals := (b.arguments.filter fun a => a.option?.isNone).map Argument.dest
  hasRest := true

/-- The first line of a text. -/
def firstLineOf (s : String) : String := String.ofList (s.toList.takeWhile (· ≠ '\n'))

/-- Reads the command line of a script. -/
def parse (b : Binding) (argv : List String) : Except Fault BoundArguments :=
  match CommandLine.parse b.spec argv with
  | .error u =>
    let about := firstLineOf b.description
    .error (.arguments (u.firstLine about (firstLineOf (b.function ++ " " ++ b.version.getD ""))))
  | .ok st => .ok {
      values := b.arguments.map fun a => (a.dest, a.value (st.values? a.dest))
      peek := st.values? "displayMax"
      rest := st.rest }

end Binding
end Pipewright
