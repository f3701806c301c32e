import Pipewright.Entries
import Pipewright.Text.Lines

/-! Command lines made of options, positional words and a rest.

Options are `--long value`, `--long=value`, `-s value`, `-svalue` or `-s=value`; switches in short
form can be grouped. Words that start with a dash are options, until the rest starts: it takes
everything. -/
namespace Pipewright.CommandLine

/-- What an option does. -/
inductive Action where
  /-- Takes one word; a separator may split it. -/
  | value (separator : Option Char)
  /-- Takes all words up to the next option, each split at a separator, again and again. -/
  | values (separator : Char)
  | switch
  | help
  | version
  deriving DecidableEq, Repr

structure Opt where
  id : String
  /-- Long names without dashes; the first one is the name in messages. -/
  longs : List String
  short : Option Char
  action : Action
  /-- The name of the value in messages. -/
  valueName : String
  /-- What is wrong with a word as its value, if anything is. -/
  refuses : String → Option String := fun _ => none

/-- What a command takes. -/
structure Spec where
  options : List Opt
  /-- The words taken one each, in order. -/
  positionals : List String
  /-- Whether further words are allowed. -/
  hasRest : Bool

inductive Usage where
  | unexpected (word : String)
  | missingValue (option : String)
  | repeated (option : String)
  | surplusValue (value option : String)
  | invalidValue (value option reason : String)
  | help
  | version
  deriving DecidableEq, Repr

namespace Usage

/-- The first line of what is told about a command line; `about` and `version` are the lines that
help and version start with. -/
def firstLine (about version : String) : Usage → String
  | .unexpected w => s!"error: unexpected argument '{w}' found"
  | .missingValue o => s!"error: a value is required for '{o}' but none was supplied"
  | .repeated o => s!"error: the argument '{o}' cannot be used multiple times"
  | .surplusValue v o => s!"error: unexpected value '{v}' for '{o}' found; no more were expected"
  | .invalidValue v o reason => s!"error: invalid value '{v}' for '{o}': {reason}"
  | .help => about
  | .version => version

end Usage

namespace Opt

/-- An option of one name without a value. -/
def plain (name : String) (short : Option Char) (action : Action) : Opt where
  id := name
  longs := [name]
  short
  action
  valueName := ""

def takesValue (o : Opt) : Bool :=
  match o.action with
  | .value _ | .values _ => true
  | _ => false

def takesMany (o : Opt) : Bool :=
  match o.action with
  | .values _ => true
  | _ => false

/-- The option in messages. -/
def display (o : Opt) : String :=
  let flag := match o.longs, o.short with
    | l :: _, _ => "--" ++ l
    | [], some c => "-" ++ c.toString
    | [], none => ""
  if o.takesValue then flag ++ " <" ++ o.valueName ++ ">" else flag

/-- The values that a word stands for. -/
def split (o : Opt) (word : String) : List String :=
  match o.action with
  | .value (some c) | .values c => pieces c word
  | _ => [word]

end Opt

/-- What a command line gave to an id, in order. -/
abbrev Given := List (String × List String)

/-- Adds values to those of an id. -/
def addGiven (id : String) (vs : List String) (given : Given) : Given :=
  Entries.put id ((Entries.get? id given).getD [] ++ vs) given

structure State where
  given : Given
  /-- An option whose words are not complete, with those it has. -/
  pending : Option (Opt × List String)
  /-- Whether the next plain word goes to the pending option. -/
  accepts : Bool
  /-- The number of positional words so far. -/
  filled : Nat
  /-- Whether options are over. -/
  trailing : Bool
  rest : List String

def State.initial : State := ⟨[], none, false, 0, false, []⟩

/-- Takes the words of an option. -/
def take (st : State) (o : Opt) (words : List String) : Except Usage State :=
  match o.action with
  | .help => .error .help
  | .version => .error .version
  | .values _ => .ok { st with given := addGiven o.id (words.flatMap o.split) st.given }
  | .value _ =>
    if words.isEmpty then .error (.missingValue o.display)
    else if (Entries.get? o.id st.given).isSome then .error (.repeated o.display)
    else
      match words.findSome? fun w => (o.refuses w).map fun reason => (w, reason) with
      | some (w, reason) => .error (.invalidValue w o.display reason)
      | none => .ok { st with given := addGiven o.id (words.flatMap o.split) st.given }
  | .switch =>
    if (Entries.get? o.id st.given).isSome then .error (.repeated o.display)
    else .ok { st with given := addGiven o.id ["true"] st.given }

/-- Takes the words of the pending option, if there is one. -/
def settle (st : State) : Except Usage State :=
  match st.pending with
  | none => .ok st
  | some (o, words) => take { st with pending := none } o words

/-- An option with all its words. -/
def complete (st : State) (o : Opt) (words : List String) : Except Usage State := do
  let st ← settle { st with accepts := false }
  take st o words

/-- An option whose words follow. -/
def await (st : State) (o : Opt) : Except Usage State := do
  let st ← settle st
  return { st with pending := some (o, []), accepts := true }

/-- A word that belongs to no option. -/
def positional (spec : Spec) (st : State) (word : String) : Except Usage State := do
  match spec.positionals[st.filled]? with
  | some id =>
    let st ← settle st
    return { st with
      given := addGiven id [word] st.given
      filled := st.filled + 1
      accepts := false }
  | none =>
    if spec.hasRest then
      let st ← settle st
      return { st with rest := st.rest ++ [word], trailing := true, accepts := false }
    else .error (.unexpected word)

/-- A word that is no option: it goes to the pending option or is positional. -/
def plain (spec : Spec) (st : State) (word : String) : Except Usage State :=
  match st.accepts, st.pending with
  | true, some (o, words) =>
    .ok { st with pending := some (o, words ++ [word]), accepts := o.takesMany }
  | _, _ => positional spec st word

def Spec.long? (spec : Spec) (name : String) : Option Opt :=
  spec.options.find? fun o => o.longs.contains name

def Spec.short? (spec : Spec) (c : Char) : Option Opt :=
  spec.options.find? fun o => o.short = some c

/-- Whether the next positional word would start the rest. -/
def atRest (spec : Spec) (st : State) : Bool :=
  spec.hasRest && spec.positionals.length ≤ st.filled

/-- A word that starts with two dashes, without them. -/
def long (spec : Spec) (st : State) (word : String) (body : List Char) : Except Usage State :=
  let name := String.ofList (body.takeWhile (· ≠ '='))
  let value? := match body.dropWhile (· ≠ '=') with
    | _ :: v => some (String.ofList v)
    | [] => none
  match spec.long? name with
  | some o =>
    match o.takesValue, value? with
    | true, some v => complete st o [v]
    | true, none => await st o
    | false, some v => .error (.surplusValue v o.display)
    | false, none => complete st o []
  | none =>
    if atRest spec st then plain spec st word else .error (.unexpected ("--" ++ name))

/-- Short options in one word, without the dash. -/
def cluster (spec : Spec) (st : State) : List Char → Except Usage State
  | [] => .ok st
  | c :: r =>
    match spec.short? c with
    | none => .error (.unexpected ("-" ++ c.toString))
    | some o =>
      if o.takesValue then
        match r with
        | [] => await st o
        | '=' :: v => complete st o [String.ofList v]
        | v => complete st o [String.ofList v]
      else do cluster spec (← complete st o []) r

/-- One word of a command line. -/
def step (spec : Spec) (st : State) (word : String) : Except Usage State :=
  if st.trailing then positional spec st word
  else
    match word.toList with
    | ['-', '-'] => .ok { st with trailing := true }
    | '-' :: '-' :: body => long spec st word body
    | '-' :: c :: r =>
      if atRest spec st && (c :: r).any fun d => (spec.short? d).isNone then plain spec st word
      else cluster spec st (c :: r)
    | _ => plain spec st word

/-- Reads a command line. -/
def parse (spec : Spec) (words : List String) : Except Usage State := do
  settle (← words.foldlM (step spec) State.initial)

/-- The values given to an id. -/
def State.values? (st : State) (id : String) : Option (List String) :=
  Entries.get? id st.given

end Pipewright.CommandLine
