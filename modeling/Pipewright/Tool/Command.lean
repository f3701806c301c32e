import Pipewright.Notebook.Capture
import Pipewright.Tool.Subcommand

/-! Commands of the tool, read from its command line. -/
namespace Pipewright.Tool
open CommandLine

inductive Command where
  | build (manifest : String) (output : Option String)
  | run (location : String) (profile : Option String) (resume : Bool) (envFile : Option String)
    (ansiLog : Bool)
  | capture (request : CaptureRequest) (target : Option String)
  | save (peek : Option Peek)
  | inspect (script function : String) (doc : Bool)
  | clean (location : String) (pipeline : Bool)
  deriving Repr, Inhabited

/-- Why there is no command to perform. -/
inductive NoCommand where
  /-- The words do not fit. -/
  | misused (line : String)
  /-- A text was asked for. -/
  | shown (text : String)
  deriving DecidableEq, Repr

/-- The value given to an option or a word. -/
def one? (st : State) (id : String) : Option String := (st.values? id).bind List.head?

def isSet (st : State) (id : String) : Bool := (st.values? id).isSome

/-- The standard name of the function that a script exposes. -/
def standardFunction : String := "process"

/-- The command that a command line means. -/
def ofState (c : Subcommand) (st : State) : Option Command :=
  let one := one? st
  let function := (one "function").getD standardFunction
  match c.name with
  | "build" => (one "manifest").map fun m => .build m (one "output")
  | "run" => (one "location").map fun l =>
    .run l (one "profile") (isSet st "resume") (one "env-file") (isSet st "ansi-log")
  | "capture" => (one "script").map fun script =>
    .capture { script, function, words := st.rest, title := (one "notebooktitle").getD "" }
      (one "capturednotebook")
  | "save" => some (.save ((one "peek").bind Peek.read?))
  | "inspect" => (one "script").map fun s => .inspect s function (isSet st "doc")
  | "clean" => some (.clean ((one "location").getD ".") (!isSet st "no-pipeline"))
  | _ => none

def missingWords : NoCommand :=
  .misused "error: the following required arguments were not provided:"

def unknownCommand (word : String) : NoCommand :=
  .misused s!"error: unrecognized subcommand '{word}'"

/-- What comes of words that do not fit. -/
def ofUsage (help : String) : Usage → NoCommand
  | .help => .shown help
  | .version => .shown (name ++ " " ++ version ++ "\n")
  | u => .misused (u.firstLine "" "")

/-- Reads the words after the name of a command. -/
def readWords (c : Subcommand) (words : List String) : Except NoCommand Command :=
  match CommandLine.parse c.spec words with
  | .error u => .error (ofUsage c.help u)
  | .ok st =>
    match ofState c st with
    | some command => .ok command
    | none => .error missingWords

/-- The help that words ask for. -/
def readHelp : List String → NoCommand
  | [] => .shown help
  | w :: ws =>
    match Subcommand.find? w, ws with
    | some c, [] => .shown c.help
    | some _, v :: _ => unknownCommand v
    | none, _ => unknownCommand w

/-- What comes of a command line without a command. -/
def withoutCommand (st : State) : NoCommand :=
  if st.given.isEmpty then .misused about
  else .misused s!"error: '{name}' requires a subcommand but one was not provided"

/-- A word in the place of a command when options are over. -/
def afterOptions (word : String) : NoCommand :=
  if word = "help" || (Subcommand.find? word).isSome then
    .misused s!"error: unexpected argument '{word}' found"
  else unknownCommand word

def isOption (word : String) : Bool := word.startsWith "-" && word ≠ "-"

/-- Reads a command line. -/
def readFrom (st : State) : List String → Except NoCommand Command
  | [] => .error (withoutCommand st)
  | w :: ws =>
    if st.trailing then .error (afterOptions w)
    else if isOption w then
      match CommandLine.step headSpec st w with
      | .ok st => readFrom st ws
      | .error u => .error (ofUsage help u)
    else if w = "help" then .error (readHelp ws)
    else
      match Subcommand.find? w with
      | some c => readWords c ws
      | none => .error (unknownCommand w)

def read (words : List String) : Except NoCommand Command := readFrom State.initial words

end Pipewright.Tool
