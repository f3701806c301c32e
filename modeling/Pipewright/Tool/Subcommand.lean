import Pipewright.CommandLine.Parser
import Pipewright.Result.Peek

/-! The command line of the tool: what each of its commands takes. -/
namespace Pipewright.Tool
open CommandLine

/-- The name of the tool. -/
def name : String := "flowspect"

def version : String := "0.1.0"
def about : String := "Generate Nextflow pipelines from annotated Python functions"

/-- An option with what is told about it. -/
structure Setting where
  option : Opt
  help : String

/-- A positional word of a command. -/
structure Word where
  id : String
  required : Bool
  help : String
  deriving Repr, Inhabited

/-- A word in the description of a call. -/
def Word.shown (w : Word) : String :=
  if w.required then "<" ++ w.id.toUpper ++ ">" else "[" ++ w.id.toUpper ++ "]"

structure Subcommand where
  name : String
  about : String
  settings : List Setting
  words : List Word
  /-- What is told about the words after these, if there may be any. -/
  rest : Option String

/-- A switch of one long name. -/
def switch (name : String) : Opt := .plain name none .switch

/-- An option with a value. -/
def setting (name : String) (short : Option Char) (valueName : String) : Opt where
  id := name
  longs := [name]
  short
  action := .value none
  valueName

/-- The option for limits on what is shown. Its value has to be well formed. -/
def peekSetting : Opt :=
  { setting "peek" none "N[,C]" with
    refuses := fun word =>
      match Peek.read word with
      | .ok _ => none
      | .error e => some e.message }

def verbose : Setting := ⟨.plain "verbose" (some 'v') .switch, "Enable verbose logging"⟩
def helpSwitch : Setting := ⟨.plain "help" (some 'h') .help, "Print help"⟩
def versionSwitch : Setting := ⟨.plain "version" (some 'V') .version, "Print version"⟩

namespace Subcommand

def build : Subcommand where
  name := "build"
  about := "Generate a pipeline directory from a manifest"
  settings := [⟨setting "output" (some 'o') "OUTPUT",
    "Pipeline directory (default: from the manifest)"⟩]
  words := [⟨"manifest", true, "Path to the pipeline manifest (.toml)"⟩]
  rest := none

def run : Subcommand where
  name := "run"
  about := "Run a generated pipeline with nextflow"
  settings := [
    ⟨setting "profile" none "PROFILE", "Nextflow profile"⟩,
    ⟨switch "resume", "Resume a previous run"⟩,
    ⟨setting "env-file" none "ENV_FILE",
      "File of KEY=VALUE lines exported to the run (default: ~/.sge_env)"⟩,
    ⟨switch "ansi-log", "Keep nextflow's interactive log"⟩]
  words := [⟨"location", true, "Pipeline directory"⟩]
  rest := none

def capture : Subcommand where
  name := "capture"
  about := "Render a process run as a notebook"
  settings := [
    ⟨setting "notebooktitle" none "NOTEBOOKTITLE", "Notebook title [default: ]"⟩,
    ⟨setting "capturednotebook" none "CAPTUREDNOTEBOOK",
      "Output file (.md or .ipynb); stdout when omitted"⟩,
    ⟨setting "function" none "FUNCTION", "Function the script exposes [default: process]"⟩]
  words := [⟨"script", true, "Process script, as a path or a name on PATH"⟩]
  rest := some "Command line the script ran with"

def save : Subcommand where
  name := "save"
  about := "Save encoded results read from stdin"
  settings := [⟨peekSetting, "Truncate output: N rows or lines, optionally C characters"⟩]
  words := []
  rest := none

def inspect : Subcommand where
  name := "inspect"
  about := "Show the command line a Python function is exposed with"
  settings := [
    ⟨setting "function" none "FUNCTION", "Function to expose [default: process]"⟩,
    ⟨switch "doc", "Also print the docs of the function and its helpers"⟩]
  words := [⟨"script", true, "Python source file"⟩]
  rest := none

def clean : Subcommand where
  name := "clean"
  about := "Remove run leftovers"
  settings := [⟨switch "no-pipeline", "Leave the pipeline subdirectory alone"⟩]
  words := [⟨"location", false, "Directory to clean [default: .]"⟩]
  rest := none

def all : List Subcommand := [build, run, capture, save, inspect, clean]

def find? (name : String) : Option Subcommand := all.find? fun c => c.name = name

/-- The options of a command; logging and help go with every command. -/
def allSettings (c : Subcommand) : List Setting := c.settings ++ [verbose, helpSwitch]

/-- What the command line of a command takes. -/
def spec (c : Subcommand) : Spec where
  options := c.allSettings.map Setting.option
  positionals := c.words.map Word.id
  hasRest := c.rest.isSome

end Subcommand

/-! Help -/

/-- A text with blanks up to a width. -/
def padded (width : Nat) (s : String) : String :=
  s ++ String.ofList (List.replicate (width - s.length) ' ')

/-- Lines of two columns; the second one starts two blanks after the widest entry of the first. -/
def twoColumns (rows : List (String × String)) : List String :=
  let width := rows.foldl (fun n r => max n r.1.length) 0
  rows.map fun r => "  " ++ padded width r.1 ++ "  " ++ r.2

/-- The spellings of an option; long ones stand below each other. -/
def Setting.shown (s : Setting) : String :=
  match s.option.short with
  | some c => "-" ++ c.toString ++ ", " ++ s.option.display
  | none => "    " ++ s.option.display

/-- A part of the help under a title; a part without lines is left out. -/
def helpPart (title : String) (rows : List (String × String)) : List String :=
  if rows.isEmpty then [] else ["", title ++ ":"] ++ twoColumns rows

def settingsPart (ss : List Setting) : List String :=
  helpPart "Options" (ss.map fun s => (s.shown, s.help))

def lineTexts (lines : List String) : String := joined "" (lines.map (· ++ "\n"))

namespace Subcommand

/-- The positional words in the description of a call, with what is told about them. -/
def shownWords (c : Subcommand) : List (String × String) :=
  (c.words.map fun w => (w.shown, w.help)) ++ (c.rest.map fun h => ("[ARGS]...", h)).toList

/-- How a command is called. -/
def usage (c : Subcommand) : String :=
  joined " " ([Tool.name, c.name, "[OPTIONS]"] ++ c.shownWords.map Prod.fst)

def help (c : Subcommand) : String :=
  lineTexts ([c.about, "", "Usage: " ++ c.usage] ++ helpPart "Arguments" c.shownWords ++
    settingsPart c.allSettings)

end Subcommand

/-- What the tool takes before the name of a command. -/
def headSettings : List Setting := [verbose, helpSwitch, versionSwitch]

def headSpec : Spec := ⟨headSettings.map Setting.option, [], false⟩

def help : String :=
  lineTexts ([about, "", "Usage: " ++ name ++ " [OPTIONS] <COMMAND>"] ++
    helpPart "Commands" ((Subcommand.all.map fun c => (c.name, c.about)) ++
      [("help", "Print this message or the help of the given subcommand(s)")]) ++
    settingsPart headSettings)

end Pipewright.Tool
