/-! What can go wrong, and how it is told. -/
namespace Pipewright

/-- Faults of the file system, in the words of the system. -/
inductive FileFault where
  | notFound
  | isDirectory
  | notDirectory
  | exists
  | notUtf8
  | notEmpty
  deriving DecidableEq, Repr, Inhabited

namespace FileFault

/-- The fault without its number. -/
def reason : FileFault → String
  | .notFound => "No such file or directory"
  | .isDirectory => "Is a directory"
  | .notDirectory => "Not a directory"
  | .exists => "File exists"
  | .notUtf8 => "stream did not contain valid UTF-8"
  | .notEmpty => "Directory not empty"

/-- The number of a fault that comes from the system. -/
def number? : FileFault → Option Nat
  | .notFound => some 2
  | .isDirectory => some 21
  | .notDirectory => some 20
  | .exists => some 17
  | .notUtf8 => none
  | .notEmpty => some 39

def message (e : FileFault) : String :=
  match e.number? with
  | some n => s!"{e.reason} (os error {n})"
  | none => e.reason

end FileFault

/-- Faults of text that stands for bytes in base 64. -/
inductive Base64Fault where
  | symbol (byte offset : Nat)
  | lastSymbol (byte offset : Nat)
  | length (n : Nat)
  | padding
  deriving DecidableEq, Repr

def Base64Fault.message : Base64Fault → String
  | .symbol b n => s!"Invalid symbol {b}, offset {n}."
  | .lastSymbol b n => s!"Invalid last symbol {b}, offset {n}."
  | .length n => s!"Invalid input length: {n}"
  | .padding => "Invalid padding"

/-- The faults of a pipeline. -/
inductive Fault where
  | parse (text : String)
  | functionNotFound (function path : String)
  | missingInputs (process : String)
  | invalidChannel (channel text : String)
  | duplicateBinding (process channel param : String)
  | manifest (text : String)
  | arguments (text : String)
  | container (image text : String)
  | runner (text : String)
  /-- Data of another shape than expected. -/
  | malformed
  | figureData (fault : Base64Fault)
  | file (fault : FileFault)
  /-- A fault met on the way through a directory. -/
  | walk (path : String) (fault : FileFault)
  /-- There is no script to capture. -/
  | noScript (script : String)
  /-- The settings that a script carries cannot be read. -/
  | unreadableSettings
  /-- A notebook cannot be written. -/
  | unwritable (path : String) (fault : FileFault)
  deriving DecidableEq, Repr

namespace Fault

def message : Fault → String
  | .parse text => s!"parse error: {text}"
  | .functionNotFound f p => s!"function '{f}' not found in {p}"
  | .missingInputs p =>
    s!"process '{p}' runs a shell command instead of a Python function, " ++
      "so its inputs cannot be guessed"
  | .invalidChannel c text => s!"invalid channel '{c}': {text}"
  | .duplicateBinding p c x =>
    s!"channel '{c}' binds parameter '{x}' of {p}, which another channel already feeds"
  | .manifest text => s!"manifest error: {text}"
  | .arguments text => s!"argument error: {text}"
  | .container image text => s!"container error for '{image}': {text}"
  | .runner text => s!"runner error: {text}"
  | .malformed => "serialization error"
  | .figureData e => s!"serialization error: invalid figure data: {e.message}"
  | .file e => s!"IO error: {e.message}"
  | .noScript script => s!"Script not found: {script}"
  | .unreadableSettings => "JSON error"
  | .unwritable p e => s!"Failed to write file {p}: {e.message}"
  | .walk p e => s!"IO error: IO error for operation on {p}: {e.message}"

/-- How to recover from a fault. -/
def hint? : Fault → Option String
  | .missingInputs _ =>
    some "add an \x60inputs = [...]\x60 list of Nextflow input statements to the process"
  | .functionNotFound .. =>
    some "set \x60function = \"...\"\x60 on the process to the name of the Python function"
  | .invalidChannel .. =>
    some ("list-valued \x60nextflow\x60 and \x60python\x60 names " ++
      "must have the same number of entries")
  | .duplicateBinding .. =>
    some "map each Python parameter to one channel; use \x60None\x60 to drop a variable"
  | .container .. => some "check that \x60singularity\x60 is installed and on PATH"
  | .runner _ => some "check that \x60nextflow\x60 is installed and on PATH"
  | .manifest _ => some "see demos/hello/pipeline.toml for a working manifest"
  | _ => none

/-- The line that a hint adds to a message. -/
def hintText (e : Fault) : String := (e.hint?.map fun h => s!"\n  hint: {h}").getD ""

end Fault
end Pipewright
