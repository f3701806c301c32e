import Pipewright.Program.Basic
import Pipewright.Program.EnvFile

/-! Running of a pipeline by the workflow program. -/
namespace Pipewright

structure Runner where
  /-- The directory of the pipeline. -/
  location : String
  /-- The program to call in the place of the standard one. -/
  program : Option String
  envFile : Option String
  profile : Option String
  resume : Bool
  /-- Whether the program may redraw its log. -/
  ansiLog : Bool
  deriving Repr, Inhabited

namespace Runner

/-- The program that runs workflows unless another one is given. -/
def standardProgram : String := "nextflow"

def arguments (r : Runner) : List String :=
  ["run", "main.nf"] ++ (r.profile.map fun p => ["-profile", p]).getD [] ++
    (if r.resume then ["-resume"] else [])

/-- The program to call, if it is given or can be found. -/
def findProgram (r : Runner) : Except Fault String :=
  match r.program with
  | some p => .ok p
  | none =>
    if Program.isKnown standardProgram then .ok standardProgram
    else .error (.runner (standardProgram ++ " not found in PATH"))

def invocation (r : Runner) (program : String) (vars : List (String × String)) : Invocation where
  program
  arguments := r.arguments
  environment := vars ++ [("NXF_ANSI_LOG", toString r.ansiLog)]
  location := r.location

/-- The lines of bytes up to the first that is no text; such a line is a fault. -/
def textLines : List (List UInt8) → List String × Except Fault Unit
  | [] => ([], .ok ())
  | l :: ls =>
    match String.fromUTF8? ⟨l.toArray⟩ with
    | some s => let (texts, r) := textLines ls; (s :: texts, r)
    | none => ([], .error (.file .notUtf8))

/-- Bytes as lines; a last line without an end counts if it is not empty. -/
def byteLines (bytes : List UInt8) : List (List UInt8) :=
  let ls := (bytes.splitOn 10).reverse
  let ls := match ls with
    | [] :: ls => ls.reverse.map withoutReturn
    | last :: ls => ls.reverse.map withoutReturn ++ [last]
    | [] => []
  ls
where
  /-- Takes the carriage return of a line ending away. -/
  withoutReturn (l : List UInt8) : List UInt8 := if l.getLast? = some 13 then l.dropLast else l

/-- What a run says: the lines of the program, and whether it went well. -/
def outcome (program : String) (result : ProgramResult) : List String × Except Fault Unit :=
  let (texts, r) := textLines (byteLines result.output.toList)
  match r with
  | .error e => (texts, .error e)
  | .ok () =>
    if result.status = .code 0 then (texts, .ok ())
    else (texts, .error (.runner s!"{program} exited with {result.status.text}"))

/-- Runs the pipeline. -/
def run (r : Runner) : Job (List String × Except Fault Unit) := do
  let program ← Job.ofExcept r.findProgram
  let vars ← match r.envFile with
    | some path => EnvFile.load path
    | none => pure []
  match ← Program.call (r.invocation program vars) with
  | .error e => Job.fail (.runner s!"Failed to run {program}: {e.message}")
  | .ok result => return outcome program result

end Runner
end Pipewright
