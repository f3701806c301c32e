import Pipewright.Container
import Pipewright.Program.Basic
import Pipewright.Text.Bytes

/-! Building of images by a program. -/
namespace Pipewright.Container

/-- The program that builds images unless another one is given. -/
def standardProgram : String := "singularity"

/-- The program to call, if it is given or can be found. -/
def findProgram (given : Option String) (reference : String) : Except Fault String :=
  match given with
  | some p => .ok p
  | none =>
    if Program.isKnown standardProgram then .ok standardProgram
    else .error (.container reference (standardProgram ++ " not found in PATH"))

/-- Builds images by calling a program with `build`, the path and the reference. -/
def programBuilder (given : Option String) : Builder := fun target reference => do
  let program ← Job.ofExcept (findProgram given reference)
  match ← Program.call ⟨program, ["build", target, reference], [], "."⟩ with
  | .error e => Job.fail (.container reference s!"Failed to run {program}: {e.message}")
  | .ok r =>
    if r.status = .code 0 then return
    Job.fail (.container reference ("build failed: " ++ trimmed (textOfBytes r.complaints)))

end Pipewright.Container
