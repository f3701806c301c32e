import Pipewright.Shell.Run
import Pipewright.Storage.Job

/-! Programs that a pipeline calls. The shell is the only one at hand. -/
namespace Pipewright

/-- The call of a program. -/
structure Invocation where
  program : String
  arguments : List String
  /-- Variables that the program sees. -/
  environment : List (String × String)
  /-- The directory that the program works in. -/
  location : String
  deriving Repr, Inhabited

/-- How a program ends. -/
inductive ExitStatus where
  | code (n : Nat)
  | signal (n : Nat)
  deriving DecidableEq, Repr, Inhabited

namespace ExitStatus

/-- The names of signals that end a program. -/
def signalNames : List (Nat × String) :=
  [(1, "SIGHUP"), (2, "SIGINT"), (3, "SIGQUIT"), (6, "SIGABRT"), (9, "SIGKILL"), (15, "SIGTERM")]

def text : ExitStatus → String
  | .code n => s!"exit status: {n}"
  | .signal n =>
    let name := (signalNames.find? fun p => p.1 = n).map Prod.snd
    s!"signal: {n}" ++ (name.map fun t => " (" ++ t ++ ")").getD ""

end ExitStatus

/-- What a program leaves when it is done. -/
structure ProgramResult where
  status : ExitStatus
  output : ByteArray
  complaints : ByteArray
  deriving Inhabited

namespace Program

/-- The programs that are found by their names. -/
def known : List String := ["sh"]

/-- Whether a program is found by its name. -/
def isKnown (name : String) : Bool := known.contains name

/-- What the shell says about a script that it cannot read. -/
def unreadable (script : String) : ProgramResult :=
  ⟨.code 2, ByteArray.empty, s!"sh: 0: cannot open {script}: No such file\n".toUTF8⟩

/-- Runs the script that the first argument names. -/
def shell (here : Place) (environment : List (String × String)) (script : String)
    (arguments : List String) (t : FileTree) : FileTree × ProgramResult :=
  match t.readText here script with
  | .error _ => (t, unreadable script)
  | .ok text =>
    match Shell.read? text with
    | none => (t, ⟨.code 2, ByteArray.empty, s!"{script}: 1: Syntax error\n".toUTF8⟩)
    | some commands =>
      let m := Shell.runAll
        ⟨t, here, script, arguments, environment.reverse, ByteArray.empty, ByteArray.empty, 0,
          false, none⟩ commands
      (m.files, ⟨(m.signal.map ExitStatus.signal).getD (.code m.status), m.output, m.complaints⟩)

/-- Calls a program in a directory. The fault is that of the call, not of the program. -/
def call (i : Invocation) : Job (Except FileFault ProgramResult) := do
  match ← Job.look fun t here => t.openDirectory here i.location with
  | .error e => return .error e
  | .ok here =>
    if !isKnown i.program then return .error .notFound
    match i.arguments with
    | [] => return .ok ⟨.code 0, ByteArray.empty, ByteArray.empty⟩
    | script :: arguments =>
      let w ← get
      let (files, result) := shell here i.environment script arguments w.files
      set { w with files }
      return .ok result

end Program
end Pipewright
