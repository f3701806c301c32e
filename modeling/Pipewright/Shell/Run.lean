import Pipewright.Shell.Builtin
import Pipewright.Shell.Reader

/-! Running of shell scripts. -/
namespace Pipewright.Shell

/-- Where the output of a command goes. -/
inductive Sink where
  | output
  | complaints
  | file (place : Place)
  | nowhere
  deriving DecidableEq, Repr

/-- Sends bytes to where they go. -/
def send (m : Machine) (sink : Sink) (bytes : ByteArray) : Machine :=
  match sink with
  | .output => { m with output := m.output ++ bytes }
  | .complaints => { m with complaints := m.complaints ++ bytes }
  | .file p =>
    match m.files.entry? p with
    | some (.file content executable) =>
      { m with files := m.files.put p (.file (content ++ bytes) executable) }
    | _ => m
  | .nowhere => m

/-- The file that takes everything and keeps nothing. -/
def nullFile : String := "/dev/null"

/-- Opens a file for writing, as empty unless it is appended to. -/
def openFile (m : Machine) (append : Bool) (path : String) :
    Except FileFault (Machine × Sink) := do
  if path = nullFile then return (m, .nowhere)
  let content ← match append, m.files.readBytes m.here path with
    | true, .ok content => .ok content
    | _, _ => .ok ByteArray.empty
  let files ← m.files.write m.here path content
  let place ← files.locate m.here path
  return ({ m with files }, .file place)

/-- Opens redirections in order. The sinks are those of the output and of complaints. -/
def redirect (m : Machine) (sinks : Sink × Sink) : List Redirect → Machine × Option (Sink × Sink)
  | [] => (m, some sinks)
  | .toStream stream target :: ds =>
    let sink := if target = 1 then sinks.1 else sinks.2
    redirect m (if stream = 1 then (sink, sinks.2) else (sinks.1, sink)) ds
  | .toFile stream append path :: ds =>
    match openFile m append (wordText m path) with
    | .ok (m, sink) =>
      redirect m (if stream = 1 then (sink, sinks.2) else (sinks.1, sink)) ds
    | .error _ => (m, none)

/-- Runs a simple command. Values without a command are kept. -/
def runSimple (m : Machine) (line : Nat) (values : List (String × Word)) (words : List Word)
    (redirects : List Redirect) : Machine :=
  let args := words.flatMap (fieldsOf m)
  let m := if args.isEmpty then values.foldl (fun m v => setVar m v.1 (wordText m v.2)) m else m
  match redirect m (.output, .complaints) redirects with
  | (m, some (out, err)) =>
    let r := call m line args
    send (send r.machine out ⟨r.output.toArray⟩) err r.complaint.toUTF8
  | (m, none) => { m with status := 2 }

mutual
def runCommand (m : Machine) : Command → Machine
  | .simple line values words redirects => runSimple m line values words redirects
  | .choice subject branches => runBranches { m with status := 0 } (wordText m subject) branches
  | .conditional branches otherwise =>
    match runTests m branches with
    | (m, true) => m
    | (m, false) => runAll { m with status := 0 } otherwise
  | .each name words body =>
    (words.flatMap (fieldsOf m)).foldl
      (fun m w => if m.ended then m else runAll (setVar m name w) body) { m with status := 0 }
  | .follow first onSuccess second =>
    let m := runCommand m first
    if m.ended || (m.status == 0) != onSuccess then m else runCommand m second
  | .negation c =>
    let m := runCommand m c
    if m.ended then m else { m with status := if m.status = 0 then 1 else 0 }

def runBranches (m : Machine) (subject : String) : List (List Word × List Command) → Machine
  | [] => m
  | (patterns, body) :: bs =>
    if patterns.any fun p => Glob.accepts (globsOf m p) subject.toList then runAll m body
    else runBranches m subject bs

/-- Runs the commands after the first test that succeeds, and tells whether there is one. -/
def runTests (m : Machine) : List (List Command × List Command) → Machine × Bool
  | [] => (m, false)
  | (test, body) :: bs =>
    let m := runAll m test
    if m.ended then (m, true)
    else if m.status = 0 then (runAll m body, true)
    else runTests m bs

/-- Runs commands until one leaves the script. -/
def runAll (m : Machine) : List Command → Machine
  | [] => m
  | c :: cs => if m.ended then m else runAll (runCommand m c) cs
end

end Pipewright.Shell
