import Pipewright.Storage.Job

/-! Files of environment variables, one `KEY=VALUE` on each line. -/
namespace Pipewright.EnvFile
open Text

/-- Takes a pair of quotes off a value. -/
def unquoted? (quote : Char) (cs : List Char) : Option (List Char) :=
  match cs with
  | c :: r => if c = quote && r.getLast? = some quote then some r.dropLast else none
  | [] => none

def value (cs : List Char) : List Char :=
  let cs := trim cs
  ((unquoted? '"' cs).or (unquoted? '\'' cs)).getD cs

/-- The variable that a line sets. A line may start with `export`; empty lines, comments and lines
without an equals sign set none. -/
def assignment? (line : List Char) : Option (String × String) :=
  let cs := trim line
  if cs.isEmpty || cs.head? = some '#' then none
  else
    (splitOnce ['='] ((afterLead? "export ".toList cs).getD cs)).map fun (key, v) =>
      (String.ofList (trim key), String.ofList (value v))

/-- The variables that a text sets, in order. -/
def read (s : String) : List (String × String) := (lines s.toList).filterMap assignment?

/-- The variables that a file sets. A missing file sets none. -/
def load (path : String) : Job (List (String × String)) := do
  match ← Job.look fun t here => t.readText here path with
  | .ok s => return read s
  | .error .notFound => return []
  | .error e => Job.fail (.file e)

end Pipewright.EnvFile
