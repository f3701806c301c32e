import Pipewright.Storage.Job

/-! Packages that come along with a pipeline. -/
namespace Pipewright.Packages

/-- Whether a place has no name that starts with a dot. -/
def isVisible (p : Place) : Bool := p.all fun n => !n.startsWith "."

/-- Copies an entry of a package to a path. -/
def copyEntry (path : String) : FileEntry → Job Unit
  | .directory => Job.makeDirectories path
  | .file content executable => do
    Job.writeBytes path content
    Job.change fun t here => t.setExecutable here path executable

/-- Copies a package to a path: its root, then all visible entries below it. -/
def copyTo (destination package : String) : Job Unit := do
  let root ← Job.askOr (.walk package) fun t here => t.find? here package
  copyEntry (Path.join destination "") root
  match root with
  | .file .. => return
  | .directory =>
    let place ← Job.ask fun t here => t.locate here package
    let entries ← Job.look fun t _ => (t.below place).filter fun e => isVisible e.1
    entries.forM fun e => copyEntry (joined "/" (destination :: e.1)) e.2

/-- Copies packages into a directory. Paths that end in no name are passed over. -/
def copy (packages : List String) (target : String) : Job Unit :=
  packages.forM fun package =>
    match Path.fileName? package with
    | some name => copyTo (Path.join target name) package
    | none => return

end Pipewright.Packages
