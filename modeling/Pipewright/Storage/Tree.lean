import Pipewright.Fault
import Pipewright.Storage.Path

/-! A tree of files and directories. -/
namespace Pipewright

/-- The place of a file or directory: the names that lead to it from the root. -/
abbrev Place := List String

def Place.text (p : Place) : String := "/" ++ joined "/" p

inductive FileEntry where
  | directory
  | file (content : ByteArray) (executable : Bool)
  deriving Inhabited

/-- Files and directories by place. The root is a directory that is always there. -/
structure FileTree where
  entries : List (Place × FileEntry)
  deriving Inhabited

namespace FileTree

def empty : FileTree := ⟨[]⟩

def entry? (t : FileTree) (p : Place) : Option FileEntry :=
  if p = [] then some .directory else (t.entries.find? fun e => e.1 = p).map Prod.snd

def putEntry (p : Place) (v : FileEntry) : List (Place × FileEntry) → List (Place × FileEntry)
  | [] => [(p, v)]
  | (q, w) :: r => if q = p then (q, v) :: r else (q, w) :: putEntry p v r

/-- Sets what is at a place. -/
def put (t : FileTree) (p : Place) (v : FileEntry) : FileTree := ⟨putEntry p v t.entries⟩

/-- Removes a place with everything below it. -/
def erase (t : FileTree) (p : Place) : FileTree :=
  ⟨t.entries.filter fun e => !p.isPrefixOf e.1⟩

/-- Inserts a name among names in order. -/
def insertName (n : String) : List String → List String
  | [] => [n]
  | m :: ms => if n < m then n :: m :: ms else if n = m then m :: ms else m :: insertName n ms

def sortNames (ns : List String) : List String := ns.foldl (fun sorted n => insertName n sorted) []

/-- The name of an entry right inside a directory. -/
def childName? (dir p : Place) : Option String :=
  match p.drop dir.length with
  | [n] => if dir.isPrefixOf p then some n else none
  | _ => none

/-- The names right inside a directory, in order. -/
def children (t : FileTree) (dir : Place) : List String :=
  sortNames (t.entries.filterMap fun e => childName? dir e.1)

/-- Follows steps from a directory. What the last step names may be missing; `asDirectory` says
that it has to be a directory if it is there. -/
def follow (t : FileTree) (asDirectory : Bool) (here : Place) : List String → Except FileFault Place
  | [] => .ok here
  | ".." :: r => follow t asDirectory here.dropLast r
  | n :: r =>
    let next := here ++ [n]
    match t.entry? next with
    | some .directory => follow t asDirectory next r
    | some (.file ..) => if r.isEmpty && !asDirectory then .ok next else .error .notDirectory
    | none => if r.isEmpty then .ok next else .error .notFound

/-- The directory that a path starts from. -/
def start (here : Place) (path : String) : Place := if Path.isAbsolute path then [] else here

/-- The place that a path leads to from a directory. -/
def locate (t : FileTree) (here : Place) (path : String) : Except FileFault Place :=
  if path.isEmpty then .error .notFound
  else follow t (Path.endsAsDirectory path) (start here path) (Path.steps path)

/-- What a path leads to. -/
def find? (t : FileTree) (here : Place) (path : String) : Except FileFault FileEntry := do
  let p ← t.locate here path
  match t.entry? p with
  | some e => .ok e
  | none => .error .notFound

def isFile (t : FileTree) (here : Place) (path : String) : Bool :=
  match t.find? here path with
  | .ok (.file ..) => true
  | _ => false

def isDirectory (t : FileTree) (here : Place) (path : String) : Bool :=
  match t.find? here path with
  | .ok .directory => true
  | _ => false

def exists? (t : FileTree) (here : Place) (path : String) : Bool :=
  match t.find? here path with
  | .ok _ => true
  | .error _ => false

/-- The place of a directory. -/
def openDirectory (t : FileTree) (here : Place) (path : String) : Except FileFault Place := do
  let p ← t.locate here path
  match t.entry? p with
  | some .directory => .ok p
  | some (.file ..) => .error .notDirectory
  | none => .error .notFound

def readBytes (t : FileTree) (here : Place) (path : String) : Except FileFault ByteArray := do
  match ← t.find? here path with
  | .file content _ => .ok content
  | .directory => .error .isDirectory

def readText (t : FileTree) (here : Place) (path : String) : Except FileFault String := do
  match String.fromUTF8? (← t.readBytes here path) with
  | some s => .ok s
  | none => .error .notUtf8

/-- The directory that steps lead to. -/
def directory (t : FileTree) (here : Place) (steps : List String) : Except FileFault Place := do
  let p ← t.follow true here steps
  match t.entry? p with
  | some .directory => .ok p
  | some (.file ..) => .error .notDirectory
  | none => .error .notFound

/-- Puts a file at a place that holds no directory. One that is there keeps its permissions. -/
def writeAt (t : FileTree) (p : Place) (content : ByteArray) : Except FileFault FileTree :=
  match t.entry? p with
  | some .directory => .error .isDirectory
  | some (.file _ executable) => .ok (t.put p (.file content executable))
  | none => .ok (t.put p (.file content false))

/-- Writes a file. A path that ends in a slash or in dots names no file. -/
def write (t : FileTree) (here : Place) (path : String) (content : ByteArray) :
    Except FileFault FileTree :=
  if path.isEmpty then .error .notFound
  else if path.endsWith "/" then do
    let _ ← t.directory (start here path) (Path.steps path).dropLast
    .error .isDirectory
  else if Path.endsAsDirectory path then do
    let _ ← t.directory (start here path) (Path.steps path)
    .error .isDirectory
  else do t.writeAt (← t.locate here path) content

/-- The places below a directory with what they hold, each directory before what is in it. Places
are told from the directory on. -/
def below (t : FileTree) (dir : Place) : List (Place × FileEntry) :=
  (t.entries.filterMap fun e =>
    if dir.isPrefixOf e.1 && e.1 ≠ dir then some (e.1.drop dir.length, e.2) else none).mergeSort
    fun a b => decide (a.1.text ≤ b.1.text)

/-- Lets a file be run, or not. -/
def setExecutable (t : FileTree) (here : Place) (path : String) (executable : Bool) :
    Except FileFault FileTree := do
  let p ← t.locate here path
  match t.entry? p with
  | some (.file content _) => .ok (t.put p (.file content executable))
  | some .directory => .ok t
  | none => .error .notFound

/-- Follows steps and makes the directories that are missing on the way. -/
def makeSteps (t : FileTree) (here : Place) : List String → FileTree × Except FileFault Unit
  | [] => (t, .ok ())
  | ".." :: r => makeSteps t here.dropLast r
  | n :: r =>
    let next := here ++ [n]
    match t.entry? next with
    | some .directory => makeSteps t next r
    | some (.file ..) => (t, .error (if r.isEmpty then .exists else .notDirectory))
    | none => makeSteps (t.put next .directory) next r

/-- Makes a directory and those that lead to it. -/
def makeDirectories (t : FileTree) (here : Place) (path : String) :
    FileTree × Except FileFault Unit :=
  makeSteps t (start here path) (Path.steps path)

end FileTree
end Pipewright
