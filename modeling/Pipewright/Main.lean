import Pipewright.Storage.Change
import Pipewright.Tool.Perform

/-! The command line of the tool. It works on the files below the working directory: they are read,
the command is performed on them, and what differs is written back. -/
namespace Pipewright.Main

/-- Reads the files below a directory. -/
partial def readBelow (path : String) (place : Place) (t : FileTree) : IO FileTree := do
  let mut t := t
  for entry in ← (← IO.FS.realPath path).readDir do
    let path := path ++ "/" ++ entry.fileName
    let place := place ++ [entry.fileName]
    if ← entry.path.isDir then
      t ← readBelow path place (t.put place .directory)
    else
      t := t.put place (.file (← IO.FS.readBinFile path) false)
  return t

/-- The directories that lead to a place, and the place itself. -/
def directoriesTo (place : Place) : FileTree :=
  ⟨(List.range place.length).map fun n => (place.take (n + 1), .directory)⟩

/-- Permissions to read, write and run for a user and a group, and to read and run for others. -/
def runnable : IO.FileRight :=
  { user := ⟨true, true, true⟩, group := ⟨true, true, true⟩, other := ⟨true, false, true⟩ }

def writeEntry (place : Place) : FileEntry → IO Unit
  | .directory => IO.FS.createDirAll place.text
  | .file content executable => do
    IO.FS.writeBinFile place.text content
    if executable then IO.setAccessRights place.text runnable

/-- Removes an entry, unless it has gone with the directory that held it. -/
def removeEntry (place : Place) (entry : FileEntry) : IO Unit := do
  try
    match entry with
    | .file .. => IO.FS.removeFile place.text
    | .directory => IO.FS.removeDirAll place.text
  catch _ => pure ()

/-- A time in seconds with two decimals. -/
def secondsText (milliseconds : Nat) : String :=
  let hundredths := (milliseconds + 5) / 10
  let rest := toString (hundredths % 100)
  toString (hundredths / 100) ++ "." ++ (if rest.length < 2 then "0" ++ rest else rest)

/-- Whether a command line asks for the text that comes in. -/
def takesInput (words : List String) : Bool :=
  match Tool.read words with
  | .ok (.save _) => true
  | _ => false

/-- The working directory with the files below it. -/
def workspace : IO Workspace := do
  let path := (← IO.currentDir).toString
  let here := Path.steps path
  let files ← readBelow path here (directoriesTo here)
  return { files, here, warnings := [], output := ByteArray.empty }

end Pipewright.Main

open Pipewright in
def main (words : List String) : IO UInt32 := do
  let start ← IO.monoMsNow
  let before ← Main.workspace
  let input ← if Main.takesInput words then (← IO.getStdin).readToEnd else pure ""
  let home ← IO.getEnv "HOME"
  let (exit, after) := (Tool.run { input, home } words).run before
  for e in FileTree.removed before.files after.files do Main.removeEntry e.1 e.2
  for e in FileTree.changed before.files after.files do Main.writeEntry e.1 e.2
  let stdout ← IO.getStdout
  stdout.write after.output
  if exit.untimed then
    stdout.putStr (" in " ++ Main.secondsText ((← IO.monoMsNow) - start) ++ "s\n")
  for w in after.warnings do IO.eprintln (" WARN " ++ w)
  IO.eprint exit.complaint
  return UInt32.ofNat exit.code
