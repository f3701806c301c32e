import Pipewright.Entries
import Pipewright.Shell.Basic
import Pipewright.Storage.Tree
import Pipewright.Text.Digits

/-! What the words of a script stand for while it runs. -/
namespace Pipewright.Shell

structure Machine where
  files : FileTree
  here : Place
  /-- The name of the script. -/
  script : String
  arguments : List String
  vars : List (String × String)
  output : ByteArray
  complaints : ByteArray
  status : Nat
  /-- Whether the script has been left. -/
  ended : Bool
  /-- The signal that has ended the script. -/
  signal : Option Nat

def isFieldBlank (c : Char) : Bool := c = ' ' || c = '\t' || c = '\n'

/-- The number under which a script knows itself. -/
def ownProcess : String := "1"

/-- The value of a parameter, if it is set. -/
def value? (m : Machine) (name : String) : Option String :=
  match name with
  | "*" | "@" => some (joined " " m.arguments)
  | "#" => some (toString m.arguments.length)
  | "?" => some (toString m.status)
  | "$" => some ownProcess
  | "0" => some m.script
  | _ =>
    match Text.number? 10 name.toList with
    | some n => m.arguments[n - 1]?
    | none => Entries.get? name m.vars

/-- The text of a fragment; a parameter that is not set is empty. -/
def fragmentText (m : Machine) : Fragment → List Char
  | .text _ cs => cs
  | .param _ name none => ((value? m name).getD "").toList
  | .param _ name (some change) => change.apply ((value? m name).map String.toList)

def wordText (m : Machine) (w : Word) : String := String.ofList (w.flatMap (fragmentText m))

/-- Adds text to the last field. -/
def addText (cs : List Char) : List (List Char) → List (List Char)
  | [] => [cs]
  | [f] => [f ++ cs]
  | f :: fs => f :: addText cs fs

/-- Adds text of which blanks part fields. -/
def addSplit (fields : List (List Char)) (cs : List Char) : List (List Char) :=
  let parts := cs.splitBy fun a b => isFieldBlank a == isFieldBlank b
  parts.foldl (fun fields p =>
    if p.all isFieldBlank then fields ++ [[]] else addText p fields) fields

def addFragment (m : Machine) (fields : List (List Char)) (f : Fragment) : List (List Char) :=
  match f with
  | .param false .. => addSplit fields (fragmentText m f)
  | .param true "@" none =>
    match m.arguments with
    | [] => fields
    | a :: as => addText a.toList fields ++ as.map String.toList
  | f => addText (fragmentText m f) fields

/-- Whether a word stays a word although it is empty. -/
def isKept : Fragment → Bool
  | .text quoted _ => quoted
  | .param quoted .. => quoted

/-- The words that a word stands for. -/
def fieldsOf (m : Machine) (w : Word) : List String :=
  let fields := w.foldl (addFragment m) [[]]
  let fields := if w.any isKept then fields else fields.filter fun f => !f.isEmpty
  fields.map String.ofList

/-- The pattern that a word stands for. -/
def globsOf (m : Machine) (w : Word) : List Glob :=
  w.flatMap fun f =>
    if isKept f then (fragmentText m f).map Glob.char else Glob.ofChars (fragmentText m f)

end Pipewright.Shell
