import Pipewright.Binding.Override
import Pipewright.Notebook.Document

/-! The parts of a script that a document shows: its imports, and the body of its function. -/
namespace Pipewright
open Text

namespace Notebook

/-- Lines that would open a window of their own. -/
def windowLines : List String :=
  ["import matplotlib", "matplotlib.use('Agg')", "import matplotlib.pyplot as plt",
    "from matplotlib import pyplot as plt"]

/-- Whether a line starts a definition. -/
def startsDefinition (line : String) : Bool :=
  line.startsWith "def " || line.startsWith "class " || line.startsWith "@"

/-- Whether a line is shown among the imports. -/
def isShown (line : String) : Bool :=
  !line.isEmpty && !line.startsWith "#" && !line.startsWith Overrides.constantName

/-- Makes lines about windows comments. -/
def quiet (line : String) : String :=
  if windowLines.contains line || line.startsWith "plt =" then "# " ++ line else line

/-- The lines before the first definition. -/
def importLines (source : String) : List String :=
  (((linesOf source).takeWhile fun l => !startsDefinition l).filter isShown).map quiet

/-- What follows a blank. -/
def afterBlank? : List Char → Option (List Char)
  | c :: r => if isBlank c then some r else none
  | [] => none

/-- Whether a text starts with a return statement that returns something. -/
def startsReturn (cs : List Char) : Bool :=
  ((afterLead? "return".toList cs).bind afterBlank?).isSome

/-- Whether a text starts with the definition of a function without parameters. -/
def startsPlainDefinition (cs : List Char) : Bool :=
  match (afterLead? "def".toList cs).bind afterBlank? with
  | some r =>
    match r.takeWhile fun c => !isBlank c with
    | _ :: name => (indexOf? "():".toList name).isSome
    | [] => false
  | none => false

/-- The text before the blank in front of the first return or definition. -/
def upToEnd : List Char → List Char
  | [] => []
  | c :: cs =>
    if isBlank c && (startsReturn cs || startsPlainDefinition cs) then [] else c :: upToEnd cs

/-- The name that a line assigns to, if it is a single one. -/
def assignedName? (line : String) : Option String :=
  match splitOnce " = ".toList line.toList with
  | some (target, _) =>
    match words target with
    | [w] => some (String.ofList w)
    | _ => none
  | none => none

/-- A section from its text. If it ends with an assignment, the name is shown once more. -/
def section? (text : List Char) : Option Section :=
  if allBlank text then none
  else
    match (splitAt '\n' text).map String.ofList with
    | [] => none
    | title :: rest =>
      let code := rest.filter fun l => !l.isEmpty
      some ⟨title, code ++ (assignedName? (code.getLast?.getD title)).toList⟩

/-- The sections of the body of a function. -/
def sections (body : String) : List Section :=
  let text := dedent (upToEnd (body.toList ++ ['\n']))
  ((splitBy "### ".toList 0 text).drop 1).filterMap section?

end Notebook
end Pipewright
