import Pipewright.Json.Writer
import Pipewright.Notebook.Document

/-! Documents as notebooks made of cells. -/
namespace Pipewright

inductive Cell where
  | text (source : String)
  /-- Code that has not been run. -/
  | code (source : String)
  deriving DecidableEq, Repr, Inhabited

namespace Cell

/-- Ends all lines but the last. -/
def endAllButLast : List String → List String
  | [] => []
  | [l] => [l]
  | l :: m :: ls => (l ++ "\n") :: endAllButLast (m :: ls)

/-- A text without the newlines at its end. -/
def withoutLastEnds (s : String) : String :=
  String.ofList (s.toList.reverse.dropWhile (· = '\n')).reverse

/-- The lines of a cell. -/
def sourceLines (s : String) : List String := endAllButLast (pieces '\n' (withoutLastEnds s))

def members (kind source : String) : List (String × Json) :=
  [("cell_type", .str kind), ("metadata", .obj []),
    ("source", .arr ((sourceLines source).map .str))]

def toJson : Cell → Json
  | .text s => .obj (members "markdown" s)
  | .code s => .obj (members "code" s ++ [("outputs", .arr []), ("execution_count", .null)])

end Cell

namespace Document

def sectionCell (s : Section) : Cell := .code ("### " ++ s.title ++ "\n" ++ joined "\n" s.code)

def cells (d : Document) : List Cell :=
  [.text ("# " ++ d.title ++ "\n\n" ++ d.description ++ "\n\n## Imports and parameters"),
    .code d.importCode, .code d.paramCode, .text "## Body of the process"] ++
    d.sections.map sectionCell

def metadata : Json :=
  .obj [
    ("kernelspec", .obj [("display_name", .str "Python 3"), ("language", .str "python"),
      ("name", .str "python3")]),
    ("language_info", .obj [("file_extension", .str ".py"), ("mimetype", .str "text/x-python"),
      ("name", .str "python")])]

/-- The document as a notebook. -/
def notebook (d : Document) : String :=
  Json.lined (.obj [("metadata", metadata), ("nbformat", .int 4), ("nbformat_minor", .int 5),
    ("cells", .arr (d.cells.map Cell.toJson))])

end Document
end Pipewright
