import Pipewright.Text.Lines

/-! Documents of single runs: what was imported, the values of the parameters and the body of the
function in sections. -/
namespace Pipewright

/-- A part of the body of a function under a title. -/
structure Section where
  title : String
  code : List String
  deriving DecidableEq, Repr, Inhabited

structure Document where
  title : String
  description : String
  imports : List String
  /-- Assignments of the values of parameters. -/
  params : List String
  sections : List Section
  deriving DecidableEq, Repr, Inhabited

namespace Document

/-- Lines that all end. -/
def ended (lines : List String) : String := joined "" (lines.map (· ++ "\n"))

def importCode (d : Document) : String :=
  "%matplotlib notebook\n\nimport matplotlib.pyplot as plt\n" ++ ended d.imports

def paramCode (d : Document) : String := ended d.params

/-- Code between fences. -/
def fenced (code : String) : String := "\x60\x60\x60python\n" ++ code ++ "\x60\x60\x60\n"

def sectionText (s : Section) : String :=
  fenced (" ### " ++ s.title ++ "\n\n" ++ joined "\n" s.code ++ "\n") ++ "  \n"

/-- The document as text with headings and fenced code. -/
def markdown (d : Document) : String :=
  "# " ++ d.title ++ "  \n  \n" ++ d.description ++ "\n  ## Imports and parameters  \n  \n" ++
    fenced (d.importCode ++ "\n") ++ fenced d.paramCode ++ "\n  \n" ++
    "\n  ## Body of the process  \n  \n" ++ joined "" (d.sections.map sectionText)

end Document
end Pipewright
