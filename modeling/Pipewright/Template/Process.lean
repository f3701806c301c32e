import Pipewright.Text.Lines

/-! The block of a process in the workflow, and the workflow itself. -/
namespace Pipewright

/-- One process of the workflow. -/
structure ProcessBlock where
  name : String
  /-- The text of the comment before the block. -/
  doc : String
  /-- Statements before the block; each is a chain of operators. -/
  pretreat : List (List String)
  directives : List (String × String)
  inputs : List String
  outputs : List String
  command : String
  deriving Repr, Inhabited

namespace ProcessBlock

/-- A line four blanks deep. -/
def indented (line : String) : String := "    " ++ line ++ "\n"

/-- Takes newlines off both ends. -/
def trimNewlines (cs : List Char) : List Char :=
  ((cs.dropWhile (· = '\n')).reverse.dropWhile (· = '\n')).reverse

def docLine (line : String) : String := if line.isEmpty then " *\n" else " * " ++ line ++ "\n"

/-- A documentation text as a comment; nothing for a text that shows nothing. -/
def comment (doc : String) : String :=
  let cs := trimNewlines (Text.dedent (Text.trimEnd doc.toList))
  if cs.isEmpty then ""
  else "/*\n" ++ joined "" ((Text.lines cs).map fun l => docLine (String.ofList l)) ++ " */\n"

/-- Statements before the block. -/
def statements (chains : List (List String)) : String :=
  joined "" (chains.map fun c => joined "\n    ." c ++ "\n") ++
    (if chains.isEmpty then "" else "\n")

def directiveLines (ds : List (String × String)) : String :=
  joined "" (ds.map fun (k, v) => indented (k ++ " " ++ v)) ++ (if ds.isEmpty then "" else "\n")

/-- The block without its comment. -/
def body (b : ProcessBlock) : String :=
  statements b.pretreat ++ "process " ++ b.name ++ " \x7b\n" ++ directiveLines b.directives ++
    "    input:\n" ++ joined "" (b.inputs.map indented) ++
    "\n    output:\n" ++ joined "" (b.outputs.map indented) ++
    "\n    \"\"\"\n" ++ joined "" ((linesOf b.command).map indented) ++ "    \"\"\"\n\x7d\n\n"

def render (b : ProcessBlock) : String := comment b.doc ++ b.body

end ProcessBlock

namespace Workflow

/-- Statements with which every workflow starts. -/
def preamble : String :=
  "#!/usr/bin/env nextflow\n\n" ++
    "import java.text.SimpleDateFormat\n" ++
    "def date = new Date()\n" ++
    "def sdf = new SimpleDateFormat(\"dd/MM/yyyy\")\n" ++ "\n\n"

/-- The workflow made of rendered blocks. -/
def render (blocks : List String) : String := preamble ++ joined "" blocks

end Workflow
end Pipewright
