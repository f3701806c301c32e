import Pipewright.Fault
import Pipewright.Source.Definition

/-! A script module: its functions, imports and string constants. -/
namespace Pipewright

structure ScriptModule where
  path : String
  source : String
  /-- Every function, in source order. -/
  functions : List Signature
  /-- The import statements outside of any block. -/
  imports : List String
  /-- The names that top level statements give a string, in order. -/
  constants : List (String × String)
  deriving Repr, Inhabited

namespace Source

/-- Whether a line is a statement with a body, or a clause of one. -/
def isCompound (l : Line) : Bool :=
  match l.significant with
  | [] => true
  | t :: r =>
    (t.kind = .word && ["def", "class", "if", "elif", "else", "for", "while", "with", "try",
      "except", "finally"].any fun w => t.text = w.toList) ||
    t.isMark "@" || l.opensBlock ||
    (t.isWord "async" && (r.head?.any fun u => u.isWord "def" || u.isWord "for" || u.isWord "with"))

/-- The simple statements outside of any block. -/
def topStatements (ls : List Line) : List (List Token) :=
  (ls.filter fun l => l.level = 0 && !isCompound l).flatMap fun l =>
    (splitAllTop (·.isMark ";") l.tokens.length l.tokens).map trimTrivia

def isImport (ts : List Token) : Bool :=
  ts.head?.any fun t => t.isWord "import" || t.isWord "from"

/-- The name and the string of a statement `name = '...'`, with or without an annotation. -/
def stringAssignment? (ts : List Token) : Option (String × String) :=
  match splitAtTop (·.isMark "=") 0 0 ts with
  | (target, some (_, value)) =>
    match (splitAtTop (·.isMark ":") 0 0 target).1.filter fun t => !t.isTrivia with
    | [t] =>
      if t.kind = .word then
        ((Literal.ofTokens? (trimTrivia value)).bind Literal.asStr?).map
          fun s => (String.ofList t.text, s)
      else none
    | _ => none
  | _ => none

end Source

namespace ScriptModule
open Source

/-- Reads a module from its source. -/
def ofSource (path source : String) : ScriptModule :=
  let ls := Source.linesOf source.toList
  let statements := topStatements ls
  { path
    source
    functions := signaturesOf [] ls
    imports := (statements.filter isImport).map textOf
    constants := statements.filterMap stringAssignment? }

/-- The string a name was last given. -/
def constant? (m : ScriptModule) (name : String) : Option String :=
  Entries.get? name m.constants.reverse

def version? (m : ScriptModule) : Option String := m.constant? "__version__"

/-- The first function of least indentation in a list. -/
def outermost : List Signature → Option Signature
  | [] => none
  | f :: fs =>
    match outermost fs with
    | some g => some (if g.indent < f.indent then g else f)
    | none => some f

/-- The function of a name. Of several the one furthest left counts, then the first. -/
def function (m : ScriptModule) (name : String) : Except Fault Signature :=
  match outermost (m.functions.filter fun f => f.name = name) with
  | some f => .ok f
  | none => .error (.functionNotFound name m.path)

/-- The top level functions other than a given one and `main`. -/
def helpers (m : ScriptModule) (master : String) : List Signature :=
  m.functions.filter fun f => f.indent = 0 && f.name ≠ master && f.name ≠ "main"

end ScriptModule
end Pipewright
