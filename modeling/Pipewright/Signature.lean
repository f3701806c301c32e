import Pipewright.Literal.Basic

/-! Signatures of script functions. -/
namespace Pipewright

/-- How a parameter takes its argument. -/
inductive ParamKind where
  | positional
  /-- Takes the positional arguments that are left. -/
  | rest
  | keywordOnly
  /-- Takes the keyword arguments that are left. -/
  | keywordRest
  deriving DecidableEq, Repr, Inhabited

structure Param where
  name : String
  kind : ParamKind
  annotation : Option String
  default : Option Literal
  deriving Repr, Inhabited

namespace Param

/-- Whether the command line can fill the parameter. -/
def isExposed (p : Param) : Bool := p.kind = .positional || p.kind = .keywordOnly

end Param

/-- A function of a script, as far as a command line for it needs to know. The parameter
`self` of a method is left out. -/
structure Signature where
  name : String
  params : List Param
  returns : Option String
  docstring : Option String
  /-- The whole definition without its margin. -/
  source : String
  /-- The statements after the docstring without their margin. -/
  body : String
  /-- The bytes in front of the definition on its line. -/
  indent : Nat
  deriving Repr, Inhabited

namespace Signature

def param? (f : Signature) (name : String) : Option Param := f.params.find? fun p => p.name = name
def exposed (f : Signature) : List Param := f.params.filter Param.isExposed

/-- Defaults of parameters that are passed by keyword only: they become optional flags. -/
def keywordDefaults (f : Signature) : List (String × Literal) :=
  f.params.filterMap fun p =>
    if p.kind = .keywordOnly then p.default.map fun d => (p.name, d) else none

/-- The parameter that takes the positional arguments left over. -/
def restParam? (f : Signature) : Option String :=
  (f.params.find? fun p => p.kind = .rest).map Param.name

def position? (f : Signature) (name : String) : Option Nat :=
  f.params.findIdx? fun p => p.name = name

end Signature
end Pipewright
