import Pipewright.Fault
import Pipewright.Json.Decode
import Pipewright.Text.Lines

/-! Channels between processes and how their variables reach the parameters of a function. -/
namespace Pipewright

/-- The declaration of a channel. -/
structure Channel where
  name : Names
  /-- The qualifier of its variables; without one, or with `None`, nothing is generated. -/
  kind : Option String
  /-- The variables of the workflow. -/
  vars : Option Names
  /-- The parameters they go to; `None` takes a place only. -/
  params : Option Names
  /-- Pairs of a variable and a parameter, instead of both lists. -/
  mapping : Option (List (String × String))
  /-- Operators added to the line of the channel. -/
  transform : Option String
  /-- Whether the pipeline parameter of its name feeds the channel. -/
  fromParams : Bool
  deriving DecidableEq, Repr, Inhabited

/-- A channel whose variables and parameters stand side by side. -/
structure ResolvedChannel where
  /-- The variables as they are declared. -/
  declaration : String
  vars : List String
  /-- The parameter for each variable; none takes a place only. -/
  params : List (Option String)
  deriving DecidableEq, Repr, Inhabited

/-- A text without one star in front. -/
def withoutStar (s : String) : String :=
  match s.toList with
  | '*' :: cs => String.ofList cs
  | _ => s

/-- A text without any stars in front. -/
def withoutStars (s : String) : String := String.ofList (s.toList.dropWhile (· = '*'))

def isStarred (s : String) : Bool := s.toList.head? = some '*'

namespace Names

/-- The names of one side of a channel: a single text may hold several. -/
def entries : Names → List String
  | .one s =>
    if s.isEmpty then [""] else (Text.splitBy [',', ' '] 0 s.toList).map String.ofList
  | .list ns => ns

/-- Where the values of a channel of this name are sent. -/
def route : Names → String
  | .one n => " into " ++ n
  | .list ns => " into\x7b" ++ joined "; " ns ++ "\x7d"

def display (n : Names) : String := joined ", " n.toList

end Names

namespace Channel

/-- A channel of one name whose variables go to one parameter. -/
def simple (name kind vars : String) (param : Option String) : Channel :=
  ⟨.one name, some kind, some (.one vars), param.map .one, none, none, false⟩

/-- Whether the channel is declared without generating anything. -/
def isSkipped (c : Channel) : Bool := c.kind = none || c.kind = some "None"

def fault (c : Channel) (text : String) : Fault := .invalidChannel c.name.display text

/-- Both sides of a channel. -/
def sides (c : Channel) : Except Fault (Names × Option Names) :=
  match c.mapping with
  | some pairs =>
    if c.vars.isSome || c.params.isSome then
      .error (c.fault
        "\x60mapping\x60 cannot be combined with \x60nextflow\x60 or \x60python\x60")
    else .ok (.list (pairs.map Prod.fst), some (.list (pairs.map Prod.snd)))
  | none => .ok (c.vars.getD (.one ""), c.params)

/-- The parameter that an entry names. -/
def paramEntry (entry : String) : Option String :=
  if entry = "None" || entry = "" then none else some entry

/-- Lines up both sides. There are at most as many parameters as variables, and as many if one
side is a list. -/
def resolve (c : Channel) : Except Fault ResolvedChannel := do
  let (left, right) ← c.sides
  let vars := left.entries.map withoutStar
  let params := ((right.map Names.entries).getD []).map paramEntry
  if (left.isList || c.params.any Names.isList) && vars.length ≠ params.length then
    .error (c.fault
      s!"{vars.length} Nextflow variable(s) but {params.length} Python name(s)")
  else if vars.length < params.length then
    .error (c.fault
      s!"{params.length} Python name(s) for only {vars.length} Nextflow variable(s)")
  else
    .ok { declaration := match left with
            | .one text => withoutStar text
            | .list _ => joined ", " vars
          vars
          params }

/-- The parameters a channel names, without stars; none if its sides do not line up. -/
def paramNames (c : Channel) : List String :=
  match c.resolve with
  | .ok r => (r.params.filterMap id).map withoutStars
  | .error _ => []

def fieldNames : List String :=
  ["name", "kind", "nextflow", "python", "mapping", "transform", "from_params"]

def decode? (strict : Json.Strictness) (v : Json) : Option Channel := do
  let fs ← Json.fields? strict fieldNames v
  let name ← Json.required? fs "name" Json.names?
  let kind ← Json.optional? fs "kind" none (Json.nullable? Json.string?)
  let vars ← Json.optional? fs "nextflow" none (Json.nullable? Json.names?)
  let params ← Json.optional? fs "python" none (Json.nullable? Json.names?)
  let mapping ← Json.optional? fs "mapping" none
    (Json.nullable? (Json.list? (Json.pair? strict Json.string?)))
  let transform ← Json.optional? fs "transform" none (Json.nullable? Json.string?)
  let fromParams ← Json.optional? fs "from_params" false Json.bool?
  return { name, kind, vars, params, mapping, transform, fromParams }

end Channel

/-- How a shell command refers to a variable: literals stand for themselves, qualifiers are taken
off names. -/
def shellReference (name : String) : String :=
  let cs := (withoutStar name).toList
  match cs with
  | '\'' :: _ | '"' :: _ | '\n' :: _ =>
    String.ofList (Text.trim (cs.filter fun c => c ≠ '\'' && c ≠ '"'))
  | _ =>
    let name := Text.trim cs
    let inner? := ["val(", "file(", "path(", "env("].findSome? fun q =>
      (Text.afterLead? q.toList name).bind fun r =>
        if r.getLast? = some ')' then some (Text.trim r.dropLast) else none
    String.ofList ('$' :: inner?.getD name)

end Pipewright
