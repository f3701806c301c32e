import Pipewright.Binding.Kind
import Pipewright.Json.Decode
import Pipewright.Json.Reader
import Pipewright.Json.Writer

/-! Settings of single arguments, by name. -/
namespace Pipewright

/-- What is set for one argument. -/
structure Override where
  /-- The number of the result that the argument names a file for; 0 for none. -/
  output : Nat
  flags : List String
  dest : Option String
  help : Option String
  default : Option Literal
  kind : Option ArgumentKind
  nargs : Option String
  deriving Inhabited, Repr

namespace Override

def none : Override := ⟨0, [], .none, .none, .none, .none, .none⟩

def kind? : Json → Option ArgumentKind
  | .str s => ArgumentKind.ofName? s
  | .obj [(s, .null)] => ArgumentKind.ofName? s
  | _ => .none

def fieldNames : List String := ["output", "flags", "dest", "help", "default", "kind", "nargs"]

def decode? (strict : Json.Strictness) (v : Json) : Option Override := do
  let fs ← Json.fields? strict fieldNames v
  let output ← Json.optional? fs "output" 0 (Json.natural? 64)
  let flags ← Json.optional? fs "flags" [] (Json.list? Json.string?)
  let dest ← Json.optional? fs "dest" .none (Json.nullable? Json.string?)
  let help ← Json.optional? fs "help" .none (Json.nullable? Json.string?)
  let default ← Json.optional? fs "default" .none (Json.nullable? fun v => some (.ofJson v))
  let kind ← Json.optional? fs "kind" .none (Json.nullable? kind?)
  let nargs ← Json.optional? fs "nargs" .none (Json.nullable? Json.string?)
  return { output, flags, dest, help, default, kind, nargs }

def nullOr (f : α → Json) : Option α → Json
  | some a => f a
  | .none => .null

def toJson (o : Override) : Json :=
  .obj [("output", .int o.output), ("flags", .arr (o.flags.map .str)),
    ("dest", nullOr .str o.dest), ("help", nullOr .str o.help),
    ("default", nullOr Literal.toJson o.default),
    ("kind", nullOr (fun k => .str k.name) o.kind), ("nargs", nullOr .str o.nargs)]

end Override

/-- The settings of the arguments of a process, in the order of their names. -/
abbrev Overrides := List (String × Override)

namespace Overrides

/-- The name under which a script carries its settings. -/
def constantName : String := "__arguments__"

def get? (os : Overrides) (name : String) : Option Override := Entries.get? name os

/-- One result, which `-o` sends to a file. -/
def standard : Overrides :=
  [("outFile", { Override.none with
    output := 1
    flags := ["-o", "--outFile"]
    dest := some "outFile"
    help := some
      "Location where results should be saved. If not specified, STDOUT will be used." })]

def decode? (strict : Json.Strictness) (v : Json) : Option Overrides :=
  Json.mapOf? (Override.decode? strict) v

/-- Reads settings from a JSON text. -/
def read? (s : String) : Option Overrides := (Json.readRaw? s).bind (decode? ⟨true⟩)

def toJson (os : Overrides) : Json := .obj (os.map fun (k, o) => (k, o.toJson))

/-- The JSON text of settings. -/
def text (os : Overrides) : String := os.toJson.compact

end Overrides
end Pipewright
