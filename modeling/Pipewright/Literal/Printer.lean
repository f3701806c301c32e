import Pipewright.Literal.Basic
import Pipewright.Json.Writer

/-! The written forms of literal values: in scripts, in the workflow's configuration, as plain
text and as JSON. -/
namespace Pipewright.Literal

/-- A double in a script. -/
def floatText : Binary64 → List Char
  | .nan => "float('nan')".toList
  | .infinite false => "float('inf')".toList
  | .infinite true => "float('-inf')".toList
  | .finite s m e => (DecimalLayout.plain.finiteText s m e).toList

mutual
/-- A value as a literal of the script language. -/
def chars : Literal → List Char
  | .none => "None".toList
  | .bool true => "True".toList
  | .bool false => "False".toList
  | .int i => (toString i).toList
  | .float x => floatText x
  | .str s => Text.quote s.toList
  | .list items => '[' :: (itemChars items ++ [']'])
  | .map entries => '{' :: (entryChars entries ++ ['}'])
  | .expr text => text.toList

def itemChars : List Literal → List Char
  | [] => []
  | [v] => chars v
  | v :: w :: r => chars v ++ ',' :: ' ' :: itemChars (w :: r)

def entryChars : List (String × Literal) → List Char
  | [] => []
  | [(k, v)] => Text.quote k.toList ++ ':' :: ' ' :: chars v
  | (k, v) :: e :: r =>
    Text.quote k.toList ++ ':' :: ' ' :: (chars v ++ ',' :: ' ' :: entryChars (e :: r))
end

/-- A value as a literal of the script language. -/
def script (v : Literal) : String := String.ofList (chars v)

mutual
/-- A value as a literal of the workflow's configuration. There is no literal for nothing, so
it is written as a text; a map is a list of pairs. -/
def configChars : Literal → List Char
  | .none => "'None'".toList
  | .bool true => "true".toList
  | .bool false => "false".toList
  | .int i => (toString i).toList
  | .float x => floatText x
  | .str s => Text.quote s.toList
  | .list items => '[' :: (configItems items ++ [']'])
  | .map entries => '[' :: (configEntries entries ++ [']'])
  | .expr text => text.toList

def configItems : List Literal → List Char
  | [] => []
  | [v] => configChars v
  | v :: w :: r => configChars v ++ ',' :: ' ' :: configItems (w :: r)

def configEntries : List (String × Literal) → List Char
  | [] => []
  | [(k, v)] => '[' :: (Text.quote k.toList ++ ',' :: ' ' :: (configChars v ++ [']']))
  | (k, v) :: e :: r =>
    '[' :: (Text.quote k.toList ++ ',' :: ' ' ::
      (configChars v ++ ']' :: ',' :: ' ' :: configEntries (e :: r)))
end

def config (v : Literal) : String := String.ofList (configChars v)

/-- A value as plain text: strings are shown without quotes. -/
def text : Literal → String
  | .str s => s
  | v => v.script

mutual
def toJson : Literal → Json
  | .none => .null
  | .bool b => .bool b
  | .int i => .int i
  | .float x => .float x
  | .str s => .str s
  | .list items => .arr (itemsToJson items)
  | .map entries => .obj (entriesToJson entries)
  | .expr text => .str text

def itemsToJson : List Literal → List Json
  | [] => []
  | v :: r => toJson v :: itemsToJson r

def entriesToJson : List (String × Literal) → List (String × Json)
  | [] => []
  | (k, v) :: r => (k, toJson v) :: entriesToJson r
end

/-- A number of a JSON text as a literal: integers beyond 64 bits become doubles. -/
def ofInt (i : Int) : Literal :=
  if fitsInt64 i then .int i else .float (Binary64.ofRatio (i < 0) i.natAbs 1)

mutual
def ofJson : Json → Literal
  | .null => .none
  | .bool b => .bool b
  | .int i => ofInt i
  | .float x => .float x
  | .str s => .str s
  | .arr items => .list (itemsOfJson items)
  | .obj ms => ofEntries (entriesOfJson ms)

def itemsOfJson : List Json → List Literal
  | [] => []
  | v :: r => ofJson v :: itemsOfJson r

def entriesOfJson : List (String × Json) → List (String × Literal)
  | [] => []
  | (k, v) :: r => (k, ofJson v) :: entriesOfJson r
end

end Pipewright.Literal
