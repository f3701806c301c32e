import Pipewright.Literal.Basic
import Pipewright.Number.Reader
import Pipewright.Text.Lines

/-! Kinds of arguments: how the words of a command line become values. -/
namespace Pipewright

inductive ArgumentKind where
  | str
  | int
  | float
  | list
  | strList
  | intList
  | floatList
  deriving DecidableEq, Repr, Inhabited

namespace ArgumentKind
open Text

def all : List ArgumentKind := [.str, .int, .float, .list, .strList, .intList, .floatList]

/-- The name of a kind in settings. -/
def name : ArgumentKind → String
  | .str => "str"
  | .int => "int"
  | .float => "float"
  | .list => "list"
  | .strList => "str_list"
  | .intList => "int_list"
  | .floatList => "float_list"

/-- The name of a kind on a page for readers. -/
def title : ArgumentKind → String
  | .str => "Str"
  | .int => "Int"
  | .float => "Float"
  | .list => "List"
  | .strList => "StrList"
  | .intList => "IntList"
  | .floatList => "FloatList"

def ofName? (s : String) : Option ArgumentKind := all.find? fun k => k.name = s

def isList : ArgumentKind → Bool
  | .list | .strList | .intList | .floatList => true
  | _ => false

/-- The value of one word. Words that are no number stay strings, but count as zero in lists of
numbers. -/
def convert (k : ArgumentKind) (word : String) : Literal :=
  let cs := trim word.toList
  let int? := (integer? cs).filter fitsInt64
  match k with
  | .str | .list | .strList => .str word
  | .int => (int?.map Literal.int).getD (.str word)
  | .float => ((Binary64.read? cs).map Literal.float).getD (.str word)
  | .intList => .int (int?.getD 0)
  | .floatList => .float ((Binary64.read? cs).getD (Binary64.zero false))

/-! Kinds of annotations -/

/-- Takes every repetition of a text off the front. -/
def dropLeads (lead : List Char) : (fuel : Nat) → List Char → List Char
  | 0, cs => cs
  | n + 1, cs =>
    match afterLead? lead cs with
    | some r => dropLeads lead n r
    | none => cs

/-- Splits at the commas outside of brackets; `depth` may fall below zero. -/
def members (depth : Int) : List Char → List (List Char)
  | [] => [[]]
  | c :: cs =>
    if c = ',' && depth = 0 then [] :: members depth cs
    else
      let depth := if c = '[' || c = '(' then depth + 1
        else if c = ']' || c = ')' then depth - 1
        else depth
      match members depth cs with
      | [] => [[c]]
      | m :: ms => (c :: m) :: ms

/-- What follows a number of bytes, if they end with a character. -/
def dropBytes? : (bytes : Nat) → List Char → Option (List Char)
  | 0, cs => some cs
  | _, [] => none
  | n + 1, c :: cs => if c.utf8Size ≤ n + 1 then dropBytes? (n + 1 - c.utf8Size) cs else none

/-- What stands between the brackets after a name. -/
def argumentsText (width : Nat) (cs : List Char) : List Char :=
  let inner := trim ((dropBytes? width cs).getD [])
  ((inner.dropWhile (· = '[')).reverse.dropWhile (· = ']')).reverse

/-- The kind that an annotation names; unions are lists if one of their members is. -/
def ofAnnotationChars : (fuel : Nat) → List Char → ArgumentKind
  | 0, _ => .str
  | n + 1, text =>
    let text := trim text
    let text := dropLeads "typing.".toList text.length text
    let isText (s : String) : Bool := text = s.toList
    if isText "int" then .int
    else if isText "float" then .float
    else if isText "list" || isText "tuple" then .list
    else
      let head := String.ofList (trim (text.takeWhile (· ≠ '[')))
      if ["List", "Tuple", "Sequence", "list", "tuple"].contains head then .list
      else if head = "Union" || head = "Optional" then
        let inner := argumentsText head.utf8ByteSize text
        if (members 0 inner).any fun m => ofAnnotationChars n m = .list then .list else .str
      else .str

def ofAnnotation (s : String) : ArgumentKind := ofAnnotationChars (s.length + 1) s.toList

end ArgumentKind
end Pipewright
