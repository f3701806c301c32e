import Pipewright.Text.Blank

/-! Texts as lines, and the removal of a common margin. -/
namespace Pipewright.Text

/-- The lines of a text. A line ends at a newline, a carriage return right before the
newline belongs to the ending, and a text that ends in a newline has no empty last line. -/
def lines : List Char → List (List Char)
  | [] => []
  | '\n' :: r => [] :: lines r
  | '\r' :: '\n' :: r => [] :: lines r
  | c :: r =>
    match lines r with
    | [] => [[c]]
    | l :: ls => (c :: l) :: ls

/-- The pieces between the occurrences of one character. -/
def splitAt (sep : Char) : List Char → List (List Char)
  | [] => [[]]
  | c :: r =>
    if c = sep then [] :: splitAt sep r
    else
      match splitAt sep r with
      | [] => [[c]]
      | l :: ls => (c :: l) :: ls

/-- Texts with a separator between neighbours. -/
def joinWith (sep : List Char) : List (List Char) → List Char
  | [] => []
  | [l] => l
  | l :: m :: ls => l ++ sep ++ joinWith sep (m :: ls)

/-- The number of blank characters a line starts with. -/
def indentation (l : List Char) : Nat := (l.takeWhile isBlank).length

/-- The smallest indentation of a line that shows something. -/
def margin (ls : List (List Char)) : Nat :=
  (((ls.filter fun l => !allBlank l).map indentation).min?).getD 0

/-- Takes the common margin off every line; lines that show nothing become empty. -/
def dedentLines (ls : List (List Char)) : List (List Char) :=
  ls.map fun l => if allBlank l then [] else l.drop (margin ls)

def dedent (cs : List Char) : List Char := joinWith ['\n'] (dedentLines (lines cs))

/-- Whether one text starts with another. -/
def startsWith (cs lead : List Char) : Bool := lead.isPrefixOf cs

/-- What follows `lead`, if the text starts with it. -/
def afterLead? : (lead cs : List Char) → Option (List Char)
  | [], cs => some cs
  | _ :: _, [] => none
  | l :: ls, c :: cs => if l = c then afterLead? ls cs else none

/-- What comes before and after the first occurrence of `mark`. -/
def splitOnce (mark : List Char) : List Char → Option (List Char × List Char)
  | [] => (afterLead? mark []).map fun r => ([], r)
  | c :: cs =>
    match afterLead? mark (c :: cs) with
    | some r => some ([], r)
    | none => (splitOnce mark cs).map fun (a, b) => (c :: a, b)

/-- The first index at which `mark` occurs. -/
def indexOf? (mark : List Char) (cs : List Char) : Option Nat :=
  (splitOnce mark cs).map fun (a, _) => a.length

/-- The pieces between the occurrences of a text, found from the left without overlap; `skip`
counts the characters of an occurrence still to be passed. -/
def splitBy (mark : List Char) : (skip : Nat) → List Char → List (List Char)
  | _, [] => [[]]
  | n + 1, _ :: cs => splitBy mark n cs
  | 0, c :: cs =>
    if startsWith (c :: cs) mark then [] :: splitBy mark (mark.length - 1) cs
    else
      match splitBy mark 0 cs with
      | [] => [[c]]
      | l :: ls => (c :: l) :: ls

/-- Puts `new` in the place of every occurrence of `old`. -/
def replaceAll (old new cs : List Char) : List Char := joinWith new (splitBy old 0 cs)

end Pipewright.Text

namespace Pipewright

def linesOf (s : String) : List String := (Text.lines s.toList).map String.ofList
def dedented (s : String) : String := String.ofList (Text.dedent s.toList)
def pieces (sep : Char) (s : String) : List String :=
  (Text.splitAt sep s.toList).map String.ofList

/-- Puts `new` in the place of every occurrence of `old` in a text. -/
def replaced (old new s : String) : String :=
  String.ofList (Text.replaceAll old.toList new.toList s.toList)

def joined (sep : String) (ss : List String) : String := sep.intercalate ss

end Pipewright
