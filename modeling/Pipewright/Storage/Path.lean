import Pipewright.Text.Lines

/-! Paths as texts. Parts are separated by slashes; repeated slashes and single dots within a path
say nothing. -/
namespace Pipewright.Path

def isAbsolute (p : String) : Bool := p.startsWith "/"

/-- A path below another one. An absolute path stands for itself. -/
def join (base p : String) : String :=
  if isAbsolute p then p
  else if base.isEmpty || base.endsWith "/" then base ++ p
  else base ++ "/" ++ p

/-- Whether a part in the middle of a path says nothing. -/
def isIdle (part : String) : Bool := part.isEmpty || part = "."

/-- Takes idle parts off the end, except for the first part of the path. -/
def dropIdle (parts : List String) : List String :=
  match parts with
  | [] => []
  | first :: rest => first :: (rest.reverse.dropWhile isIdle).reverse

/-- The parts of a path up to the last one that says something. -/
def activeParts (p : String) : List String := dropIdle (pieces '/' p)

/-- The name of what a path leads to, if the path ends in a name. -/
def fileName? (p : String) : Option String :=
  match (activeParts p).getLast? with
  | some n => if isIdle n || n = ".." then none else some n
  | none => none

/-- The path without its last part. -/
def parent? (p : String) : Option String :=
  match activeParts p with
  | [] | [""] => none
  | [_] => some ""
  | parts =>
    match dropIdle parts.dropLast with
    | [""] => some "/"
    | parts => some (joined "/" parts)

/-- What follows the last dot of the name, if something comes before it. -/
def extension? (p : String) : Option String :=
  (fileName? p).bind fun n =>
    let tail := n.toList.reverse.takeWhile (· ≠ '.')
    if tail.length + 1 < n.length then some (String.ofList tail.reverse) else none

/-- Whether a path has an extension, in any case of its letters. -/
def hasExtension (p ext : String) : Bool := (extension? p).any fun e => e.toLower = ext.toLower

/-- The parts that lead from one directory to another; single dots lead nowhere. -/
def steps (p : String) : List String := (pieces '/' p).filter fun part => !isIdle part

/-- Whether a path can only lead to a directory. -/
def endsAsDirectory (p : String) : Bool :=
  match (pieces '/' p).getLast? with
  | some n => isIdle n || n = ".."
  | none => false

end Pipewright.Path
