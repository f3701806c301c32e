import Pipewright.Text.Lines

/-! Scripts of a small shell: commands with words and redirections, and choices by pattern. -/
namespace Pipewright.Shell

/-- What is done to the value of a parameter. -/
inductive Change where
  /-- Cuts the shortest or longest match off one end. -/
  | cut (atEnd longest : Bool) (pattern : List Char)
  /-- Puts another text in the place of a value that is not set, or of an empty one too. -/
  | default (emptyToo : Bool) (text : List Char)
  deriving DecidableEq, Repr, Inhabited

/-- A part of a word. Quotes keep blanks and stars from having a meaning. -/
inductive Fragment where
  | text (quoted : Bool) (cs : List Char)
  | param (quoted : Bool) (name : String) (change : Option Change)
  deriving DecidableEq, Repr, Inhabited

abbrev Word := List Fragment

inductive Redirect where
  | toFile (stream : Nat) (append : Bool) (path : Word)
  | toStream (stream target : Nat)
  deriving DecidableEq, Repr, Inhabited

inductive Command where
  /-- Values for parameters, then a command; with the number of its line. -/
  | simple (line : Nat) (values : List (String × Word)) (words : List Word)
    (redirects : List Redirect)
  | choice (subject : Word) (branches : List (List Word × List Command))
  /-- Commands to run after the first test that succeeds, and those to run after none. -/
  | conditional (branches : List (List Command × List Command)) (otherwise : List Command)
  /-- Commands to run once for each word. -/
  | each (name : String) (words : List Word) (body : List Command)
  /-- A command that is run if the one before it succeeds, or if it fails. -/
  | follow (first : Command) (onSuccess : Bool) (second : Command)
  | negation (command : Command)
  deriving Repr, Inhabited

/-- A piece of a pattern. -/
inductive Glob where
  | many
  | one
  | char (c : Char)
  deriving DecidableEq, Repr

namespace Glob

/-- A text and all its endings. -/
def endings : List Char → List (List Char)
  | [] => [[]]
  | c :: cs => (c :: cs) :: endings cs

def accepts : List Glob → List Char → Bool
  | [], cs => cs.isEmpty
  | .many :: gs, cs => (endings cs).any (accepts gs)
  | .one :: gs, cs =>
    match cs with
    | _ :: cs => accepts gs cs
    | [] => false
  | .char c :: gs, cs =>
    match cs with
    | d :: cs => c = d && accepts gs cs
    | [] => false

/-- The pattern that unquoted characters stand for. -/
def ofChars (cs : List Char) : List Glob :=
  cs.map fun
    | '*' => .many
    | '?' => .one
    | c => .char c

end Glob

/-- Takes a match of a pattern off a text; without a match the text stays. -/
def cutMatch (atEnd longest : Bool) (pattern cs : List Char) : List Char :=
  let globs := Glob.ofChars pattern
  let sizes := List.range (cs.length + 1)
  let sizes := if longest then sizes.reverse else sizes
  let size? := sizes.find? fun n =>
    Glob.accepts globs (if atEnd then cs.drop (cs.length - n) else cs.take n)
  match size? with
  | some n => if atEnd then cs.take (cs.length - n) else cs.drop n
  | none => cs

/-- The text that a value is changed to. -/
def Change.apply (change : Change) (value : Option (List Char)) : List Char :=
  match change, value with
  | .cut atEnd longest pattern, v => cutMatch atEnd longest pattern (v.getD [])
  | .default _ text, none => text
  | .default emptyToo text, some cs => if emptyToo && cs.isEmpty then text else cs

end Pipewright.Shell
