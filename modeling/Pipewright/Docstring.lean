import Pipewright.Entries
import Pipewright.Text.Lines
import Pipewright.Text.Word

/-! Documentation texts with `Parameters` and `Returns` sections, each headed by a line of at
least three dashes. -/
namespace Pipewright

structure Docstring where
  /-- The first line. -/
  short : String
  /-- Everything before the first section. -/
  description : String
  /-- Each parameter with the first line of its help, in documented order. -/
  params : List (String × String)
  /-- The text of the `Returns` section, line by line without margins. -/
  returns : String
  deriving Repr, Inhabited

namespace Docstring
open Text

def empty : Docstring := ⟨"", "", [], ""⟩

/-- What follows the underline of a section title that stands here: blanks and then at least
three dashes. -/
def afterUnderline? (cs : List Char) : Option (List Char) :=
  let r := cs.dropWhile isBlank
  let dashes := r.takeWhile (· = '-')
  if r.length < cs.length && 3 ≤ dashes.length then some (r.dropWhile (· = '-')) else none

/-- What follows one of the titles and its underline. -/
def afterHeader? (titles : List String) (cs : List Char) : Option (List Char) :=
  titles.findSome? fun t => (afterLead? t.toList cs).bind afterUnderline?

/-- Finds the first section header with at least two blanks before it: the text before those
blanks and the text after the underline. -/
def splitHeader? (titles : List String) : List Char → Option (List Char × List Char)
  | [] => none
  | c :: cs =>
    let r := (c :: cs).dropWhile isBlank
    match if r.length + 2 ≤ (c :: cs).length then afterHeader? titles r else none with
    | some after => some ([], after)
    | none => (splitHeader? titles cs).map fun (a, b) => (c :: a, b)

/-- Finds the `Returns` header that a text follows, and splits there. -/
def splitReturns? : List Char → Option (List Char × List Char)
  | [] => none
  | c :: cs =>
    let r := (c :: cs).dropWhile isBlank
    let after := if r.length + 2 ≤ (c :: cs).length then afterHeader? ["Returns"] r else none
    match after.filter fun a => a.head?.any isBlank with
    | some a => some ([], a.dropWhile isBlank)
    | none => (splitReturns? cs).map fun (a, b) => (c :: a, b)

/-- The text after the first `Parameters` header, or the whole text. -/
def afterParameters (cs : List Char) : List Char :=
  let rec go : List Char → Option (List Char)
    | [] => none
    | c :: r =>
      match afterHeader? ["Parameters"] (c :: r) with
      | some a => some a
      | none => go r
  (go cs).getD cs

def isNameChar (c : Char) : Bool := c = '*' || isWordChar c

/-- The line at the start of a text. -/
def firstLine (cs : List Char) : List Char := cs.takeWhile (· ≠ '\n')

/-- A name that ends its line, followed by an indented text: the name, the first line of that
text, and the rest. -/
def entry? (cs : List Char) : Option (List Char × List Char × List Char) :=
  let name := cs.takeWhile isNameChar
  match cs.dropWhile isNameChar with
  | '\n' :: r =>
    let doc := r.dropWhile isBlank
    if name.isEmpty || doc.length = r.length then none
    else some (name, firstLine doc, doc.dropWhile (· ≠ '\n'))
  | _ => none

theorem length_dropWhile_le (p : Char → Bool) (cs : List Char) :
    (cs.dropWhile p).length ≤ cs.length :=
  (List.dropWhile_suffix p).length_le

theorem length_entry? {cs name doc rest : List Char} (h : entry? cs = some (name, doc, rest)) :
    rest.length < cs.length := by
  unfold entry? at h
  simp only [] at h
  split at h
  · rename_i r hr
    split at h
    · simp at h
    · simp only [Option.some.injEq, Prod.mk.injEq] at h
      obtain ⟨-, -, rfl⟩ := h
      have h₁ := length_dropWhile_le isNameChar cs
      have h₂ := length_dropWhile_le (· ≠ '\n') (r.dropWhile isBlank)
      have h₃ := length_dropWhile_le isBlank r
      rw [hr, List.length_cons] at h₁
      omega
  · simp at h

/-- The entries of a parameter section. A name is taken where blanks end. -/
def entries (cs : List Char) : List (List Char × List Char) :=
  match cs with
  | [] => []
  | c :: r =>
    if isBlank c then
      match h : entry? (r.dropWhile isBlank) with
      | some (name, doc, rest) =>
        have := length_entry? h
        (name, doc) :: entries rest
      | none => entries (r.dropWhile isBlank)
    else entries r
termination_by cs.length
decreasing_by
  · have := length_dropWhile_le isBlank r
    simp only [List.length_cons]
    omega
  · have := length_dropWhile_le isBlank r
    simp only [List.length_cons]
    omega
  · simp

def paramsOf (cs : List Char) : List (String × String) :=
  (entries cs).foldl
    (fun ps (n, d) => Entries.put (String.ofList n) (String.ofList (trimEnd d)) ps) []

/-- A text line by line without margins. -/
def trimLines (cs : List Char) : List Char := joinWith ['\n'] ((lines (trim cs)).map trim)

/-- Reads a documentation text that has more than one line. -/
def ofLines (cs : List Char) : Docstring :=
  let (description, sections) := match splitHeader? ["Parameters", "Returns"] cs with
    | some (before, _) => (trimEnd before, trim (cs.drop before.length))
    | none => (cs, [])
  let (sections, returns) := match splitReturns? sections with
    | some (before, doc) => (before, trimLines doc)
    | none => (sections, [])
  { short := String.ofList (firstLine cs)
    description := String.ofList description
    params := paramsOf (afterParameters sections)
    returns := String.ofList returns }

/-- Reads a documentation text. -/
def read (text : Option String) : Docstring :=
  let cs := trim ((text.map String.toList).getD [])
  if cs.isEmpty then empty
  else if cs.contains '\n' then ofLines cs
  else ⟨String.ofList cs, String.ofList cs, [], ""⟩

def help? (d : Docstring) (param : String) : Option String :=
  Entries.get? param d.params

end Docstring
end Pipewright
