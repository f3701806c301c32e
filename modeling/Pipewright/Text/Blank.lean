/-! White space as the Unicode property of that name, and trimming by it. -/
namespace Pipewright.Text

/-- The characters with the property `White_Space`. -/
def isBlank (c : Char) : Bool :=
  let n := c.toNat
  (9 ≤ n && n ≤ 13) || n = 0x20 || n = 0x85 || n = 0xA0 || n = 0x1680 ||
    (0x2000 ≤ n && n ≤ 0x200A) || n = 0x2028 || n = 0x2029 || n = 0x202F ||
    n = 0x205F || n = 0x3000

def trimStart (cs : List Char) : List Char := cs.dropWhile isBlank
def trimEnd (cs : List Char) : List Char := (cs.reverse.dropWhile isBlank).reverse
def trim (cs : List Char) : List Char := trimEnd (trimStart cs)

/-- Whether a text shows nothing. -/
def allBlank (cs : List Char) : Bool := cs.all isBlank

/-- The words between blanks. -/
def words (cs : List Char) : List (List Char) :=
  (cs.splitBy fun a b => isBlank a == isBlank b).filter fun w => !allBlank w

end Pipewright.Text

namespace Pipewright

def trimmed (s : String) : String := String.ofList (Text.trim s.toList)
def trimmedEnd (s : String) : String := String.ofList (Text.trimEnd s.toList)
def wordsOf (s : String) : List String := (Text.words s.toList).map String.ofList
def isBlankText (s : String) : Bool := Text.allBlank s.toList

end Pipewright
