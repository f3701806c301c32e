/-! Text from bytes in UTF-8 that may be damaged. -/
namespace Pipewright.Text

/-- How many bytes follow a leading byte, and the range of the first of them. -/
def followers? (lead : Nat) : Option (Nat × Nat × Nat) :=
  if lead < 0xC2 || 0xF4 < lead then none
  else if lead < 0xE0 then some (1, 0x80, 0xBF)
  else if lead = 0xE0 then some (2, 0xA0, 0xBF)
  else if lead = 0xED then some (2, 0x80, 0x9F)
  else if lead < 0xF0 then some (2, 0x80, 0xBF)
  else if lead = 0xF0 then some (3, 0x90, 0xBF)
  else if lead = 0xF4 then some (3, 0x80, 0x8F)
  else some (3, 0x80, 0xBF)

/-- At most `count` bytes from the start that can follow a leading byte; the first of them is
bounded. -/
def takeFollowers (count low high : Nat) : List Nat → List Nat
  | [] => []
  | b :: bs =>
    match count with
    | 0 => []
    | n + 1 => if low ≤ b && b ≤ high then b :: takeFollowers n 0x80 0xBF bs else []

/-- The number of a character from its leading byte and the bytes that follow it. -/
def codePoint (lead : Nat) (followers : List Nat) : Nat :=
  let base := match followers.length with
    | 1 => 0xC0
    | 2 => 0xE0
    | _ => 0xF0
  followers.foldl (fun n b => n * 64 + (b - 0x80)) (lead - base)

/-- The characters of bytes. Bytes that start a character but do not go on with it count as one
replacement character, and so does any other byte out of place. -/
def charsOfBytes (bs : List Nat) : List Char :=
  match bs with
  | [] => []
  | b :: r =>
    if b < 0x80 then Char.ofNat b :: charsOfBytes r
    else
      match followers? b with
      | none => '\uFFFD' :: charsOfBytes r
      | some (count, low, high) =>
        let fs := takeFollowers count low high r
        let c := if fs.length = count then Char.ofNat (codePoint b fs) else '\uFFFD'
        c :: charsOfBytes (r.drop fs.length)
termination_by bs.length
decreasing_by all_goals (simp only [List.length_cons, List.length_drop]; omega)

end Pipewright.Text

namespace Pipewright

/-- The text of bytes that may be damaged. -/
def textOfBytes (bytes : ByteArray) : String :=
  String.ofList (Text.charsOfBytes (bytes.toList.map UInt8.toNat))

end Pipewright
