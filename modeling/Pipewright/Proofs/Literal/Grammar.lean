import Pipewright.Proofs.Literal.Datum
import Pipewright.Proofs.Text.Trimming

/-! The texts that stand for values in scripts, with any trivia within brackets. -/
namespace Pipewright
open Text Source

def lineEnds : List (List Char) := [['\n'], ['\r', '\n']]

/-- Blanks, line ends and comments. -/
inductive Trivia : List Char → Prop where
  | nil : Trivia []
  | blank {c : Char} {cs : List Char} (hc : c ∈ [' ', '\t', '\x0c']) (h : Trivia cs) :
      Trivia (c :: cs)
  | line {e cs : List Char} (he : e ∈ lineEnds) (h : Trivia cs) : Trivia (e ++ cs)
  | comment {text e cs : List Char} (ht : ∀ c ∈ text, c ∉ ['\n', '\r', '\x00'])
      (he : e ∈ lineEnds) (h : Trivia cs) : Trivia ('#' :: (text ++ (e ++ cs)))

/-- Whole numbers of 63 bits, with signs. -/
inductive Whole : List Char → Int → Prop where
  | numeral {w : List Char} {n : Nat} (h : Numeral w n) (hn : n < Nat.pow 2 63) : Whole w n
  | minus {gap w : List Char} {i : Int} (hg : ∀ c ∈ gap, c ∈ [' ', '\t']) (h : Whole w i) :
      Whole ('-' :: (gap ++ w)) (-i)
  | plus {gap w : List Char} {i : Int} (hg : ∀ c ∈ gap, c ∈ [' ', '\t']) (h : Whole w i) :
      Whole ('+' :: (gap ++ w)) i

/-- A part of a collection with what stands around it. -/
structure Piece (α : Type) where
  front : List Char
  text : List Char
  back : List Char
  value : α

def Piece.written {α : Type} (p : Piece α) : List Char := p.front ++ (p.text ++ p.back)

def Piece.Spaced {α : Type} (p : Piece α) : Prop := Trivia p.front ∧ Trivia p.back

/-- An entry of a dictionary: its key and its value. -/
abbrev Pair := Piece Key × Piece Datum

def Pair.written (p : Pair) : List Char := p.1.written ++ ':' :: p.2.written

def Pair.entry (p : Pair) : Key × Datum := (p.1.value, p.2.value)

/-- What stands behind the last part of a collection, or in place of parts. -/
inductive Tail : (parts : Bool) → List Char → Prop where
  | empty {cs : List Char} (h : Trivia cs) : Tail false cs
  | nil : Tail true []
  | comma {cs : List Char} (h : Trivia cs) : Tail true (',' :: cs)

def enclosed (opening closing : Char) (parts : List (List Char)) (tail : List Char) : List Char :=
  opening :: (joinWith [','] parts ++ tail ++ [closing])

/-- Whether a text stands for a value: constants, whole numbers, strings in quotes, lists, and
dictionaries whose keys are apart. -/
inductive Denotes : List Char → Datum → Prop where
  | none : Denotes "None".toList .none
  | yes : Denotes "True".toList (.bool true)
  | no : Denotes "False".toList (.bool false)
  | int {w : List Char} {i : Int} (h : Whole w i) : Denotes w (.int i)
  | str {mark : Char} {w cs : List Char} (hm : mark = '\'' ∨ mark = '"')
      (h : Written mark w cs) (hw : '\x00' ∉ w) :
      Denotes (mark :: (w ++ [mark])) (.str (String.ofList cs))
  | list {ps : List (Piece Datum)} {tail : List Char}
      (spaced : ∀ p ∈ ps, p.Spaced) (h : ∀ p ∈ ps, Denotes p.text p.value)
      (ht : Tail (!ps.isEmpty) tail) :
      Denotes (enclosed '[' ']' (ps.map Piece.written) tail) (.list (ps.map Piece.value))
  | dict {ps : List Pair} {tail : List Char}
      (spaced : ∀ p ∈ ps, p.1.Spaced ∧ p.2.Spaced)
      (keys : ∀ p ∈ ps, Denotes p.1.text (.ofKey p.1.value))
      (h : ∀ p ∈ ps, Denotes p.2.text p.2.value)
      (apart : (ps.map fun p => p.1.value.index).Nodup) (ht : Tail (!ps.isEmpty) tail) :
      Denotes (enclosed '{' '}' (ps.map Pair.written) tail) (.dict (ps.map Pair.entry))

/-! What can be written -/

theorem Whole.natAbs_lt {w : List Char} {i : Int} (h : Whole w i) : i.natAbs < Nat.pow 2 63 := by
  induction h with
  | numeral _ hn => exact hn
  | minus _ _ ih => rwa [Int.natAbs_neg]
  | plus _ _ ih => exact ih

theorem Text.Written.not_mem {mark : Char} {w cs : List Char} (h : Written mark w cs)
    (hw : '\x00' ∉ w) : '\x00' ∉ cs := by
  induction h with
  | nil => exact List.not_mem_nil
  | char _ _ ih =>
    rw [List.mem_cons, not_or] at hw ⊢
    exact ⟨hw.1, ih hw.2⟩
  | escape hm _ ih =>
    simp only [List.mem_cons, not_or] at hw
    have hall : ∀ e ∈ escapes, '\x00' ≠ e.2 := by decide
    exact List.not_mem_cons_of_ne_of_not_mem (hall _ hm) (ih hw.2.2)

theorem Denotes.proper {text : List Char} {v : Datum} (h : Denotes text v) : v.Proper := by
  induction h with
  | none => exact .none
  | yes => exact .bool true
  | no => exact .bool false
  | int h => exact .int (Literal.isWhole_of_natAbs_lt h.natAbs_lt)
  | str _ h hw => exact .str (by simpa [Literal.IsText] using h.not_mem hw)
  | list _ _ _ ih => exact .list (List.forall_mem_map.2 ih)
  | dict _ _ _ apart _ keys ih =>
    refine .dict ?_ (List.forall_mem_map.2 keys) (List.forall_mem_map.2 ih)
    rw [List.map_map]
    exact apart

/-! The ends of a text -/

/-- A character that can start a value: no blank, and no end of a sign. -/
def isFront (c : Char) : Bool := !isBlank c && c ≠ '=' && c ≠ '>'

theorem Denotes.front {text : List Char} {v : Datum} (h : Denotes text v) :
    ∃ c r, isFront c = true ∧ text = c :: r := by
  cases h with
  | none => exact ⟨_, _, by decide, rfl⟩
  | yes => exact ⟨_, _, by decide, rfl⟩
  | no => exact ⟨_, _, by decide, rfl⟩
  | int h =>
    cases h with
    | numeral h _ =>
      obtain ⟨⟨c, r, hc, rfl⟩, -⟩ := numeral_chars h
      exact ⟨c, r, of_isDigit (p := fun d => isFront d = true) hc (by decide), rfl⟩
    | minus => exact ⟨_, _, by decide, rfl⟩
    | plus => exact ⟨_, _, by decide, rfl⟩
  | str hm => rcases hm with rfl | rfl <;> exact ⟨_, _, by decide, rfl⟩
  | list => exact ⟨_, _, by decide, rfl⟩
  | dict => exact ⟨_, _, by decide, rfl⟩

theorem Whole.last {w : List Char} {i : Int} (h : Whole w i) :
    ∃ r c, isWordChar c = true ∧ w = r ++ [c] := by
  induction h with
  | @numeral w n h _ =>
    obtain ⟨⟨c, r, -, rfl⟩, hchars⟩ := numeral_chars h
    have hne := List.cons_ne_nil c r
    exact ⟨_, _, hchars _ (List.getLast_mem hne), (List.dropLast_append_getLast hne).symm⟩
  | @minus gap _ _ _ _ ih =>
    obtain ⟨r, c, hc, rfl⟩ := ih
    exact ⟨'-' :: (gap ++ r), c, hc, by simp⟩
  | @plus gap _ _ _ _ ih =>
    obtain ⟨r, c, hc, rfl⟩ := ih
    exact ⟨'+' :: (gap ++ r), c, hc, by simp⟩

theorem Denotes.trim {text : List Char} {v : Datum} (h : Denotes text v) :
    Text.trim text = text := by
  cases h with
  | none => exact trim_of_all (forall_mem_of_all (by decide))
  | yes => exact trim_of_all (forall_mem_of_all (by decide))
  | no => exact trim_of_all (forall_mem_of_all (by decide))
  | int h =>
    obtain ⟨c, r, hc, he⟩ := (Denotes.int h).front
    obtain ⟨s, d, hd, he'⟩ := h.last
    simp only [isFront, Bool.and_eq_true, Bool.not_eq_true'] at hc
    refine trim_eq_self ?_ ?_
    · rw [he]
      simpa using hc.1.1
    · rw [he']
      simpa using isBlank_of_isWordChar hd
  | str hm => rcases hm with rfl | rfl <;> exact trim_of_enclosed (by decide) (by decide) _
  | list => exact trim_of_enclosed (by decide) (by decide) _
  | dict => exact trim_of_enclosed (by decide) (by decide) _

end Pipewright
