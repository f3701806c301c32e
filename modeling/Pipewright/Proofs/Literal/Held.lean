import Pipewright.Proofs.Literal.Reading
import Pipewright.Proofs.Source.Quotable

/-! Texts in single quotes as strings of values. -/
namespace Pipewright
open Text Source Literal

namespace Literal

/-! What a string holds -/

theorem length_splitString (text : List Char) :
    (splitString text).2.length ≤ (text.dropWhile isAsciiLetter).length - 2 := by
  rw [splitString]
  dsimp only
  rw [List.length_take]
  split <;> omega

theorem length_splitString_triple (r : List Char) :
    (splitString ('\'' :: '\'' :: '\'' :: r)).2.length ≤ r.length - 3 := by
  simp [splitString, isAsciiLetter]

theorem length_stringChars? {text v : List Char} (h : stringChars? text = some v) :
    v.length ≤ (splitString text).2.length := by
  rw [stringChars?] at h
  dsimp only at h
  split at h
  · cases h
  · split at h
    · rw [← Option.some.inj h]
    · rw [← Option.some.inj h]
      exact length_unescape_le _

end Literal

variable {s rest : List Char}

theorem stringChars?_bare (h : ∀ c ∈ s.head?, c ≠ '\'') :
    stringChars? (bare s) = some (unescape s) := by
  have hsplit : splitString (bare s) = ([], s) := splitString_single (.inl rfl) h
  simp [stringChars?, hsplit]

/-- Two quotes in front of other text are an empty string. -/
theorem munch_empty {d : Char} (hd : d ≠ '\'') (cs : List Char) :
    munch '\'' ('\'' :: d :: cs) = (.string, 1) := by
  have hopen : openQuotes [] '\'' ('\'' :: d :: cs) = (plainQuotes '\'', 0) := by
    simp [openQuotes, hd, plainQuotes]
  have hlength : stringLength 0 [.text (plainQuotes '\'') true] ('\'' :: d :: cs) = some 1 :=
    stringLength_close (.inl rfl) true _
  rw [munch_eq (by decide), stringToken?_unled (by decide) hopen hlength]

/-- Three quotes at the start leave no room for all of the text. -/
theorem stringChars?_triple (r : List Char) (hs : bare s = '\'' :: '\'' :: '\'' :: r) :
    stringChars? (bare s) ≠ some s := by
  intro hv
  have hinner := length_stringChars? hv
  have hcount := congrArg List.length hs
  rw [hs] at hinner
  have hle := hinner.trans (length_splitString_triple r)
  simp only [bare, List.length_cons, List.length_append, List.length_nil] at hcount
  omega

/-- A text is held by the quotes around it if these are one string of its characters. -/
theorem held_of_munch (hr : Parted rest)
    (hm : munch '\'' (s ++ '\'' :: rest) = (.string, s.length + 1))
    (hv : stringChars? (bare s) = some s) : Held rest s := by
  by_cases hhead : ∀ c ∈ s.head?, c ≠ '\''
  · refine ⟨?_, Option.some.inj ((stringChars?_bare hhead).symm.trans hv)⟩
    rw [munch_bare hhead hr] at hm
    rw [Closes]
    cases hlength : closeIn true (s ++ '\'' :: rest) with
    | none => simp [hlength] at hm
    | some n => simpa [hlength] using hm
  · obtain ⟨r, rfl⟩ : ∃ r, s = '\'' :: r := by simpa [List.head?_eq_some_iff] using hhead
    cases r with
    | nil => exact absurd hv (stringChars?_triple [] rfl)
    | cons d r =>
      by_cases hd : d = '\''
      · exact absurd hv (stringChars?_triple (r ++ ['\'']) (by rw [hd]; rfl))
      · rw [List.cons_append, List.cons_append, munch_empty hd] at hm
        simp at hm

theorem Source.Held.lexes (h : Held rest s) (hr : Parted rest) :
    LexesAt (Datum.Stands (.str (String.ofList s))) (bare s) rest := by
  intro gap
  refine ⟨_, Datum.stands_joined ?_, h.lexFrom hr gap⟩
  simp [joinStrings?, stringChars?_bare h.head, h.kept]

end Pipewright
