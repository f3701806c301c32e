import Pipewright.Proofs.Text.Pieces
import Pipewright.Result.Peek

/-! Limits on texts: one after the other they keep what the smaller one keeps, once more they change
nothing, and what a limit keeps starts like what a larger one keeps. -/
namespace Pipewright.Peek
open Text
variable {m n : Nat} {cs : List Char}

/-- The lines a limit keeps, before the last of them is ended. -/
def front (n : Nat) (cs : List Char) : List Char := joinWith ['\n'] ((splitAt '\n' cs).take n)

theorem takeLines_natCast (n : Nat) (cs : List Char) : takeLines n cs = endLine (front n cs) := by
  have hkept : Table.kept n (splitAt '\n' cs).length = min (splitAt '\n' cs).length n :=
    if_pos (Int.natCast_nonneg n)
  have htake : (splitAt '\n' cs).take (min (splitAt '\n' cs).length n) =
      (splitAt '\n' cs).take n := List.take_eq_take_iff.2 (by omega)
  rw [takeLines, hkept, htake, front]

/-! Ended lines -/

theorem getLast?_endLine (cs : List Char) : (endLine cs).getLast? = some '\n' := by
  rw [endLine]
  split
  · assumption
  · exact List.getLast?_concat

theorem endLine_endLine (cs : List Char) : endLine (endLine cs) = endLine cs :=
  if_pos (getLast?_endLine cs)

theorem endLine_cases (cs : List Char) : endLine cs = cs ∨ endLine cs = cs ++ ['\n'] := by
  rw [endLine]
  split
  · exact .inl rfl
  · exact .inr rfl

theorem prefix_endLine (cs : List Char) : cs <+: endLine cs := by
  obtain h | h := endLine_cases cs
  · exact h.symm ▸ List.prefix_rfl
  · exact h ▸ List.prefix_append cs ['\n']

theorem endLine_isPrefix (cs : List Char) : endLine cs <+: cs ++ ['\n'] := by
  obtain h | h := endLine_cases cs
  · exact h.symm ▸ List.prefix_append cs ['\n']
  · exact h ▸ List.prefix_rfl

/-- An ended line is followed by an empty one. -/
theorem splitAt_endLine (cs : List Char) :
    splitAt '\n' (endLine cs) = splitAt '\n' cs ∨
      splitAt '\n' (endLine cs) = splitAt '\n' cs ++ [[]] := by
  obtain h | h := endLine_cases cs
  · exact .inl (congrArg (splitAt '\n') h)
  · exact .inr (h ▸ splitAt_append_sep '\n' cs [])

/-! The lines of what is kept -/

theorem splitAt_front (hn : 0 < n) (cs : List Char) :
    splitAt '\n' (front n cs) = (splitAt '\n' cs).take n := by
  refine splitAt_joinWith ?_ fun l hl => not_mem_of_mem_splitAt (List.mem_of_mem_take hl)
  rw [ne_eq, List.take_eq_nil_iff, not_or]
  exact ⟨Nat.ne_of_gt hn, splitAt_ne_nil '\n' cs⟩

/-- A smaller limit on lines keeps a part of what a larger one keeps, and of that a line's end. -/
theorem front_add (hn : 0 < n) (m : Nat) (cs : List Char) :
    front (n + m) cs = front n cs ∨ ∃ rest, front (n + m) cs = front n cs ++ '\n' :: rest := by
  have hfront : (splitAt '\n' cs).take n ≠ [] := by
    rw [ne_eq, List.take_eq_nil_iff, not_or]
    exact ⟨Nat.ne_of_gt hn, splitAt_ne_nil '\n' cs⟩
  rw [front, front, List.take_add]
  by_cases hrest : ((splitAt '\n' cs).drop n).take m = []
  · rw [hrest, List.append_nil]
    exact .inl rfl
  · exact .inr ⟨_, joinWith_append ['\n'] hfront hrest⟩

theorem front_isPrefix (n : Nat) (cs : List Char) : front n cs <+: cs := by
  obtain rfl | hn := Nat.eq_zero_or_pos n
  · exact List.nil_prefix
  have hall : front (n + (splitAt '\n' cs).length) cs = cs := by
    rw [front, List.take_of_length_le (Nat.le_add_left _ n), joinWith_splitAt]
  obtain h | ⟨rest, h⟩ := front_add hn (splitAt '\n' cs).length cs
  · exact (h.symm.trans hall).symm ▸ List.prefix_rfl
  · exact ⟨'\n' :: rest, h.symm.trans hall⟩

/-- A limit on the lines that another one keeps. -/
theorem endLine_front_endLine (hn : 0 < n) (m : Nat) (cs : List Char) :
    endLine (front m (endLine (front n cs))) = endLine (front (min m n) cs) := by
  have hlines := splitAt_front hn cs
  by_cases hm : m ≤ ((splitAt '\n' cs).take n).length
  · -- the smaller limit is reached before the end that was added
    have htake : front m (endLine (front n cs)) = front (min m n) cs := by
      have hlast : (splitAt '\n' (endLine (front n cs))).take m =
          ((splitAt '\n' cs).take n).take m := by
        rw [← hlines]
        obtain h | h := splitAt_endLine (front n cs)
        · rw [h]
        · rw [h, List.take_append_of_le_length (hlines ▸ hm)]
      rw [front, hlast, List.take_take, front]
    rw [htake]
  · -- all lines are kept, and the added end with them
    have hall : front m (endLine (front n cs)) = endLine (front n cs) := by
      have hlength : (splitAt '\n' (endLine (front n cs))).length ≤ m := by
        obtain h | h := splitAt_endLine (front n cs)
        · rw [h, hlines]
          omega
        · rw [h, hlines, List.length_append, List.length_singleton]
          omega
      rw [front, List.take_of_length_le hlength, joinWith_splitAt]
    have hsame : front (min m n) cs = front n cs := by
      rw [front, ← List.take_take, List.take_of_length_le (Nat.le_of_not_le hm), front]
    rw [hall, hsame, endLine_endLine]

theorem takeLines_takeLines (m n : Nat) (cs : List Char) :
    takeLines m (takeLines n cs) = takeLines (min m n : Nat) cs := by
  rw [takeLines_natCast, takeLines_natCast, takeLines_natCast]
  obtain rfl | hn := Nat.eq_zero_or_pos n
  · -- of no lines the end of one is left, whatever is taken of it
    rw [Nat.min_zero]
    have hnone : endLine (front 0 cs) = ['\n'] := rfl
    rw [hnone]
    match m with
    | 0 => rfl
    | 1 => rfl
    | m + 2 => simp [front, splitAt, joinWith, endLine]
  · exact endLine_front_endLine hn m cs

/-- A limit on characters that a text keeps to changes nothing behind a limit on its lines: where it
cuts off the added end of a line, that end is added once more. -/
theorem takeLines_take (hc : cs.length ≤ m) (n : Nat) :
    takeLines n ((takeLines n cs).take m) = takeLines n cs := by
  by_cases hlength : (takeLines n cs).length ≤ m
  · rw [List.take_of_length_le hlength, takeLines_takeLines, Nat.min_self]
  · have hprefix : front n cs <+: cs := front_isPrefix n cs
    rw [takeLines_natCast] at hlength
    have hended : endLine (front n cs) = front n cs ++ ['\n'] := by
      refine (endLine_cases _).resolve_left fun h => hlength ?_
      rw [h]
      exact Nat.le_trans hprefix.length_le hc
    rw [hended, List.length_append, List.length_singleton] at hlength
    have hfront : front n cs = cs := hprefix.eq_of_length_le (by omega)
    have hm : m = cs.length := by
      rw [hfront] at hlength
      omega
    have hcut : (takeLines n cs).take m = cs := by
      rw [takeLines_natCast, hended, hfront, hm, List.take_left]
    rw [hcut]

theorem takeLines_isPrefix (hn : 1 ≤ n) (hnm : n ≤ m) (cs : List Char) :
    takeLines n cs <+: takeLines m cs := by
  obtain ⟨k, rfl⟩ := Nat.exists_eq_add_of_le hnm
  rw [takeLines_natCast, takeLines_natCast]
  obtain h | ⟨rest, h⟩ := front_add hn k cs
  · exact h ▸ List.prefix_rfl
  · have hline : front n cs ++ ['\n'] <+: front (n + k) cs := ⟨rest, by rw [h]; simp⟩
    exact ((endLine_isPrefix _).trans hline).trans (prefix_endLine _)

theorem toList_apply (p : Peek) (text : String) :
    (p.apply text).toList = p.applyChars text.toList :=
  String.toList_ofList

/-- Of two limits on lines the smaller one counts; a limit changes nothing the second time; a text
with a limit on lines ends its last one; and it starts the text with a larger limit. -/
theorem limits_compose (text : String) :
    (∀ m n : Int, 0 ≤ m → 0 ≤ n →
      apply ⟨some m, none⟩ (apply ⟨some n, none⟩ text) = apply ⟨some (min m n), none⟩ text) ∧
    (∀ p : Peek, (∀ n ∈ p.rows, 0 ≤ n) → p.apply (p.apply text) = p.apply text) ∧
    (∀ p : Peek, p.rows.isSome = true → (p.apply text).toList.getLast? = some '\n') ∧
    ∀ (m n : Int) (chars : Option Nat), 1 ≤ n → n ≤ m →
      (apply ⟨some n, chars⟩ text).toList <+: (apply ⟨some m, chars⟩ text).toList := by
  refine ⟨fun m n hm hn => ?_, fun p hp => ?_, fun p hp => ?_, fun m n chars hn hnm => ?_⟩
  · obtain ⟨m, rfl⟩ := Int.eq_ofNat_of_zero_le hm
    obtain ⟨n, rfl⟩ := Int.eq_ofNat_of_zero_le hn
    refine String.toList_injective ?_
    rw [toList_apply, toList_apply, toList_apply, show min (m : Int) n = (min m n : Nat) by omega]
    exact takeLines_takeLines m n text.toList
  · refine String.toList_injective ?_
    rw [toList_apply, toList_apply]
    obtain ⟨rows, chars⟩ := p
    cases rows with
    | none =>
      cases chars with
      | none => rfl
      | some c => exact List.take_take.trans (by rw [Nat.min_self]; rfl)
    | some n =>
      obtain ⟨n, rfl⟩ := Int.eq_ofNat_of_zero_le (hp n rfl)
      cases chars with
      | none =>
        have htwice := takeLines_takeLines n n text.toList
        rwa [Nat.min_self] at htwice
      | some c => exact takeLines_take (List.length_take_le c text.toList) n
  · obtain ⟨n, hn⟩ := Option.isSome_iff_exists.1 hp
    rw [toList_apply, applyChars, hn]
    exact getLast?_endLine _
  · obtain ⟨n, rfl⟩ := Int.eq_ofNat_of_zero_le (by omega : 0 ≤ n)
    obtain ⟨m, rfl⟩ := Int.eq_ofNat_of_zero_le (by omega : 0 ≤ m)
    rw [toList_apply, toList_apply]
    cases chars with
    | none => exact takeLines_isPrefix (by omega) (by omega) _
    | some c => exact takeLines_isPrefix (by omega) (by omega) _

theorem limits_compose_of_emptyLine :
    apply ⟨some 2, none⟩ (apply ⟨some 3, none⟩ "a\n\nb") = "a\n" ∧
      apply ⟨some 3, some 4⟩ (apply ⟨some 3, some 4⟩ "a\n\nb") = "a\n\nb\n" ∧
      (apply ⟨some 2, some 4⟩ "a\n\nb").toList <+: "a\n\nb\n".toList := by
  obtain ⟨hcompose, htwice, -, hprefix⟩ := limits_compose "a\n\nb"
  have htwo : apply ⟨some 2, none⟩ "a\n\nb" = "a\n" := by decide
  have hthree : apply ⟨some 3, some 4⟩ "a\n\nb" = "a\n\nb\n" := by decide
  refine ⟨?_, ?_, ?_⟩
  · rw [hcompose 2 3 (by decide) (by decide)]
    exact htwo
  · rw [htwice ⟨some 3, some 4⟩ (by decide), hthree]
  · exact hthree ▸ hprefix 3 2 (some 4) (by decide) (by decide)

end Pipewright.Peek
