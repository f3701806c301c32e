import Pipewright.Proofs.Text.Quoting

/-! Texts that resolving escapes leaves as they are. -/
namespace Pipewright.Text

/-- A backslash and the character behind it stand for themselves, or for less. -/
theorem plainEscape_cases (c : Char) : plainEscape c = ['\\', c] ∨ (plainEscape c).length ≤ 1 := by
  unfold plainEscape
  repeat' split
  all_goals simp

theorem hexEscape_cases (m : Char) (width : Nat) (ds : List Char) :
    hexEscape m width ds = '\\' :: m :: ds ∨ (hexEscape m width ds).length ≤ 1 := by
  rw [hexEscape]
  split
  · split
    · exact .inr le_rfl
    · exact .inl rfl
  · exact .inl rfl

section
variable {c : Char} {r cs a b : List Char}

theorem unescape_last : unescape ['\\'] = ['\\'] := by
  rw [unescape.eq_def]
  simp [unescape]

/-- What an escape takes stands for itself, or for one character at most. -/
theorem unescape_backslash (c : Char) (r : List Char) :
    ∃ shown taken rest, r = taken ++ rest ∧ '\\' ∉ taken ∧
      unescape ('\\' :: c :: r) = shown ++ unescape rest ∧
        (shown = '\\' :: c :: taken ∨ shown.length ≤ 1) := by
  cases hw : hexWidth? c with
  | none => exact ⟨_, [], r, rfl, List.not_mem_nil, unescape_plain hw r, plainEscape_cases c⟩
  | some width =>
    have hstart : (r.take width).takeWhile isHexDigit <+: r :=
      (List.takeWhile_prefix _).trans (List.take_prefix width r)
    have hplain : '\\' ∉ (r.take width).takeWhile isHexDigit := fun h =>
      absurd (List.mem_takeWhile_imp h) (by decide)
    refine ⟨_, _, _, (List.prefix_iff_eq_append.1 hstart).symm, hplain, ?_,
      hexEscape_cases c width _⟩
    rw [unescape, hw]

theorem length_unescape_le (cs : List Char) : (unescape cs).length ≤ cs.length := by
  induction hn : cs.length using Nat.strong_induction_on generalizing cs with
  | _ n ih =>
    subst hn
    match cs with
    | [] => simp [unescape]
    | c :: r =>
      by_cases hc : c = '\\'
      · subst hc
        cases r with
        | nil => rw [unescape_last]
        | cons d r =>
          obtain ⟨shown, taken, rest, rfl, -, heq, hshown⟩ := unescape_backslash d r
          have hrest := ih rest.length (by simp; omega) rest rfl
          rw [heq]
          obtain rfl | hle := hshown <;> simp <;> omega
      · have hrest := ih r.length (by simp) r rfl
        rw [unescape_cons hc]
        simpa using hrest

/-- A text that is kept has no backslash behind another one. -/
theorem ne_backslash_of_kept (h : unescape ('\\' :: c :: r) = '\\' :: c :: r) : c ≠ '\\' := by
  rintro rfl
  have hplain : unescape ('\\' :: '\\' :: r) = '\\' :: unescape r := unescape_plain rfl r
  have hlength := congrArg List.length ((List.cons.inj (hplain.symm.trans h)).2)
  have hle := length_unescape_le r
  rw [List.length_cons] at hlength
  omega

theorem plainEscape_of_kept (h : unescape ('\\' :: c :: r) = '\\' :: c :: r)
    (hw : hexWidth? c = none) : plainEscape c = ['\\', c] := by
  obtain hsame | hle := plainEscape_cases c
  · exact hsame
  · have hlength := congrArg List.length ((unescape_plain hw r).symm.trans h)
    have hrest := length_unescape_le r
    simp only [List.length_append, List.length_cons] at hlength
    omega

/-- What stands behind a character of a text that is kept is kept. -/
theorem unescape_tail (h : unescape (c :: r) = c :: r) : unescape r = r := by
  by_cases hc : c = '\\'
  · subst hc
    cases r with
    | nil => rw [unescape.eq_def]
    | cons d r =>
      obtain ⟨shown, taken, rest, rfl, htaken, heq, rfl | hle⟩ := unescape_backslash d r
      · have hd := ne_backslash_of_kept h
        rw [heq, List.cons_append, List.cons_append, List.cons.injEq, List.cons.injEq,
          List.append_cancel_left_eq] at h
        rw [unescape_cons hd, unescape_chars htaken, h.2.2]
      · have hrest := length_unescape_le rest
        have hlength := congrArg List.length (heq.symm.trans h)
        simp only [List.length_append, List.length_cons] at hlength
        omega
  · rw [unescape_cons hc] at h
    exact (List.cons.inj h).2

theorem unescape_suffix (h : unescape (a ++ b) = a ++ b) : unescape b = b := by
  induction a with
  | nil => exact h
  | cons c a ih => exact ih (unescape_tail h)

end
end Pipewright.Text
