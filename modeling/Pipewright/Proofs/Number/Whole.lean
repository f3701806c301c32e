import Pipewright.Proofs.Number.Layout
import Pipewright.Proofs.Number.Shortest

/-! Whole numbers from `2 ^ 63` up to `2 ^ 64` as doubles, and the whole numbers that these are
written as. -/
namespace Pipewright
open Binary64

namespace Text

theorem toDigits_mul_pow {n : ℕ} (hn : 0 < n) (k : ℕ) :
    Nat.toDigits 10 (n * 10 ^ k) = Nat.toDigits 10 n ++ List.replicate k '0' := by
  induction k with
  | zero => simp
  | succ k ih =>
    have hpos : 0 < n * 10 ^ k := Nat.mul_pos hn (Nat.pow_pos (by decide))
    have hstep : Nat.toDigits 10 (n * 10 ^ k * 10) = Nat.toDigits 10 (n * 10 ^ k) ++ ['0'] := by
      rw [Nat.toDigits_of_base_le (by decide) (by omega), Nat.mul_div_cancel _ (by decide),
        Nat.mul_mod_left]
      rfl
    rw [pow_succ, ← mul_assoc, hstep, ih, List.append_assoc, List.replicate_succ']

end Text

namespace Binary64

theorem roundQuotient_bounds (num den : ℕ) :
    num / den ≤ roundQuotient num den ∧ roundQuotient num den ≤ num / den + 1 := by
  rw [roundQuotient]
  split
  · omega
  · split
    · omega
    · split <;> omega

/-- The double of a whole number that takes all of 64 bits. -/
theorem ofRatio_whole {n : ℕ} (hlow : 2 ^ 63 ≤ n) (hhigh : n < 2 ^ 64) :
    ∃ m e, ofRatio false n 1 = .finite false m e ∧ (finite false m e).Normal ∧ 11 ≤ e ∧
      (10 : ℚ) ^ 16 ≤ m * 2 ^ e ∧ (m : ℚ) * 2 ^ e < 10 ^ 20 := by
  have hn : 0 < n := by omega
  have hexponent : exponentOf n 1 = 11 := by
    refine exponentOf_eq hn one_pos (by decide) (.inr ?_) ?_
    · rw [Nat.cast_one, div_one]
      exact_mod_cast hlow
    · rw [Nat.cast_one, div_one]
      exact_mod_cast hhigh
  have hmantissa : mantissaAt 11 n 1 = roundQuotient n 2048 := rfl
  obtain ⟨hfloor, hceil⟩ := roundQuotient_bounds n 2048
  rw [ofRatio_eq hn.ne', hexponent, hmantissa]
  generalize roundQuotient n 2048 = m at hfloor hceil
  by_cases hcarry : m = 2 ^ 53
  · have hcarried := assembled_carry false (e := 12) (by decide)
    rw [hcarry, show (11 : ℤ) = 12 - 1 by rfl, hcarried]
    refine ⟨_, _, rfl, ⟨by decide, by decide, by decide, .inl (by decide)⟩, by decide, ?_, ?_⟩
    · norm_num
    · norm_num
  · have hm : 2 ^ 52 ≤ m ∧ m < 2 ^ 53 := by omega
    have hnormal : (finite false m 11).Normal := ⟨hm.2, by decide, by decide, .inl hm.1⟩
    have hbelow : (4503599627370496 : ℚ) ≤ m := by exact_mod_cast hm.1
    have habove : (m : ℚ) < 9007199254740992 := by exact_mod_cast hm.2
    refine ⟨m, 11, assembled_normal hnormal, hnormal, le_rfl, ?_, ?_⟩
    · norm_num
      linarith
    · norm_num
      linarith

end Binary64

namespace Decimal
variable {m : ℕ} {e : ℤ}

/-- The two last digits of a whole number of that size are not told apart by its double. -/
theorem shortest_rounded (hnormal : (finite false m e).Normal) (hm : 0 < m) (he : 11 ≤ e)
    (hlow : (10 : ℚ) ^ 16 ≤ m * 2 ^ e) (hhigh : (m : ℚ) * 2 ^ e < 10 ^ 20) :
    2 ≤ (shortest m e).power := by
  have hpow : (2 : ℚ) ^ (11 : ℤ) ≤ 2 ^ e := zpow_le_zpow_right₀ (by norm_num) he
  have hfine : (onGrid? m e 2).isSome = true := by
    refine onGrid?_fine hnormal hm ?_
    norm_num at hpow ⊢
    linarith
  have hle : 2 ≤ topExponent m e := by
    refine le_topExponent (by omega) (by decide) ?_
    norm_num at hlow ⊢
    linarith
  have hlt : topExponent m e < 20 := by
    have htop := (topExponent_le (e := e) hm).trans_lt hhigh
    exact (zpow_lt_zpow_iff_right₀ (a := (10 : ℚ)) (n := 20) (by norm_num)).1 (by exact_mod_cast htop)
  obtain ⟨d, s, -, hts, -, k, -, hpower⟩ := shortest_of_grid hm hfine hle (by push_cast; omega)
  omega

end Decimal
end Pipewright
