import Pipewright.Number.Shortest
import Pipewright.Proofs.Number.Rounding

/-! The shortest decimal of a double: it reads back as the double, and it has no fraction from
`10 ^ 16` on. -/
namespace Pipewright.Decimal
open Pipewright.Binary64

/-! The magnitude of a double -/

section
variable {m num den : ℕ} {e s : ℤ}

theorem ratio_pos (m : ℕ) (e : ℤ) : 0 < (ratio m e).2 := scaledRatio_pos (by decide) m e

theorem ratio_eq (m : ℕ) (e : ℤ) : ((ratio m e).1 : ℚ) / (ratio m e).2 = m * 2 ^ e :=
  scaledRatio_eq 2 m e

theorem tenPowerLe_iff (hd : 0 < den) (k : ℤ) :
    tenPowerLe k num den = true ↔ (10 : ℚ) ^ k ≤ num / den := by
  have h := zpow_le_div_iff num (b := 10) (by decide) hd k
  rw [Nat.cast_ofNat] at h
  rw [h, tenPowerLe]
  split <;> simp

/-! Grids -/

/-- A grid point is at most the quotient, and the next one beyond it. -/
theorem gridFloor_bounds (num : ℕ) (hd : 0 < den) (s : ℤ) :
    (gridFloor num den s : ℚ) * 10 ^ s ≤ num / den ∧
      (num : ℚ) / den < (gridFloor num den s + 1) * 10 ^ s := by
  have hden : (0 : ℚ) < den := by exact_mod_cast hd
  have hten : (0 : ℚ) < 10 ^ s := by positivity
  rw [le_div_iff₀ hden, div_lt_iff₀ hden, gridFloor]
  split
  · rename_i h
    have hcast : ((10 ^ s.toNat : ℕ) : ℚ) = 10 ^ s := by simpa using zpow_toNat h 10
    have hpos : 0 < den * Nat.pow 10 s.toNat := Nat.mul_pos hd (Nat.pow_pos (by decide))
    have hle := Nat.div_mul_le_self num (den * Nat.pow 10 s.toNat)
    have hlt := Nat.lt_div_mul_add (a := num) hpos
    generalize num / (den * Nat.pow 10 s.toNat) = d at hle hlt ⊢
    have hle' : (d * (den * (10 ^ s.toNat : ℕ)) : ℚ) ≤ num := by exact_mod_cast hle
    have hlt' : (num : ℚ) < d * (den * (10 ^ s.toNat : ℕ)) + den * (10 ^ s.toNat : ℕ) := by
      exact_mod_cast hlt
    rw [hcast] at hle' hlt'
    exact ⟨by linarith, by linarith⟩
  · rename_i h
    have hcast : ((10 ^ (-s).toNat : ℕ) : ℚ) = (10 ^ s)⁻¹ := by
      simpa using zpow_neg_toNat (not_le.1 h) 10
    have hle := Nat.div_mul_le_self (num * Nat.pow 10 (-s).toNat) den
    have hlt := Nat.lt_div_mul_add (a := num * Nat.pow 10 (-s).toNat) hd
    generalize num * Nat.pow 10 (-s).toNat / den = d at hle hlt ⊢
    have hle' : (d * den : ℚ) ≤ num * (10 ^ (-s).toNat : ℕ) := by exact_mod_cast hle
    have hlt' : (num * (10 ^ (-s).toNat : ℕ) : ℚ) < d * den + den := by exact_mod_cast hlt
    rw [hcast, le_mul_inv_iff₀ hten] at hle'
    rw [hcast, mul_inv_lt_iff₀ hten] at hlt'
    exact ⟨by linarith, by linarith⟩

/-- The grid points beside a double. -/
theorem gridFloor_ratio (m : ℕ) (e s : ℤ) :
    (gridFloor (ratio m e).1 (ratio m e).2 s : ℚ) * 10 ^ s ≤ m * 2 ^ e ∧
      (m : ℚ) * 2 ^ e < (gridFloor (ratio m e).1 (ratio m e).2 s + 1) * 10 ^ s := by
  rw [← ratio_eq]
  exact gridFloor_bounds _ (ratio_pos m e) s

theorem floorLog10_le (hd : 0 < den) (n : ℕ) {k : ℤ} (h : (10 : ℚ) ^ k ≤ num / den) :
    (10 : ℚ) ^ floorLog10 num den n k ≤ num / den := by
  induction n generalizing k with
  | zero => exact h
  | succ n ih =>
    rw [floorLog10]
    split
    · rename_i hnext
      exact ih ((tenPowerLe_iff hd _).1 hnext)
    · exact h

theorem le_floorLog10 (hd : 0 < den) {n : ℕ} {k t : ℤ} (ht : (10 : ℚ) ^ t ≤ num / den)
    (hn : t ≤ k + n) : t ≤ floorLog10 num den n k := by
  induction n generalizing k with
  | zero =>
    rw [floorLog10]
    simpa using hn
  | succ n ih =>
    rw [floorLog10]
    split
    · exact ih (by push_cast at hn; omega)
    · rename_i hnext
      have hnot := mt (tenPowerLe_iff hd _).2 hnext
      by_contra hlt
      have hle : (10 : ℚ) ^ (k + 1) ≤ 10 ^ t := zpow_le_zpow_right₀ (by norm_num) (by omega)
      exact hnot (hle.trans ht)

/-- The exponent from which the search of `shortest` starts. -/
def lowExponent (num den : ℕ) : ℤ := (num.log2 : ℤ) * 3 / 10 - (den.log2 : ℤ) * 302 / 1000 - 4

theorem ten_pow_le_two_pow (a : ℕ) : 10 ^ (a * 3 / 10) ≤ 2 ^ a := by
  refine (Nat.pow_le_pow_iff_left (n := 10) (by decide)).1 ?_
  calc (10 ^ (a * 3 / 10)) ^ 10 = 10 ^ (a * 3 / 10 * 10) := (pow_mul _ _ _).symm
    _ ≤ 10 ^ (3 * a) := Nat.pow_le_pow_right (by decide) (by omega)
    _ = (10 ^ 3) ^ a := pow_mul _ _ _
    _ ≤ (2 ^ 10) ^ a := Nat.pow_le_pow_left (by decide) a
    _ = (2 ^ a) ^ 10 := by rw [← pow_mul, ← pow_mul, mul_comm]

theorem two_pow_le_ten_pow (b : ℕ) : 2 ^ (b + 1) ≤ 10 ^ (b * 302 / 1000 + 4) := by
  have hbase : 2 ^ 500 ≤ 10 ^ 151 := by decide +kernel
  refine (Nat.pow_le_pow_iff_left (n := 500) (by decide)).1 ?_
  calc (2 ^ (b + 1)) ^ 500 = (2 ^ 500) ^ (b + 1) := by rw [← pow_mul, ← pow_mul, mul_comm]
    _ ≤ (10 ^ 151) ^ (b + 1) := Nat.pow_le_pow_left hbase _
    _ = 10 ^ (151 * (b + 1)) := (pow_mul _ _ _).symm
    _ ≤ 10 ^ ((b * 302 / 1000 + 4) * 500) := Nat.pow_le_pow_right (by decide) (by omega)
    _ = (10 ^ (b * 302 / 1000 + 4)) ^ 500 := pow_mul _ _ _

theorem lowExponent_le (hn : 0 < num) (hd : 0 < den) :
    (10 : ℚ) ^ lowExponent num den ≤ num / den := by
  have hden : (0 : ℚ) < den := by exact_mod_cast hd
  have hnum : 10 ^ (num.log2 * 3 / 10) ≤ num :=
    (ten_pow_le_two_pow _).trans (Nat.log2_self_le hn.ne')
  have hle : den ≤ 10 ^ (den.log2 * 302 / 1000 + 4) :=
    (Nat.lt_log2_self).le.trans (two_pow_le_ten_pow _)
  rw [le_div_iff₀ hden, lowExponent, sub_sub, zpow_sub₀ (by norm_num), div_mul_eq_mul_div,
    div_le_iff₀ (by positivity)]
  have hmul := Nat.mul_le_mul hnum hle
  exact_mod_cast hmul

/-! The search -/

theorem onGrid?_some {d : ℕ} (h : onGrid? m e s = some d) :
    readsBack m e d s = true ∧
      (d = gridFloor (ratio m e).1 (ratio m e).2 s ∨
        d = gridFloor (ratio m e).1 (ratio m e).2 s + 1) := by
  rw [onGrid?] at h
  dsimp only at h
  split at h <;> rename_i hbelow habove
  · cases h
    split
    · exact ⟨habove, .inr rfl⟩
    · exact ⟨hbelow, .inl rfl⟩
  · cases h
    exact ⟨hbelow, .inl rfl⟩
  · cases h
    exact ⟨habove, .inr rfl⟩
  · cases h

theorem onGrid?_isSome (h : readsBack m e (gridFloor (ratio m e).1 (ratio m e).2 s) s = true) :
    (onGrid? m e s).isSome = true := by
  rw [onGrid?]
  dsimp only
  rw [h]
  split <;> simp_all

/-- The search ends no later than on a grid that has a point which reads back. -/
theorem searchGrids_ends {n : ℕ} {t : ℤ} (ht : (onGrid? m e t).isSome = true) (hle : t ≤ s)
    (hn : s < t + n) :
    ∃ d r, searchGrids m e n s = ⟨d, r⟩ ∧ t ≤ r ∧ r ≤ s ∧ onGrid? m e r = some d := by
  induction n generalizing s with
  | zero => omega
  | succ n ih =>
    rw [searchGrids]
    cases h : onGrid? m e s with
    | some d => exact ⟨d, s, rfl, hle, le_rfl, h⟩
    | none =>
      have hne : t ≠ s := by
        rintro rfl
        simp [h] at ht
      obtain ⟨d, r, hsearch, htr, hrs, hr⟩ := ih (s := s - 1) (by omega) (by push_cast at hn; omega)
      exact ⟨d, r, hsearch, htr, by omega, hr⟩

/-- Stripping zeros leaves a decimal of which the first is a multiple by a power of ten. -/
theorem stripTens_eq (n : ℕ) (x : Scaled) :
    ∃ k : ℕ, x.digits = (stripTens n x).digits * 10 ^ k ∧ x.power = (stripTens n x).power - k := by
  induction n generalizing x with
  | zero => exact ⟨0, by simp [stripTens]⟩
  | succ n ih =>
    rw [stripTens]
    split
    · rename_i h
      obtain ⟨k, hdigits, hpower⟩ := ih ⟨x.digits / 10, x.power + 1⟩
      refine ⟨k + 1, ?_, by dsimp only at hpower; push_cast; omega⟩
      rw [pow_succ, ← mul_assoc, ← hdigits]
      dsimp only
      omega
    · exact ⟨0, by simp⟩

/-! Grids that suffice -/

theorem readsBack_of_near (hnormal : (finite false m e).Normal) (hm : 0 < m) {d : ℕ}
    (hle : (d : ℚ) * 10 ^ s ≤ m * 2 ^ e) (hnear : (m : ℚ) * 2 ^ e < d * 10 ^ s + 2 ^ e / 4) :
    readsBack m e d s = true :=
  decide_eq_true (ofDecimal_of_near hnormal hm hle hnear)

/-- Grids of which the points lie close enough to each other. -/
theorem onGrid?_fine (hnormal : (finite false m e).Normal) (hm : 0 < m)
    (hs : (10 : ℚ) ^ s ≤ 2 ^ e / 4) : (onGrid? m e s).isSome = true := by
  have hgrid := gridFloor_ratio m e s
  exact onGrid?_isSome (readsBack_of_near hnormal hm hgrid.1 (by linarith))

/-- A whole number stands on the grid of whole numbers. -/
theorem onGrid?_whole (hnormal : (finite false m e).Normal) (hm : 0 < m) (he : 0 ≤ e) :
    (onGrid? m e 0).isSome = true := by
  have hgrid := gridFloor_ratio m e 0
  have hwhole : (m : ℚ) * 2 ^ e = (m * 2 ^ e.toNat : ℕ) := by
    have hcast : ((2 ^ e.toNat : ℕ) : ℚ) = 2 ^ e := by simpa using zpow_toNat he 2
    rw [Nat.cast_mul, hcast]
  have hfloor : gridFloor (ratio m e).1 (ratio m e).2 0 = m * 2 ^ e.toNat := by
    rw [hwhole, zpow_zero, mul_one, mul_one] at hgrid
    have hle : gridFloor (ratio m e).1 (ratio m e).2 0 ≤ m * 2 ^ e.toNat := by
      exact_mod_cast hgrid.1
    have hlt : m * 2 ^ e.toNat < gridFloor (ratio m e).1 (ratio m e).2 0 + 1 := by
      exact_mod_cast hgrid.2
    omega
  have hpow : (0 : ℚ) < 2 ^ e := by positivity
  refine onGrid?_isSome (readsBack_of_near hnormal hm ?_ ?_)
  · rw [hfloor, hwhole, zpow_zero, mul_one]
  · rw [hfloor, hwhole, zpow_zero, mul_one]
    linarith

/-- The exponent of the leading digit, from which the grids become finer. -/
def topExponent (m : ℕ) (e : ℤ) : ℤ :=
  floorLog10 (ratio m e).1 (ratio m e).2 40 (lowExponent (ratio m e).1 (ratio m e).2)

theorem shortest_eq (hm : 0 < m) :
    shortest m e = stripTens 20 (searchGrids m e 18 (topExponent m e)) := by
  rw [shortest, if_neg hm.ne']
  rfl

theorem topExponent_le (hm : 0 < m) : (10 : ℚ) ^ topExponent m e ≤ m * 2 ^ e := by
  have hn : 0 < (ratio m e).1 := by
    rw [ratio]
    split
    · exact Nat.mul_pos hm (Nat.pow_pos (by decide))
    · exact hm
  rw [← ratio_eq]
  exact floorLog10_le (ratio_pos m e) 40 (lowExponent_le hn (ratio_pos m e))

/-- From `10 ^ 16` on there are no fractions. -/
theorem whole_of_large (hnormal : (finite false m e).Normal)
    (hlarge : (10 : ℚ) ^ 16 ≤ m * 2 ^ e) : 0 ≤ e := by
  by_contra he
  have hlt := hnormal.bits.1
  have hpow : (2 : ℚ) ^ e ≤ 2 ^ (0 : ℤ) := zpow_le_zpow_right₀ (by norm_num) (by omega)
  rw [zpow_zero] at hpow
  linarith

/-- What is whole has as many digits as its size says. -/
theorem le_topExponent {t : ℤ} (he : 0 ≤ e) (ht : t ≤ 36) (h : (10 : ℚ) ^ t ≤ m * 2 ^ e) :
    t ≤ topExponent m e := by
  have hden : (ratio m e).2 = 1 := by rw [ratio, if_pos he]
  have hlow : -4 ≤ lowExponent (ratio m e).1 (ratio m e).2 := by
    rw [lowExponent, hden, show Nat.log2 1 = 0 by decide]
    omega
  refine le_floorLog10 (ratio_pos m e) ?_ (by push_cast; omega)
  rwa [ratio_eq]

theorem topExponent_nonneg (he : 0 ≤ e) (hlarge : (10 : ℚ) ^ 16 ≤ m * 2 ^ e) :
    0 ≤ topExponent m e := by
  refine le_topExponent he (by decide) ?_
  rw [zpow_zero]
  linarith

/-- The shortest decimal stands on a grid that is no finer than one which suffices. -/
theorem shortest_of_grid (hm : 0 < m) {t : ℤ} (hsome : (onGrid? m e t).isSome = true)
    (hle : t ≤ topExponent m e) (hlt : topExponent m e < t + (18 : ℕ)) :
    ∃ d s, onGrid? m e s = some d ∧ t ≤ s ∧ s ≤ topExponent m e ∧
      ∃ k : ℕ, d = (shortest m e).digits * 10 ^ k ∧ s = (shortest m e).power - k := by
  obtain ⟨d, s, hsearch, hts, hst, hd⟩ := searchGrids_ends hsome hle hlt
  obtain ⟨k, hdigits, hpower⟩ := stripTens_eq 20 ⟨d, s⟩
  rw [shortest_eq hm, hsearch]
  exact ⟨d, s, hd, hts, hst, k, hdigits, hpower⟩

/-- The shortest decimal reads back, stands on a grid beside the double, and is whole from `10 ^ 16`
on. -/
theorem shortest_grid (hnormal : (finite false m e).Normal) (hm : 0 < m) :
    ∃ d s, readsBack m e d s = true ∧
      (d = gridFloor (ratio m e).1 (ratio m e).2 s ∨
        d = gridFloor (ratio m e).1 (ratio m e).2 s + 1) ∧
      s ≤ topExponent m e ∧ ((10 : ℚ) ^ 16 ≤ m * 2 ^ e → 0 ≤ s) ∧
      ∃ k : ℕ, d = (shortest m e).digits * 10 ^ k ∧ s = (shortest m e).power - k := by
  have hfine : (onGrid? m e (topExponent m e - 17)).isSome = true := by
    refine onGrid?_fine hnormal hm ?_
    have htop := topExponent_le (e := e) hm
    have hbits := hnormal.bits.1
    have hpow : (0 : ℚ) < 2 ^ e := by positivity
    rw [zpow_sub₀ (by norm_num), div_le_iff₀ (by norm_num),
      show (10 : ℚ) ^ (17 : ℤ) = 100000000000000000 by norm_num]
    linarith
  obtain ⟨t, hsome, hle, hlt, hwhole⟩ : ∃ t, (onGrid? m e t).isSome = true ∧ t ≤ topExponent m e ∧
      topExponent m e < t + (18 : ℕ) ∧ ((10 : ℚ) ^ 16 ≤ m * 2 ^ e → 0 ≤ t) := by
    by_cases hlarge : (10 : ℚ) ^ 16 ≤ m * 2 ^ e ∧ topExponent m e < 17
    · have he := whole_of_large hnormal hlarge.1
      have htop := topExponent_nonneg he hlarge.1
      exact ⟨0, onGrid?_whole hnormal hm he, htop, by push_cast; omega, fun _ => le_rfl⟩
    · refine ⟨topExponent m e - 17, hfine, by omega, by push_cast; omega, fun h => ?_⟩
      have := not_and.1 hlarge h
      omega
  obtain ⟨d, s, hd, hts, hst, hstripped⟩ := shortest_of_grid hm hsome hle hlt
  obtain ⟨hback, hfloor⟩ := onGrid?_some hd
  exact ⟨d, s, hback, hfloor, hst, fun h => (hwhole h).trans hts, hstripped⟩

theorem shortest_readsBack (hnormal : (finite false m e).Normal) :
    ofDecimal false (shortest m e).digits (shortest m e).power = .finite false m e := by
  obtain rfl | hm := Nat.eq_zero_or_pos m
  · obtain ⟨-, -, -, hhidden⟩ := hnormal
    have he : e = minExponent := hhidden.resolve_left (by decide)
    rw [he]
    rfl
  · obtain ⟨d, s, hback, -, -, -, k, hdigits, hpower⟩ := shortest_grid hnormal hm
    rw [← of_decide_eq_true hback, hdigits, hpower, ofDecimal_shift]

theorem digits_pos (hnormal : (finite false m e).Normal) (hm : 0 < m) :
    0 < (shortest m e).digits := by
  refine Nat.pos_of_ne_zero fun hz => ?_
  have hback := shortest_readsBack hnormal
  rw [hz, ofDecimal, if_pos rfl, zero, finite.injEq] at hback
  exact hm.ne hback.2.1

/-- `10 ^ 16` is a double. -/
theorem eq_of_reads_ten_pow (hnormal : (finite false m e).Normal) {d : ℕ}
    (hd : (d : ℚ) * 10 ^ s = 10 ^ 16) (hback : readsBack m e d s = true) :
    (m : ℚ) * 2 ^ e = 10 ^ 16 := by
  have hten : ofDecimal false d s = .finite false (5 * 10 ^ 15) 1 := by
    refine ofDecimal_of_near ?_ (by norm_num) ?_ ?_
    · exact ⟨by decide, by decide, by decide, .inl (by decide)⟩
    · rw [hd]
      norm_num
    · rw [hd]
      norm_num
  have heq := (of_decide_eq_true hback).symm.trans hten
  rw [finite.injEq] at heq
  obtain ⟨-, rfl, rfl⟩ := heq
  norm_num

/-- `10 ^ 16` stands on every grid up to its own. -/
theorem ten_pow_eq (hs : s ≤ 16) : (10 : ℚ) ^ 16 = (10 ^ (16 - s).toNat : ℕ) * 10 ^ s := by
  rw [zpow_toNat (by omega), Nat.cast_ofNat, ← zpow_add₀ (by norm_num), sub_add_cancel]
  rfl

theorem shortest_below (hnormal : (finite false m e).Normal) (hm : 0 < m)
    (hsmall : (m : ℚ) * 2 ^ e < 10 ^ 16) :
    ((shortest m e).digits : ℚ) * 10 ^ (shortest m e).power < 10 ^ 16 := by
  obtain ⟨d, s, hback, hfloor, hst, -, k, hdigits, hpower⟩ := shortest_grid hnormal hm
  have hgrid := gridFloor_ratio m e s
  have hten : (0 : ℚ) < 10 ^ s := by positivity
  have htop : topExponent m e < 16 := by
    by_contra hle
    have hpow : (10 : ℚ) ^ (16 : ℤ) ≤ 10 ^ topExponent m e :=
      zpow_le_zpow_right₀ (by norm_num) (by omega)
    exact absurd (hpow.trans (topExponent_le hm)) (not_le.2 hsmall)
  have hpoint := ten_pow_eq (s := s) (by omega)
  -- Neither neighbour of the double on the grid is beyond the grid point `10 ^ 16`.
  have hlt : gridFloor (ratio m e).1 (ratio m e).2 s < 10 ^ (16 - s).toNat := by
    have h : (gridFloor (ratio m e).1 (ratio m e).2 s : ℚ) * 10 ^ s <
        (10 ^ (16 - s).toNat : ℕ) * 10 ^ s := by
      rw [← hpoint]
      exact hgrid.1.trans_lt hsmall
    exact_mod_cast lt_of_mul_lt_mul_right h hten.le
  have hle : (d : ℚ) * 10 ^ s ≤ 10 ^ 16 := by
    have h : d ≤ 10 ^ (16 - s).toNat := by omega
    rw [hpoint]
    gcongr
  rw [← value_shift _ k, ← hdigits, ← hpower]
  exact lt_of_le_of_ne hle fun heq => hsmall.ne (eq_of_reads_ten_pow hnormal heq hback)

theorem shortest_above (hnormal : (finite false m e).Normal) (hm : 0 < m)
    (hlarge : (10 : ℚ) ^ 16 ≤ m * 2 ^ e) :
    0 ≤ (shortest m e).power ∧
      (10 : ℚ) ^ 16 ≤ (shortest m e).digits * 10 ^ (shortest m e).power := by
  have hpos := digits_pos hnormal hm
  obtain ⟨d, s, -, hfloor, -, hwhole, k, hdigits, hpower⟩ := shortest_grid hnormal hm
  have hgrid := gridFloor_ratio m e s
  have hten : (0 : ℚ) < 10 ^ s := by positivity
  refine ⟨by have := hwhole hlarge; omega, ?_⟩
  rw [← value_shift _ k, ← hdigits, ← hpower]
  by_cases hs : s ≤ 16
  · have hpoint := ten_pow_eq hs
    have hlt : 10 ^ (16 - s).toNat < gridFloor (ratio m e).1 (ratio m e).2 s + 1 := by
      have h : ((10 ^ (16 - s).toNat : ℕ) : ℚ) * 10 ^ s <
          (gridFloor (ratio m e).1 (ratio m e).2 s + 1) * 10 ^ s := by
        rw [← hpoint]
        exact hlarge.trans_lt hgrid.2
      exact_mod_cast lt_of_mul_lt_mul_right h hten.le
    have hle : 10 ^ (16 - s).toNat ≤ d := by omega
    rw [hpoint]
    gcongr
  · have hd : 1 ≤ d := by
      rw [hdigits]
      exact Nat.mul_pos hpos (by positivity)
    have hpow : (10 : ℚ) ^ (16 : ℤ) ≤ 10 ^ s := zpow_le_zpow_right₀ (by norm_num) (by omega)
    have hone : (1 : ℚ) * 10 ^ s ≤ d * 10 ^ s := by
      gcongr
      exact_mod_cast hd
    rw [one_mul] at hone
    exact hpow.trans hone

/-- From `10 ^ 16` on the shortest decimal is whole and has more than sixteen digits. -/
theorem shortest_long (hnormal : (finite false m e).Normal) (hm : 0 < m)
    (hlarge : (10 : ℚ) ^ 16 ≤ m * 2 ^ e) :
    0 ≤ (shortest m e).power ∧ 16 < (shortest m e).power + digitCount (shortest m e).digits := by
  obtain ⟨hpower, habove⟩ := shortest_above hnormal hm hlarge
  have hlt := habove.trans_lt
    (decimal_bounds (digits_pos hnormal hm) (shortest m e).power).2
  exact ⟨hpower, (zpow_lt_zpow_iff_right₀ (a := (10 : ℚ)) (m := 16) (by norm_num)).1 hlt⟩

end

end Pipewright.Decimal
