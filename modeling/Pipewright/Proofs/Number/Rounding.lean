import Mathlib.Algebra.Order.Field.Power
import Mathlib.Data.Int.Log
import Mathlib.Data.Rat.Floor
import Mathlib.Tactic.Linarith
import Mathlib.Tactic.Positivity
import Mathlib.Tactic.FieldSimp
import Mathlib.Tactic.NormNum
import Mathlib.Tactic.Ring
import Pipewright.Number.Binary64

/-! Rounding of quotients and decimals to doubles: it depends on the quotient alone, and a double
is what everything near it is rounded to. -/
namespace Pipewright.Binary64

/-! Quotients and powers -/

section
variable {num den b : ℕ}

theorem zpow_toNat {k : ℤ} (hk : 0 ≤ k) (b : ℕ) : ((b ^ k.toNat : ℕ) : ℚ) = (b : ℚ) ^ k := by
  obtain ⟨n, rfl⟩ := Int.eq_ofNat_of_zero_le hk
  simp

theorem zpow_neg_toNat {k : ℤ} (hk : k < 0) (b : ℕ) :
    ((b ^ (-k).toNat : ℕ) : ℚ) = ((b : ℚ) ^ k)⁻¹ := by
  rw [zpow_toNat (by omega), zpow_neg]

theorem zpow_lt_zpow {a b j k : ℕ} (h : a ^ j < b ^ k) :
    (a : ℚ) ^ (j : ℤ) < (b : ℚ) ^ (k : ℤ) := by
  rw [zpow_natCast, zpow_natCast]
  exact_mod_cast h

/-- Numerator and denominator of a number times a power. -/
def scaledRatio (b n : ℕ) (k : ℤ) : ℕ × ℕ :=
  if 0 ≤ k then (n * Nat.pow b k.toNat, 1) else (n, Nat.pow b (-k).toNat)

theorem scaledRatio_pos (hb : 0 < b) (n : ℕ) (k : ℤ) : 0 < (scaledRatio b n k).2 := by
  rw [scaledRatio]
  split
  · exact Nat.one_pos
  · exact Nat.pow_pos hb

theorem scaledRatio_eq (b n : ℕ) (k : ℤ) :
    ((scaledRatio b n k).1 : ℚ) / (scaledRatio b n k).2 = n * (b : ℚ) ^ k := by
  rw [scaledRatio]
  split
  · rename_i h
    rw [← zpow_toNat h, Nat.cast_mul, Nat.cast_one, div_one]
    rfl
  · rename_i h
    have hcast := zpow_neg_toNat (not_le.1 h) b
    rw [show Nat.pow b (-k).toNat = b ^ (-k).toNat from rfl, hcast, div_inv_eq_mul]

/-- Comparison of a quotient with a power in natural numbers. -/
theorem zpow_le_div_iff (num : ℕ) (hb : 0 < b) (hd : 0 < den) (k : ℤ) :
    (b : ℚ) ^ k ≤ num / den ↔
      if 0 ≤ k then den * b ^ k.toNat ≤ num else den ≤ num * b ^ (-k).toNat := by
  have hden : (0 : ℚ) < den := by exact_mod_cast hd
  have hbase : (0 : ℚ) < b := by exact_mod_cast hb
  have hpow : (0 : ℚ) < (b : ℚ) ^ k := by positivity
  rw [le_div_iff₀ hden]
  split
  · rename_i hk
    rw [← zpow_toNat hk, mul_comm]
    exact_mod_cast Iff.rfl
  · rename_i hk
    have hiff : (b : ℚ) ^ k * den ≤ num ↔ (den : ℚ) ≤ num * ((b : ℚ) ^ k)⁻¹ := by
      rw [le_mul_inv_iff₀ hpow, mul_comm]
    rw [hiff, ← zpow_neg_toNat (by omega)]
    exact_mod_cast Iff.rfl

theorem powerLe_iff (num : ℕ) (hd : 0 < den) (k : ℤ) :
    powerLe k num den = true ↔ (2 : ℚ) ^ k ≤ num / den := by
  have h := zpow_le_div_iff num (b := 2) (by decide) hd k
  rw [Nat.cast_ofNat] at h
  rw [h, powerLe]
  split <;> simp

/-- The exponent found is the logarithm, rounded down. -/
theorem floorLog2_eq (hn : 0 < num) (hd : 0 < den) :
    floorLog2 num den = Int.log 2 ((num : ℚ) / den) := by
  have hden : (0 : ℚ) < den := by exact_mod_cast hd
  have hpos : (0 : ℚ) < num / den := by positivity
  have hlow : (num.log2 : ℤ) - den.log2 - 1 ≤ Int.log 2 ((num : ℚ) / den) := by
    rw [← Int.zpow_le_iff_le_log (by decide) hpos, le_div_iff₀ hden, sub_sub, zpow_sub₀ (by simp),
      div_mul_eq_mul_div, div_le_iff₀ (by positivity)]
    have hnum : 2 ^ num.log2 ≤ num := Nat.log2_self_le hn.ne'
    have hlt : den < 2 ^ (den.log2 + 1) := Nat.lt_log2_self
    have hle : 2 ^ num.log2 * den ≤ num * 2 ^ (den.log2 + 1) := Nat.mul_le_mul hnum hlt.le
    exact_mod_cast hle
  have hhigh : Int.log 2 ((num : ℚ) / den) < (num.log2 : ℤ) - den.log2 + 1 := by
    rw [← Int.lt_zpow_iff_log_lt (by decide) hpos, div_lt_iff₀ hden, sub_add_eq_add_sub,
      zpow_sub₀ (by simp), div_mul_eq_mul_div, lt_div_iff₀ (by positivity)]
    have hnum : num < 2 ^ (num.log2 + 1) := Nat.lt_log2_self
    have hle : 2 ^ den.log2 ≤ den := Nat.log2_self_le hd.ne'
    have hlt : num * 2 ^ den.log2 < 2 ^ (num.log2 + 1) * den :=
      Nat.mul_lt_mul_of_lt_of_le hnum hle (by positivity)
    exact_mod_cast hlt
  have hpower := powerLe_iff num hd (num.log2 - den.log2)
  rw [show (2 : ℚ) = ((2 : ℕ) : ℚ) by norm_num, Int.zpow_le_iff_le_log (by decide) hpos] at hpower
  rw [floorLog2]
  split <;> rename_i h
  · have := hpower.1 h
    omega
  · have := mt hpower.2 h
    omega

end

/-! Rounding to natural numbers -/

theorem roundQuotient_mul (num den : ℕ) {c : ℕ} (hc : 0 < c) :
    roundQuotient (num * c) (den * c) = roundQuotient num den := by
  have hlt : 2 * (num % den * c) < den * c ↔ 2 * (num % den) < den := by
    rw [← Nat.mul_assoc, Nat.mul_lt_mul_right hc]
  have hgt : den * c < 2 * (num % den * c) ↔ den < 2 * (num % den) := by
    rw [← Nat.mul_assoc, Nat.mul_lt_mul_right hc]
  simp only [roundQuotient, Nat.mul_div_mul_right _ _ hc, Nat.mul_mod_mul_right, hlt, hgt]

/-- Rounding depends on the quotient alone. -/
theorem roundQuotient_congr {a b c d : ℕ} (hb : 0 < b) (hd : 0 < d) (h : a * d = c * b) :
    roundQuotient a b = roundQuotient c d := by
  rw [← roundQuotient_mul a b hd, h, Nat.mul_comm b d, roundQuotient_mul c d hb]

theorem roundQuotient_of_near {num den n : ℕ} (hlow : 2 * (n * den) < 2 * num + den)
    (hhigh : 2 * num < 2 * (n * den) + den) : roundQuotient num den = n := by
  have hmod : num = num / den * den + num % den := (Nat.div_add_mod' num den).symm
  have hlt : num % den < den := Nat.mod_lt num (by omega)
  rw [roundQuotient]
  generalize num / den = q, num % den = r at hmod hlt ⊢
  have hnext : (q + 1) * den = q * den + den := Nat.succ_mul q den
  have hstep : (n + 1) * den = n * den + den := Nat.succ_mul n den
  by_cases hbelow : 2 * r < den
  · have hle : n < q + 1 := Nat.lt_of_mul_lt_mul_right (a := den) (by omega)
    have hge : q < n + 1 := Nat.lt_of_mul_lt_mul_right (a := den) (by omega)
    simp only [hbelow, if_true]
    omega
  · have hge : q < n := Nat.lt_of_mul_lt_mul_right (a := den) (by omega)
    have hle : n * den < (q + 1 + 1) * den := by
      rw [Nat.succ_mul, hnext]
      omega
    have habove : den < 2 * r := by
      by_contra hmid
      have hless : n * den < (q + 1) * den := by omega
      have := Nat.lt_of_mul_lt_mul_right hless
      omega
    have hless : n < q + 1 + 1 := Nat.lt_of_mul_lt_mul_right hle
    simp only [hbelow, habove, if_true, if_false]
    omega

/-! Mantissas -/

section
variable {num den a b c d : ℕ}

/-- The mantissa of a quotient at a binary exponent. -/
def mantissaAt (e : ℤ) (num den : ℕ) : ℕ :=
  if 0 ≤ e then roundQuotient num (den * Nat.pow 2 e.toNat)
  else roundQuotient (num * Nat.pow 2 (-e).toNat) den

theorem mantissaAt_congr (hb : 0 < b) (hd : 0 < d) (h : a * d = c * b) (e : ℤ) :
    mantissaAt e a b = mantissaAt e c d := by
  rw [mantissaAt, mantissaAt]
  split
  · have hpow : 0 < Nat.pow 2 e.toNat := Nat.two_pow_pos _
    refine roundQuotient_congr (Nat.mul_pos hb hpow) (Nat.mul_pos hd hpow) ?_
    rw [← Nat.mul_assoc, ← Nat.mul_assoc, h]
  · refine roundQuotient_congr hb hd ?_
    rw [Nat.mul_right_comm, h, Nat.mul_right_comm]

/-- What is nearer than half a unit is rounded to. -/
theorem mantissaAt_of_near {e : ℤ} {n : ℕ} (hd : 0 < den)
    (hlow : ((n : ℚ) - 1 / 2) * 2 ^ e < num / den) (hhigh : (num : ℚ) / den < (n + 1 / 2) * 2 ^ e) :
    mantissaAt e num den = n := by
  have hden : (0 : ℚ) < den := by exact_mod_cast hd
  have hpow : (0 : ℚ) < 2 ^ e := by positivity
  rw [lt_div_iff₀ hden] at hlow
  rw [div_lt_iff₀ hden] at hhigh
  rw [mantissaAt]
  split
  · rename_i he
    have hcast : ((2 ^ e.toNat : ℕ) : ℚ) = 2 ^ e := by simpa using zpow_toNat he 2
    have hlow' : (2 * (n * (den * 2 ^ e)) : ℚ) < 2 * num + den * 2 ^ e := by linarith
    have hhigh' : (2 * num : ℚ) < 2 * (n * (den * 2 ^ e)) + den * 2 ^ e := by linarith
    rw [← hcast] at hlow' hhigh'
    exact roundQuotient_of_near (by exact_mod_cast hlow') (by exact_mod_cast hhigh')
  · rename_i he
    have hcast : ((2 ^ (-e).toNat : ℕ) : ℚ) = (2 ^ e)⁻¹ := by
      simpa using zpow_neg_toNat (not_le.1 he) 2
    have hscaled : (num : ℚ) = num * (2 ^ e)⁻¹ * 2 ^ e := (inv_mul_cancel_right₀ hpow.ne' _).symm
    have hlow' : ((n - 1 / 2) * den : ℚ) < num * (2 ^ e)⁻¹ := by
      rw [lt_mul_inv_iff₀ hpow]
      linarith
    have hhigh' : (num * (2 ^ e)⁻¹ : ℚ) < (n + 1 / 2) * den := by
      rw [mul_inv_lt_iff₀ hpow]
      linarith
    have hbelow : (2 * (n * den) : ℚ) < 2 * (num * (2 ^ e)⁻¹) + den := by linarith
    have habove : (2 * (num * (2 ^ e)⁻¹) : ℚ) < 2 * (n * den) + den := by linarith
    rw [← hcast] at hbelow habove
    exact roundQuotient_of_near (by exact_mod_cast hbelow) (by exact_mod_cast habove)

end

/-! Doubles -/

/-- The double of a mantissa that rounding gave, which may be one too large. -/
def assembled (negative : Bool) (m : ℕ) (e : ℤ) : Binary64 :=
  let (m, e) := if m = Nat.pow 2 53 then (Nat.pow 2 52, e + 1) else (m, e)
  if maxExponent < e then .infinite negative else .finite negative m e

/-- The binary exponent at which a quotient is rounded. -/
def exponentOf (num den : ℕ) : ℤ := max (floorLog2 num den - 52) minExponent

theorem ofRatio_eq {num : ℕ} (hn : num ≠ 0) (negative : Bool) (den : ℕ) :
    ofRatio negative num den =
      assembled negative (mantissaAt (exponentOf num den) num den) (exponentOf num den) := by
  rw [ofRatio, if_neg hn]
  rfl

/-- Equal quotients have the same double. -/
theorem ofRatio_congr {a b c d : ℕ} (hb : 0 < b) (hd : 0 < d) (h : a * d = c * b)
    (negative : Bool) : ofRatio negative a b = ofRatio negative c d := by
  by_cases ha : a = 0
  · have hc : c = 0 := by simpa [ha, hb.ne'] using h
    rw [ofRatio, ofRatio, if_pos ha, if_pos hc]
  · have hc : c ≠ 0 := by
      rintro rfl
      simp [ha, hd.ne'] at h
    have hbase : ((a : ℚ) / b) = c / d := by
      rw [div_eq_div_iff (by exact_mod_cast hb.ne') (by exact_mod_cast hd.ne')]
      exact_mod_cast h
    have hexponent : exponentOf a b = exponentOf c d := by
      rw [exponentOf, exponentOf, floorLog2_eq (Nat.pos_of_ne_zero ha) hb,
        floorLog2_eq (Nat.pos_of_ne_zero hc) hd, hbase]
    rw [ofRatio_eq ha, ofRatio_eq hc, hexponent, mantissaAt_congr hb hd h]

/-- The exponent at which the mantissa has the bits of a double, or the least one. -/
theorem exponentOf_eq {num den : ℕ} {e : ℤ} (hn : 0 < num) (hd : 0 < den)
    (hmin : minExponent ≤ e) (hlow : e = minExponent ∨ (2 : ℚ) ^ (e + 52) ≤ num / den)
    (hhigh : (num : ℚ) / den < 2 ^ (e + 53)) : exponentOf num den = e := by
  have hpos : (0 : ℚ) < num / den := by positivity
  have hlt : Int.log 2 ((num : ℚ) / den) < e + 53 :=
    (Int.lt_zpow_iff_log_lt (by decide) hpos).1 (by exact_mod_cast hhigh)
  rw [exponentOf, floorLog2_eq hn hd]
  rcases hlow with hlow | hlow
  · omega
  · have hle : e + 52 ≤ Int.log 2 ((num : ℚ) / den) :=
      (Int.zpow_le_iff_le_log (by decide) hpos).1 (by exact_mod_cast hlow)
    omega

theorem assembled_normal {negative : Bool} {m : ℕ} {e : ℤ}
    (h : (finite negative m e).Normal) : assembled negative m e = .finite negative m e := by
  have hbits : m ≠ Nat.pow 2 53 := h.1.ne
  rw [assembled, if_neg hbits]
  exact if_neg (not_lt.2 h.2.2.1)

theorem assembled_carry (negative : Bool) {e : ℤ} (h : e ≤ maxExponent) :
    assembled negative (2 ^ 53) (e - 1) = .finite negative (Nat.pow 2 52) e := by
  have hcarried : assembled negative (2 ^ 53) (e - 1) =
      if maxExponent < e - 1 + 1 then .infinite negative
      else .finite negative (Nat.pow 2 52) (e - 1 + 1) := rfl
  rw [hcarried, sub_add_cancel, if_neg (not_lt.2 h)]

/-! What a double is the rounding of -/

section
variable {negative : Bool} {m num den : ℕ} {e : ℤ}

theorem zpow_add_nat (e : ℤ) (n : ℕ) : (2 : ℚ) ^ (e + n) = 2 ^ n * 2 ^ e := by
  rw [zpow_add₀ (by norm_num), zpow_natCast, mul_comm]

theorem unit_le (hm : 0 < m) (e : ℤ) : (2 : ℚ) ^ e ≤ m * 2 ^ e :=
  le_mul_of_one_le_left (by positivity) (by exact_mod_cast hm)

/-- A double has the size that its 53 bits allow, of which the first is set above the least
exponent. -/
theorem Normal.bits (h : (finite negative m e).Normal) :
    (m : ℚ) * 2 ^ e < 2 ^ 53 * 2 ^ e ∧ (minExponent < e → (2 : ℚ) ^ 52 * 2 ^ e ≤ m * 2 ^ e) := by
  obtain ⟨hlt, -, -, hhidden⟩ := h
  refine ⟨?_, fun he => ?_⟩
  · gcongr
    exact_mod_cast hlt
  · have hbits : 2 ^ 52 ≤ m := hhidden.resolve_right he.ne'
    gcongr
    exact_mod_cast hbits

/-- A quotient just below a double has as many binary digits, or is just below a power of two. -/
theorem rounds_within (h : (finite negative m e).Normal) (hn : 0 < num) (hd : 0 < den)
    (hle : (num : ℚ) / den ≤ m * 2 ^ e) (hnear : (m : ℚ) * 2 ^ e < num / den + 2 ^ e / 4)
    (hlow : minExponent < e → (2 : ℚ) ^ (e + (52 : ℕ)) ≤ num / den) :
    exponentOf num den = e ∧ mantissaAt e num den = m := by
  have hpow : (0 : ℚ) < 2 ^ e := by positivity
  have hmin : minExponent ≤ e := h.2.1
  refine ⟨exponentOf_eq hn hd hmin ?_ ?_, mantissaAt_of_near hd (by linarith) (by linarith)⟩
  · exact hmin.eq_or_lt.imp Eq.symm hlow
  · rw [show e + 53 = e + (53 : ℕ) by omega, zpow_add_nat]
    exact hle.trans_lt h.bits.1

/-- Just below a power of two a quotient has one binary digit less than the double, and its
mantissa is rounded up to the next digit. -/
theorem rounds_carry (h : (finite negative m e).Normal) (hn : 0 < num) (hd : 0 < den)
    (hnear : (m : ℚ) * 2 ^ e < num / den + 2 ^ e / 4)
    (hbelow : (num : ℚ) / den < 2 ^ (e + (52 : ℕ))) (he : minExponent < e) :
    exponentOf num den = e - 1 ∧ mantissaAt (e - 1) num den = 2 ^ 53 ∧ m = Nat.pow 2 52 := by
  have hpow : (0 : ℚ) < 2 ^ e := by positivity
  have hbits := h.bits.2 he
  have hhalf : (2 : ℚ) ^ e = 2 * 2 ^ (e - 1) := by
    rw [zpow_sub_one₀ (by norm_num)]
    ring
  have hbelow' : (num : ℚ) / den < 2 ^ 52 * 2 ^ e := by rwa [zpow_add_nat] at hbelow
  refine ⟨exponentOf_eq hn hd (by omega) (.inr ?_) ?_, mantissaAt_of_near hd ?_ ?_, ?_⟩
  · rw [show e - 1 + 52 = e + (51 : ℕ) by omega, zpow_add_nat]
    linarith
  · rwa [show e - 1 + 53 = e + (52 : ℕ) by omega]
  · push_cast
    linarith
  · push_cast
    linarith
  · have hnext : (m : ℚ) * 2 ^ e < (2 ^ 52 + 1) * 2 ^ e := by linarith
    have hlt : (m : ℚ) < 2 ^ 52 + 1 := lt_of_mul_lt_mul_right hnext hpow.le
    have hle : m < Nat.pow 2 52 + 1 := by exact_mod_cast hlt
    exact Nat.le_antisymm (Nat.le_of_lt_succ hle) (h.2.2.2.resolve_right he.ne')

/-- A double is what quotients just below it are rounded to. -/
theorem ofRatio_of_near (h : (finite negative m e).Normal) (hm : 0 < m) (hd : 0 < den)
    (hle : (num : ℚ) / den ≤ m * 2 ^ e) (hnear : (m : ℚ) * 2 ^ e < num / den + 2 ^ e / 4) :
    ofRatio negative num den = .finite negative m e := by
  have hpow : (0 : ℚ) < 2 ^ e := by positivity
  have hone := unit_le hm e
  have hn : num ≠ 0 := by
    rintro rfl
    simp only [Nat.cast_zero, zero_div] at hnear
    linarith
  have hpos : 0 < num := Nat.pos_of_ne_zero hn
  by_cases hcarry : (num : ℚ) / den < 2 ^ (e + (52 : ℕ)) ∧ minExponent < e
  · obtain ⟨hexponent, hmantissa, hleast⟩ := rounds_carry h hpos hd hnear hcarry.1 hcarry.2
    rw [ofRatio_eq hn, hexponent, hmantissa, assembled_carry negative h.2.2.1, hleast]
  · obtain ⟨hexponent, hmantissa⟩ := rounds_within h hpos hd hle hnear fun he =>
      not_lt.1 fun hlt => hcarry ⟨hlt, he⟩
    rw [ofRatio_eq hn, hexponent, hmantissa, assembled_normal h]

end

/-! Decimals -/

theorem digitCount_pos (n : ℕ) : 0 < digitCount n := Nat.length_toDigits_pos

theorem digitCount_le_iff {n k : ℕ} (hk : 0 < k) : digitCount n ≤ k ↔ n < 10 ^ k :=
  Nat.length_toDigits_le_iff (by decide) hk

theorem lt_pow_digitCount (n : ℕ) : n < 10 ^ digitCount n :=
  (digitCount_le_iff (digitCount_pos n)).1 le_rfl

theorem pow_le_of_digitCount {n : ℕ} (hn : 0 < n) : 10 ^ (digitCount n - 1) ≤ n := by
  obtain hone | hmore := Nat.eq_zero_or_pos (digitCount n - 1)
  · rw [hone, pow_zero]
    exact hn
  · by_contra hlt
    have hle := (digitCount_le_iff hmore).2 (not_le.1 hlt)
    omega

theorem digitCount_mul_pow {n : ℕ} (hn : 0 < n) (k : ℕ) :
    digitCount (n * 10 ^ k) = digitCount n + k := by
  have hcount := digitCount_pos n
  have hpow : 0 < 10 ^ k := by positivity
  refine le_antisymm ?_ (not_lt.1 fun hlt => ?_)
  · rw [digitCount_le_iff (by omega), pow_add]
    exact Nat.mul_lt_mul_of_pos_right (lt_pow_digitCount n) hpow
  · have hle : n * 10 ^ k < 10 ^ (digitCount n - 1 + k) := by
      by_cases hone : digitCount n - 1 + k = 0
      · have hmul := digitCount_pos (n * 10 ^ k)
        omega
      · exact (digitCount_le_iff (Nat.pos_of_ne_zero hone)).1 (by omega)
    rw [pow_add] at hle
    exact absurd (Nat.lt_of_mul_lt_mul_right hle) (not_lt.2 (pow_le_of_digitCount hn))

theorem ofDecimal_eq {digits : ℕ} (hd : digits ≠ 0) (negative : Bool) (power : ℤ) :
    ofDecimal negative digits power =
      if 310 < power + digitCount digits then .infinite negative
      else if power + digitCount digits < -330 then zero negative
      else ofRatio negative (scaledRatio 10 digits power).1 (scaledRatio 10 digits power).2 := by
  by_cases h : 0 ≤ power <;> simp only [ofDecimal, if_neg hd, scaledRatio, h, if_true, if_false]

theorem value_shift (digits k : ℕ) (power : ℤ) :
    ((digits * 10 ^ k : ℕ) : ℚ) * 10 ^ (power - k) = digits * 10 ^ power := by
  rw [zpow_sub₀ (by norm_num), zpow_natCast]
  push_cast
  field_simp

/-- Zeros at the end of the digits are powers of ten. -/
theorem ofDecimal_shift (negative : Bool) (digits : ℕ) (power : ℤ) (k : ℕ) :
    ofDecimal negative (digits * 10 ^ k) (power - k) = ofDecimal negative digits power := by
  by_cases hd : digits = 0
  · rw [hd, Nat.zero_mul, ofDecimal, ofDecimal, if_pos rfl, if_pos rfl]
  have hshift : digits * 10 ^ k ≠ 0 := by positivity
  have hratio : ofRatio negative (scaledRatio 10 (digits * 10 ^ k) (power - k)).1
      (scaledRatio 10 (digits * 10 ^ k) (power - k)).2 =
      ofRatio negative (scaledRatio 10 digits power).1 (scaledRatio 10 digits power).2 := by
    have hpos := scaledRatio_pos (b := 10) (by decide) (digits * 10 ^ k) (power - k)
    have hpos' := scaledRatio_pos (b := 10) (by decide) digits power
    refine ofRatio_congr hpos hpos' ?_ negative
    have hvalue : ((scaledRatio 10 (digits * 10 ^ k) (power - k)).1 : ℚ) /
        (scaledRatio 10 (digits * 10 ^ k) (power - k)).2 =
        (scaledRatio 10 digits power).1 / (scaledRatio 10 digits power).2 := by
      rw [scaledRatio_eq, scaledRatio_eq]
      exact value_shift digits k power
    rw [div_eq_div_iff (by exact_mod_cast hpos.ne') (by exact_mod_cast hpos'.ne')] at hvalue
    exact_mod_cast hvalue
  have hmagnitude : power - k + (digitCount (digits * 10 ^ k) : ℤ) = power + digitCount digits := by
    rw [digitCount_mul_pow (Nat.pos_of_ne_zero hd)]
    push_cast
    omega
  rw [ofDecimal_eq hshift, ofDecimal_eq hd, hmagnitude, hratio]

/-- The magnitude of a decimal is the number of its digits before the point. -/
theorem decimal_bounds {digits : ℕ} (hd : 0 < digits) (power : ℤ) :
    (10 : ℚ) ^ (power + digitCount digits - 1) ≤ digits * 10 ^ power ∧
      (digits : ℚ) * 10 ^ power < 10 ^ (power + digitCount digits) := by
  have hcount := digitCount_pos digits
  have hlow : (10 : ℚ) ^ (digitCount digits - 1) ≤ digits := by
    exact_mod_cast pow_le_of_digitCount hd
  have hhigh : (digits : ℚ) < 10 ^ digitCount digits := by exact_mod_cast lt_pow_digitCount digits
  rw [show power + digitCount digits - 1 = (digitCount digits - 1 : ℕ) + power by omega,
    show power + digitCount digits = digitCount digits + power by omega,
    zpow_add₀ (by norm_num), zpow_add₀ (by norm_num), zpow_natCast, zpow_natCast]
  exact ⟨by gcongr, by gcongr⟩

section
variable {negative : Bool} {m digits : ℕ} {e power : ℤ}

theorem Normal.le_power (h : (finite negative m e).Normal) :
    (m : ℚ) * 2 ^ e ≤ 2 ^ (1024 : ℤ) := by
  obtain ⟨hlt, -, hmax, -⟩ := h
  have hbits : (m : ℚ) ≤ 2 ^ (53 : ℤ) := by exact_mod_cast hlt.le
  rw [maxExponent] at hmax
  calc (m : ℚ) * 2 ^ e ≤ 2 ^ (53 : ℤ) * 2 ^ e := by gcongr
    _ = 2 ^ (53 + e) := (zpow_add₀ (by norm_num) _ _).symm
    _ ≤ 2 ^ (1024 : ℤ) := zpow_le_zpow_right₀ (by norm_num) (by omega)

theorem Normal.power_le (h : (finite negative m e).Normal) :
    (2 : ℚ) ^ (-1074 : ℤ) ≤ 2 ^ e :=
  zpow_le_zpow_right₀ (by norm_num) h.2.1

/-- No double is as large as the decimals that are read as infinite. -/
theorem Normal.magnitude_le (h : (finite negative m e).Normal) (hd : 0 < digits)
    (hle : (digits : ℚ) * 10 ^ power ≤ m * 2 ^ e) : power + digitCount digits ≤ 310 := by
  by_contra hlarge
  have hmagnitude : (10 : ℚ) ^ (310 : ℤ) ≤ 10 ^ (power + digitCount digits - 1) :=
    zpow_le_zpow_right₀ (by norm_num) (by omega)
  have hfar : (2 : ℚ) ^ (1024 : ℤ) < 10 ^ (310 : ℤ) := by
    have hpowers : 2 ^ 1024 < 10 ^ 310 := by decide +kernel
    exact_mod_cast zpow_lt_zpow hpowers
  have hlow := (decimal_bounds hd power).1
  exact absurd (hmagnitude.trans (hlow.trans (hle.trans h.le_power))) (not_le.2 hfar)

/-- No double but zero is as small as the decimals that are read as zero. -/
theorem Normal.le_magnitude (h : (finite negative m e).Normal) (hd : 0 < digits)
    (hhalf : (2 : ℚ) ^ e / 2 ≤ digits * 10 ^ power) : -330 ≤ power + digitCount digits := by
  by_contra hsmall
  have hmagnitude : (10 : ℚ) ^ (power + digitCount digits) ≤ 10 ^ (-330 : ℤ) :=
    zpow_le_zpow_right₀ (by norm_num) (by omega)
  have hfar : (10 : ℚ) ^ (-330 : ℤ) < 2 ^ (-1075 : ℤ) := by
    rw [zpow_neg, zpow_neg, inv_lt_inv₀ (by positivity) (by positivity)]
    have hpowers : 2 ^ 1075 < 10 ^ 330 := by decide +kernel
    exact_mod_cast zpow_lt_zpow hpowers
  have hleast : (2 : ℚ) ^ (-1075 : ℤ) = 2 ^ (-1074 : ℤ) / 2 := zpow_sub_one₀ (by norm_num) (-1074)
  have hhigh := (decimal_bounds hd power).2.trans (hmagnitude.trans_lt hfar)
  have hpower := h.power_le
  rw [hleast] at hhigh
  linarith

/-- A double is what decimals just below it are read as: none of them is decided by its magnitude
alone. -/
theorem ofDecimal_of_near (h : (finite negative m e).Normal) (hm : 0 < m)
    (hle : (digits : ℚ) * 10 ^ power ≤ m * 2 ^ e)
    (hnear : (m : ℚ) * 2 ^ e < digits * 10 ^ power + 2 ^ e / 4) :
    ofDecimal negative digits power = .finite negative m e := by
  have hpow : (0 : ℚ) < 2 ^ e := by positivity
  have hone := unit_le hm e
  have hd : digits ≠ 0 := by
    rintro rfl
    simp only [Nat.cast_zero, zero_mul] at hnear
    linarith
  have hupper := h.magnitude_le (Nat.pos_of_ne_zero hd) hle
  have hhalf : (2 : ℚ) ^ e / 2 ≤ digits * 10 ^ power := by linarith
  have hlower := h.le_magnitude (Nat.pos_of_ne_zero hd) hhalf
  rw [ofDecimal_eq hd, if_neg (not_lt.2 hupper), if_neg (not_lt.2 hlower)]
  refine ofRatio_of_near h hm (scaledRatio_pos (by decide) digits power) ?_ ?_
  · rwa [scaledRatio_eq]
  · rwa [scaledRatio_eq]

end

end Pipewright.Binary64
