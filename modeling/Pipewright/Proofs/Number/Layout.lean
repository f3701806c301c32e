import Pipewright.Number.Layout
import Pipewright.Proofs.Number.Rounding
import Pipewright.Proofs.Text.Numerals

/-! The texts of decimals without exponent: digits with a point among them, or digits alone. -/
namespace Pipewright.DecimalLayout
open Binary64 Text

variable {x : Decimal.Scaled}

/-- Digits before and behind a point that stand for a decimal. -/
structure Pointed (x : Decimal.Scaled) (w f : List Char) : Prop where
  front : w ≠ []
  back : f ≠ []
  digits : ∀ c ∈ w ++ f, isDigit c = true
  stands : ∃ k : ℕ, number? 10 (w ++ f) = some (x.digits * 10 ^ k) ∧
    x.power - k = -(f.length : ℤ)

theorem isDigit_digitsOf (n : ℕ) : ∀ c ∈ digitsOf n, isDigit c = true :=
  fun _ hc => isDigit_of_mem_toDigits hc

theorem isDigit_zeros (k : ℕ) : ∀ c ∈ List.replicate k '0', isDigit c = true := fun c hc => by
  rw [List.eq_of_mem_replicate hc]
  rfl

/-- Behind the digits of a whole number. -/
theorem pointed_whole (hpower : 0 ≤ x.power) :
    Pointed x (digitsOf x.digits ++ List.replicate x.power.toNat '0') ['0'] := by
  have hshift : digitsOf x.digits ++ List.replicate x.power.toNat '0' ++ ['0'] =
      digitsOf x.digits ++ List.replicate (x.power.toNat + 1) '0' := by
    rw [List.append_assoc, ← List.replicate_succ']
  refine ⟨by simp [digitsOf], by simp, ?_, x.power.toNat + 1, ?_, ?_⟩
  · rw [hshift]
    exact List.forall_mem_append.2 ⟨isDigit_digitsOf _, isDigit_zeros _⟩
  · rw [hshift]
    exact number?_shifted _ _
  · rw [List.length_singleton]
    push_cast
    omega

/-- Among the digits. -/
theorem pointed_among {places : ℕ} (hpower : x.power = -(places : ℤ)) (hpos : 0 < places)
    (hlt : places < (digitsOf x.digits).length) :
    Pointed x ((digitsOf x.digits).take ((digitsOf x.digits).length - places))
      ((digitsOf x.digits).drop ((digitsOf x.digits).length - places)) := by
  refine ⟨?_, ?_, ?_, 0, ?_, ?_⟩
  · refine List.ne_nil_of_length_pos ?_
    rw [List.length_take]
    omega
  · refine List.ne_nil_of_length_pos ?_
    rw [List.length_drop]
    omega
  · rw [List.take_append_drop]
    exact isDigit_digitsOf _
  · rw [List.take_append_drop, pow_zero, mul_one]
    exact number?_toDigits _
  · rw [List.length_drop]
    omega

/-- Before zeros in front of the digits. -/
theorem pointed_before {places : ℕ} (hpower : x.power = -(places : ℤ))
    (hle : (digitsOf x.digits).length ≤ places) :
    Pointed x ['0']
      (List.replicate (places - (digitsOf x.digits).length) '0' ++ digitsOf x.digits) := by
  have hshift : ['0'] ++ (List.replicate (places - (digitsOf x.digits).length) '0' ++
      digitsOf x.digits) =
      List.replicate (places - (digitsOf x.digits).length + 1) '0' ++ digitsOf x.digits := by
    rw [List.replicate_succ]
    rfl
  refine ⟨by simp, by simp [digitsOf], ?_, 0, ?_, ?_⟩
  · rw [hshift]
    exact List.forall_mem_append.2 ⟨isDigit_zeros _, isDigit_digitsOf _⟩
  · rw [hshift, pow_zero, mul_one]
    exact number?_padded _ _
  · rw [List.length_append, List.length_replicate]
    omega

/-- A decimal is written with a point, unless it is a whole number of more than sixteen digits. -/
theorem plain_point (h : 0 ≤ x.power → x.power + digitCount x.digits ≤ 16) :
    ∃ w f : List Char, plain.magnitudeText x = w ++ '.' :: f ∧ Pointed x w f := by
  change ∃ w f, plain.positionalText (digitsOf x.digits) x.power = w ++ '.' :: f ∧ Pointed x w f
  rw [positionalText]
  split
  · rename_i hpower
    have hcount : x.power + ((digitsOf x.digits).length : ℤ) ≤ 16 := h hpower
    have hmark : plain.marksWhole (x.power + (digitsOf x.digits).length - 1) = true :=
      decide_eq_true (by omega)
    rw [if_pos hmark]
    exact ⟨_, _, rfl, pointed_whole hpower⟩
  · rename_i hpower
    dsimp only
    split
    · rename_i hlt
      exact ⟨_, _, rfl, pointed_among (by omega) (by omega) hlt⟩
    · rename_i hle
      exact ⟨_, _, rfl, pointed_before (by omega) (not_lt.1 hle)⟩

theorem plain_whole (hpower : 0 ≤ x.power) (h : 16 < x.power + digitCount x.digits) :
    plain.magnitudeText x = Nat.toDigits 10 x.digits ++ List.replicate x.power.toNat '0' := by
  have hcount : 16 < x.power + ((digitsOf x.digits).length : ℤ) := h
  have hmark : ¬plain.marksWhole (x.power + (digitsOf x.digits).length - 1) = true := fun hm => by
    have := of_decide_eq_true hm
    omega
  change plain.positionalText (digitsOf x.digits) x.power = _
  rw [positionalText, if_pos hpower, if_neg hmark, List.append_nil]
  rfl

end Pipewright.DecimalLayout
