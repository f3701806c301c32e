import Mathlib.Data.List.TakeWhile
import Mathlib.Tactic.TypeStar
import Pipewright.Text.Digits

/-! Whole numbers in decimal digits: the digits of a number are read back as the number. -/
namespace Pipewright.Text

theorem isDigit_iff {c : Char} : isDigit c = true ↔ 48 ≤ c.toNat ∧ c.toNat ≤ 57 := by
  simp only [isDigit, Bool.and_eq_true, decide_eq_true_eq]
  rfl

/-- What is decided for each of given characters holds of all of them. -/
theorem forall_mem_of_all {p : Char → Prop} [DecidablePred p] {cs : List Char}
    (h : cs.all (fun c => decide (p c)) = true) : ∀ c ∈ cs, p c :=
  fun c hc => of_decide_eq_true (List.all_eq_true.1 h c hc)

/-- What holds of each of the ten digits holds of a digit. -/
theorem of_isDigit {p : Char → Prop} [DecidablePred p] {c : Char} (hc : isDigit c = true)
    (h : ['0', '1', '2', '3', '4', '5', '6', '7', '8', '9'].all (fun d => decide (p d)) = true) :
    p c := by
  refine forall_mem_of_all h c ?_
  have hn := isDigit_iff.1 hc
  simp only [List.mem_cons, List.not_mem_nil, or_false, ← Char.toNat_inj, Char.reduceToNat]
  omega

theorem digitValue?_digit {c : Char} (h : isDigit c = true) :
    digitValue? c = some (c.toNat - 48) := by
  simp [digitValue?, h]

theorem numberFrom?_digits {cs : List Char} (h : ∀ c ∈ cs, isDigit c = true) (n : Nat) :
    numberFrom? 10 n cs = some (Nat.ofDigitChars 10 cs n) := by
  induction cs generalizing n with
  | nil => rfl
  | cons c cs ih =>
    obtain ⟨hc, hcs⟩ := List.forall_mem_cons.1 h
    have hlt : c.toNat - 48 < 10 := by
      have := isDigit_iff.1 hc
      omega
    rw [numberFrom?, digitValue?_digit hc]
    simp only [hlt, if_true, ih hcs]
    rfl

theorem isDigit_of_digitValue? {c : Char} {d : Nat} (h : digitValue? c = some d) (hd : d < 10) :
    isDigit c = true := by
  have hletter : ∀ {a b : Char}, (a ≤ c && c ≤ b) = true → a.toNat ≤ c.toNat := by
    intro a b hc
    exact of_decide_eq_true (Bool.and_eq_true_iff.1 hc).1
  rw [digitValue?] at h
  split at h
  · assumption
  · split at h
    · rename_i hc
      have ha : 97 ≤ c.toNat := hletter hc
      cases h
      omega
    · split at h
      · rename_i hc
        have ha : 65 ≤ c.toNat := hletter hc
        cases h
        omega
      · cases h

/-- What is a number starts with a digit. -/
theorem exists_of_number? {cs : List Char} {n : Nat} (h : number? 10 cs = some n) :
    ∃ c r, cs = c :: r ∧ isDigit c = true := by
  cases cs with
  | nil => cases h
  | cons c r =>
    refine ⟨c, r, rfl, ?_⟩
    rw [number?, if_neg (by simp), numberFrom?] at h
    split at h
    · rename_i d hd
      split at h
      · exact isDigit_of_digitValue? hd ‹_›
      · cases h
    · cases h

/-! The digits of a number -/

theorem isDigit_of_mem_toDigits {n : Nat} {c : Char} (h : c ∈ Nat.toDigits 10 n) :
    isDigit c = true := by
  have hc := Nat.isDigit_of_mem_toDigits (by decide) (by decide) h
  simpa [Char.isDigit, isDigit, Char.le_def] using hc

theorem number?_toDigits (n : Nat) : number? 10 (Nat.toDigits 10 n) = some n := by
  rw [number?, if_neg (by simp),
    numberFrom?_digits fun _ h => isDigit_of_mem_toDigits h, Nat.ofDigitChars_ten_toDigits]

theorem exists_toDigits (n : Nat) : ∃ c cs, Nat.toDigits 10 n = c :: cs ∧ isDigit c = true ∧
    ∀ d ∈ cs, isDigit d = true := by
  cases h : Nat.toDigits 10 n with
  | nil => exact absurd h Nat.toDigits_ne_nil
  | cons c cs =>
    have hall : ∀ d ∈ c :: cs, isDigit d = true := fun d hd =>
      isDigit_of_mem_toDigits (n := n) (h ▸ hd)
    exact ⟨c, cs, rfl, List.forall_mem_cons.1 hall⟩

theorem numberFrom?_append (base n : Nat) (cs ds : List Char) :
    numberFrom? base n (cs ++ ds) =
      (numberFrom? base n cs).bind fun k => numberFrom? base k ds := by
  induction cs generalizing n with
  | nil => rfl
  | cons c cs ih =>
    simp only [List.cons_append, numberFrom?]
    split
    · split
      · exact ih _
      · rfl
    · rfl

theorem numberFrom?_zeros (n k : Nat) :
    numberFrom? 10 n (List.replicate k '0') = some (n * Nat.pow 10 k) := by
  induction k generalizing n with
  | zero => exact congrArg some (Nat.mul_one n).symm
  | succ k ih =>
    have hzero : digitValue? '0' = some 0 := rfl
    have hpow : 10 * n * Nat.pow 10 k = n * Nat.pow 10 (k + 1) := by
      have hnext : Nat.pow 10 (k + 1) = 10 * Nat.pow 10 k := Nat.pow_succ'
      rw [hnext, Nat.mul_comm 10 n, Nat.mul_assoc]
    rw [List.replicate_succ, numberFrom?, hzero]
    simp only [Nat.zero_lt_succ, if_true, Nat.add_zero, ih, hpow]

/-- Zeros behind the digits of a number. -/
theorem number?_shifted (n k : Nat) :
    number? 10 (Nat.toDigits 10 n ++ List.replicate k '0') = some (n * Nat.pow 10 k) := by
  have hdigits := number?_toDigits n
  rw [number?, if_neg (by simp)] at hdigits ⊢
  rw [numberFrom?_append, hdigits, Option.bind_some, numberFrom?_zeros]

/-- Zeros in front of the digits of a number. -/
theorem number?_padded (n k : Nat) :
    number? 10 (List.replicate k '0' ++ Nat.toDigits 10 n) = some n := by
  have hdigits := number?_toDigits n
  rw [number?, if_neg (by simp)] at hdigits ⊢
  rw [numberFrom?_append, numberFrom?_zeros, Nat.zero_mul, Option.bind_some, hdigits]

/-- Only zero starts with the digit zero. -/
theorem eq_zero_of_head?_toDigits {n : Nat} (h : (Nat.toDigits 10 n).head? = some '0') :
    n = 0 := by
  induction n using Nat.strong_induction_on with
  | _ n ih =>
    by_cases hn : n < 10
    · rw [Nat.toDigits_of_lt_base hn] at h
      have hd : Nat.digitChar n = '0' := by simpa using h
      have hv := Nat.toNat_digitChar_of_lt_ten hn
      rw [hd] at hv
      change 48 = 48 + n at hv
      omega
    · obtain ⟨c, cs, hc, -⟩ := exists_toDigits (n / 10)
      rw [Nat.toDigits_of_base_le (by decide) (Nat.le_of_not_lt hn), hc] at h
      have hz := ih (n / 10) (by omega) (hc ▸ h)
      omega

/-! Numbers with groups and in other bases -/

/-- Digits that single underscores part into groups, and the digits alone. -/
inductive Grouped (digit : Char → Bool) : List Char → List Char → Prop where
  | last {c : Char} (hc : digit c = true) : Grouped digit [c] [c]
  | next {c : Char} {w ds : List Char} (hc : digit c = true) (h : Grouped digit w ds) :
      Grouped digit (c :: w) (c :: ds)
  | group {c : Char} {w ds : List Char} (hc : digit c = true) (h : Grouped digit w ds) :
      Grouped digit (c :: '_' :: w) (c :: ds)

def isDigitOf (base : Nat) (c : Char) : Bool := (digitValue? c).any fun d => d < base

/-- The marks of bases. -/
def bases : List (Char × Nat) := [('x', 16), ('X', 16), ('o', 8), ('O', 8), ('b', 2), ('B', 2)]

/-- Whole numbers as they are written: in decimal digits, without zeros in front unless there are
no other digits, or in a base that is named in front. -/
inductive Numeral : List Char → Nat → Prop where
  | decimal {w ds : List Char} {n : Nat} (h : Grouped isDigit w ds)
      (hzero : ds.head? = some '0' → ∀ d ∈ ds, d = '0') (hn : number? 10 ds = some n) :
      Numeral w n
  | based {m : Char} {base : Nat} {u w ds : List Char} {n : Nat} (hm : (m, base) ∈ bases)
      (hu : u = [] ∨ u = ['_']) (h : Grouped (isDigitOf base) w ds)
      (hn : number? base ds = some n) : Numeral ('0' :: m :: (u ++ w)) n

section
variable {digit : Char → Bool} {w ds : List Char}

theorem Grouped.digits (h : Grouped digit w ds) : ∀ c ∈ ds, digit c = true := by
  induction h with
  | last hc => exact List.forall_mem_singleton.2 hc
  | next hc _ ih => exact List.forall_mem_cons.2 ⟨hc, ih⟩
  | group hc _ ih => exact List.forall_mem_cons.2 ⟨hc, ih⟩

theorem Grouped.chars (h : Grouped digit w ds) : ∀ c ∈ w, digit c = true ∨ c = '_' := by
  induction h with
  | last hc => exact List.forall_mem_singleton.2 (.inl hc)
  | next hc _ ih => exact List.forall_mem_cons.2 ⟨.inl hc, ih⟩
  | group hc _ ih => exact List.forall_mem_cons.2 ⟨.inl hc, List.forall_mem_cons.2 ⟨.inr rfl, ih⟩⟩

theorem Grouped.mono {p q : Char → Bool} (hpq : ∀ c, p c = true → q c = true) {w ds : List Char}
    (h : Grouped p w ds) : Grouped q w ds := by
  induction h with
  | last hc => exact .last (hpq _ hc)
  | next hc _ ih => exact .next (hpq _ hc) ih
  | group hc _ ih => exact .group (hpq _ hc) ih

theorem Grouped.head (h : Grouped digit w ds) :
    ∃ c r s, digit c = true ∧ w = c :: r ∧ ds = c :: s := by
  cases h with
  | last hc => exact ⟨_, _, _, hc, rfl, rfl⟩
  | next hc _ => exact ⟨_, _, _, hc, rfl, rfl⟩
  | group hc _ => exact ⟨_, _, _, hc, rfl, rfl⟩

theorem Grouped.filter (hdigit : digit '_' = false) (h : Grouped digit w ds) :
    w.filter (fun c => c ≠ '_') = ds := by
  have hne : ∀ {c}, digit c = true → c ≠ '_' := by
    rintro c hc rfl
    rw [hdigit] at hc
    cases hc
  induction h with
  | last hc => simp [hne hc]
  | next hc _ ih => simpa [hne hc] using ih
  | group hc _ ih => simpa [hne hc] using ih

theorem grouped_of_digits (hne : ds ≠ []) (h : ∀ c ∈ ds, digit c = true) :
    Grouped digit ds ds := by
  induction ds with
  | nil => exact absurd rfl hne
  | cons c ds ih =>
    obtain ⟨hc, hds⟩ := List.forall_mem_cons.1 h
    cases ds with
    | nil => exact .last hc
    | cons d ds => exact .next hc (ih (List.cons_ne_nil d ds) hds)

end

theorem numeral_toDigits (n : Nat) : Numeral (Nat.toDigits 10 n) n := by
  refine .decimal (grouped_of_digits Nat.toDigits_ne_nil fun c hc => isDigit_of_mem_toDigits hc)
    (fun hzero => ?_) (number?_toDigits n)
  rw [eq_zero_of_head?_toDigits hzero]
  exact forall_mem_of_all (by decide)

theorem isDigitOf_underscore (base : Nat) : isDigitOf base '_' = false := rfl

theorem isHexDigit_of_isDigitOf {base : Nat} {c : Char} (h : isDigitOf base c = true) :
    isHexDigit c = true := by
  rw [isDigitOf] at h
  cases hv : digitValue? c with
  | none => simp [hv] at h
  | some d => rw [isHexDigit, hv]; rfl

/-- What holds of each digit up to sixteen holds of a digit. -/
theorem of_isHexDigit {p : Char → Prop} [DecidablePred p] {c : Char} (hc : isHexDigit c = true)
    (h : ['0', '1', '2', '3', '4', '5', '6', '7', '8', '9', 'a', 'b', 'c', 'd', 'e', 'f', 'A', 'B',
      'C', 'D', 'E', 'F'].all (fun d => decide (p d)) = true) : p c := by
  have hletter : ∀ a b : Char, (decide (a ≤ c) && decide (c ≤ b)) = true →
      a.toNat ≤ c.toNat ∧ c.toNat ≤ b.toNat := fun a b hd => by
    simp only [Bool.and_eq_true, decide_eq_true_eq] at hd
    exact hd
  have hcases : (48 ≤ c.toNat ∧ c.toNat ≤ 57) ∨ (97 ≤ c.toNat ∧ c.toNat ≤ 102) ∨
      65 ≤ c.toNat ∧ c.toNat ≤ 70 := by
    simp only [isHexDigit, digitValue?] at hc
    split at hc
    · rename_i hd
      exact .inl (isDigit_iff.1 hd)
    · split at hc
      · rename_i hd
        exact .inr (.inl (hletter 'a' 'f' hd))
      · split at hc
        · rename_i hd
          exact .inr (.inr (hletter 'A' 'F' hd))
        · cases hc
  refine forall_mem_of_all h c ?_
  simp only [List.mem_cons, List.not_mem_nil, or_false, ← Char.toNat_inj, Char.reduceToNat]
  omega

/-! Digits before a rest that does not go on with digits -/

theorem dropWhile_of_head {α : Type*} {p : α → Bool} {as : List α}
    (h : ∀ a ∈ as.head?, p a = false) : as.dropWhile p = as := by
  cases as with
  | nil => rfl
  | cons a as => rw [List.dropWhile_cons_of_neg (by simp [h a rfl])]

/-- What stands before a text that does not go on in the same way is all of it that does. -/
theorem takeWhile_append {p : Char → Bool} {cs rest : List Char} (h : ∀ c ∈ cs, p c = true)
    (hr : ∀ c ∈ rest.head?, p c = false) : (cs ++ rest).takeWhile p = cs := by
  rw [List.takeWhile_append_of_pos h]
  cases rest with
  | nil => simp
  | cons c rest => simp [hr c rfl]

theorem dropWhile_append {p : Char → Bool} {cs rest : List Char} (h : ∀ c ∈ cs, p c = true)
    (hr : ∀ c ∈ rest.head?, p c = false) : (cs ++ rest).dropWhile p = rest := by
  rw [List.dropWhile_append_of_pos h]
  cases rest with
  | nil => rfl
  | cons c rest => simp [hr c rfl]

end Pipewright.Text

namespace Pipewright

theorem toString_ofNat (n : Nat) : (toString (Int.ofNat n)).toList = Nat.toDigits 10 n := by
  change (toString n).toList = _
  rw [Nat.toString_eq_ofList_toDigits, String.toList_ofList]

theorem toString_negSucc (n : Nat) :
    (toString (Int.negSucc n)).toList = '-' :: Nat.toDigits 10 (n + 1) := by
  change ("-" ++ toString (n + 1)).toList = _
  rw [String.toList_append, Nat.toString_eq_ofList_toDigits]
  simp

/-- An integer is written with digits and a sign. -/
theorem forall_mem_toString_int {p : Char → Prop} [DecidablePred p] (hsign : p '-')
    (hdigit : ['0', '1', '2', '3', '4', '5', '6', '7', '8', '9'].all (fun d => decide (p d)) = true)
    (i : Int) : ∀ c ∈ (toString i).toList, p c := by
  have hdigits : ∀ n, ∀ c ∈ Nat.toDigits 10 n, p c := fun n c hc =>
    Text.of_isDigit (Text.isDigit_of_mem_toDigits hc) hdigit
  cases i with
  | ofNat n => exact toString_ofNat n ▸ hdigits n
  | negSucc n => exact toString_negSucc n ▸ List.forall_mem_cons.2 ⟨hsign, hdigits (n + 1)⟩

end Pipewright
