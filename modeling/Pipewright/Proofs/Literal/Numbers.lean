import Pipewright.Proofs.Literal.RoundTrip
import Pipewright.Proofs.Number.Layout
import Pipewright.Proofs.Number.Shortest

/-! The numbers of scripts: which of them are read back from their written form, and as what the
others are read. -/
namespace Pipewright.Literal
open Text Source Binary64

/-! Numbers with a sign -/

/-- The sign of a number as it is written. -/
def signText (negative : Bool) : List Char := if negative then ['-'] else []

/-- Texts of digits, with or without a point, that are one token. -/
structure Unsigned (kind : TokenKind) (w : List Char) : Prop where
  number : kind = .whole ∨ kind = .decimal
  digit : ∃ c cs, w = c :: cs ∧ isDigit c = true
  shown : ∀ c ∈ w, isBlank c = false
  token : ∀ gap, lexFrom gap w = ([⟨gap, kind, w⟩], [])

section
variable {kind : TokenKind} {w : List Char}

/-- The value of a token that is a number. -/
def tokenValue? (kind : TokenKind) (w : List Char) : Option Literal :=
  if kind = .whole then wholeValue? w else decimalValue? w

def signTokens (negative : Bool) (kind : TokenKind) (w : List Char) : List Token :=
  (if negative then [mark [] '-'] else []) ++ [⟨[], kind, w⟩]

theorem Unsigned.lex_signed (h : Unsigned kind w) (negative : Bool) :
    lex (signText negative ++ w) = signTokens negative kind w := by
  cases negative with
  | false => exact congrArg Prod.fst (h.token [])
  | true =>
    obtain ⟨c, cs, rfl, hc⟩ := h.digit
    have hne := of_isDigit (p := fun c => c ≠ '=' ∧ c ≠ '>') hc (by decide)
    have hsign : lexFrom [] ('-' :: c :: cs) = _ := lexFrom_sign (by decide) (by simpa using hne) []
    rw [h.token []] at hsign
    exact congrArg Prod.fst hsign

theorem readValue_token (h : kind = .whole ∨ kind = .decimal) (n : ℕ) :
    readValue (n + 1) [⟨[], kind, w⟩] = (tokenValue? kind w).map (·, []) := by
  rcases h with rfl | rfl <;> rfl

theorem tokenValue?_some {v : Literal} (h : tokenValue? kind w = some v) :
    signed? false v = some v := by
  rw [tokenValue?] at h
  split at h
  · obtain ⟨n, -, hv⟩ := Option.bind_eq_some_iff.1 h
    split at hv
    · cases hv
      rfl
    · cases hv
  · obtain ⟨x, -, rfl⟩ := Option.map_eq_some_iff.1 h
    rfl

theorem ofTokens?_signTokens (h : kind = .whole ∨ kind = .decimal) (negative : Bool) :
    ofTokens? (signTokens negative kind w) = (tokenValue? kind w).bind (signed? negative) := by
  have hfilter : (signTokens negative kind w).filter
      (fun t => t.kind ≠ .comment && t.kind ≠ .newline) = signTokens negative kind w := by
    rcases h with rfl | rfl <;> cases negative <;> rfl
  have hjoint : skipJoints [⟨[], kind, w⟩] = [⟨[], kind, w⟩] := by
    rcases h with rfl | rfl <;> rfl
  have hread : readValue (2 * (signTokens negative kind w).length + 2)
      (signTokens negative kind w) =
        ((tokenValue? kind w).bind (signed? negative)).map (·, []) := by
    cases negative with
    | false =>
      refine (readValue_token h 3).trans ?_
      cases hv : tokenValue? kind w with
      | none => rfl
      | some v => rw [Option.bind_some, tokenValue?_some hv]
    | true =>
      have htoken : readValue 5 (skipJoints [⟨[], kind, w⟩]) =
          (tokenValue? kind w).map (·, []) := by
        rw [hjoint]
        exact readValue_token h 4
      change readValue 6 (mark [] '-' :: [⟨[], kind, w⟩]) = _
      rw [readValue]
      cases hv : tokenValue? kind w with
      | none => simp [htoken, hv]
      | some v => simp [htoken, hv]
  rw [ofTokens?, hfilter, hread]
  cases (tokenValue? kind w).bind (signed? negative) <;> rfl

/-- Reading of a number with its sign. -/
theorem Unsigned.read_signed (h : Unsigned kind w) (negative : Bool) :
    read (String.ofList (signText negative ++ w)) =
      ((tokenValue? kind w).bind (signed? negative)).getD
        (.expr (String.ofList (signText negative ++ w))) := by
  have htrim : trim (signText negative ++ w) = signText negative ++ w := by
    refine trim_of_all (List.forall_mem_append.2 ⟨?_, h.shown⟩)
    cases negative <;> simp [signText, isBlank]
  have hmark : kind ≠ .mark ∧ kind ≠ .comment ∧ kind ≠ .newline := by
    rcases h.number with rfl | rfl <;> decide
  have hread := read_of_lex htrim (h.lex_signed negative) ?_ ?_ ?_
  · rw [hread, ofTokens?_signTokens h.number]
  · cases negative <;> simp [signTokens, isSpacer, hmark]
  · cases negative <;> simp [signTokens, dropEnd, Token.isMark, hmark]
  · cases negative <;> simp [signTokens, signText, exprText, spell, Token.spelling, mark]

/-! Whole numbers and decimals -/

theorem unsigned_numeral {n : ℕ} (h : Numeral w n) : Unsigned .whole w := by
  obtain ⟨⟨c, cs, hc, hw⟩, hchars⟩ := numeral_chars h
  refine ⟨.inl rfl, ⟨c, cs, hw, hc⟩, fun d hd => isBlank_of_isWordChar (hchars d hd), fun gap => ?_⟩
  have hlex := lexFrom_numeral h parted_nil gap
  rwa [List.append_nil, lexFrom_nil] at hlex

/-- A whole number is an integer, if its digits alone fit. -/
theorem read_numeral {n : ℕ} (h : Numeral w n) (negative : Bool) :
    read (String.ofList (signText negative ++ w)) =
      if n < Nat.pow 2 63 then .int (if negative then -n else n)
      else .expr (String.ofList (signText negative ++ w)) := by
  rw [(unsigned_numeral h).read_signed, tokenValue?, if_pos rfl, wholeValue?_numeral h]
  split <;> rfl

section
variable {x : Decimal.Scaled} {f : List Char}

theorem unsigned_pointed (h : DecimalLayout.Pointed x w f) : Unsigned .decimal (w ++ '.' :: f) := by
  obtain ⟨hw, hf⟩ := List.forall_mem_append.1 h.digits
  have hblank : ∀ c, isDigit c = true → isBlank c = false := fun c hc =>
    of_isDigit (p := fun c => isBlank c = false) hc (by decide)
  obtain ⟨c, cs, hc⟩ := List.exists_cons_of_ne_nil h.front
  refine ⟨.inr rfl, ⟨c, cs ++ '.' :: f, by rw [hc]; rfl, hw c (hc ▸ List.mem_cons_self)⟩,
    List.forall_mem_append.2 ⟨fun d hd => hblank d (hw d hd),
      List.forall_mem_cons.2 ⟨by decide, fun d hd => hblank d (hf d hd)⟩⟩, fun gap => ?_⟩
  have hlex := lexFrom_point (grouped_of_digits h.front hw) (grouped_of_digits h.back hf)
    parted_nil gap
  rwa [List.append_nil, lexFrom_nil] at hlex

/-- A number with a point is read as the double of its decimal. -/
theorem decimalValue?_pointed (h : DecimalLayout.Pointed x w f) :
    decimalValue? (w ++ '.' :: f) = some (.float (ofDecimal false x.digits x.power)) := by
  obtain ⟨hw, hf⟩ := List.forall_mem_append.1 h.digits
  obtain ⟨k, hnumber, hpower⟩ := h.stands
  have hunder : ∀ c, isDigit c = true → c ≠ '_' := fun c hc =>
    of_isDigit (p := fun c => c ≠ '_') hc (by decide)
  have hfilter : (w ++ '.' :: f).filter (· ≠ '_') = w ++ '.' :: f := by
    refine List.filter_eq_self.2 (List.forall_mem_append.2 ⟨fun c hc => ?_,
      List.forall_mem_cons.2 ⟨by decide, fun c hc => ?_⟩⟩)
    · exact decide_eq_true (hunder c (hw c hc))
    · exact decide_eq_true (hunder c (hf c hc))
  have hpoint : ∀ c ∈ ('.' :: f).head?, isDigit c = false := by simp [isDigit]
  rw [decimalValue?, hfilter, readMagnitude?]
  simp only [takeWhile_append hw hpoint, dropWhile_append hw hpoint,
    List.takeWhile_eq_self_iff.2 hf, List.dropWhile_eq_nil_iff.2 hf, hnumber, Option.map_some]
  rw [zero_sub, ← hpower, ofDecimal_shift]

end

end

/-! Numbers -/

/-- The numbers a script can hold: integers of 64 bits and finite doubles. -/
inductive Number : Literal → Prop where
  | int {i : ℤ} (h : fitsInt64 i = true) : Number (.int i)
  | float {negative : Bool} {m : ℕ} {e : ℤ} (h : (Binary64.finite negative m e).Normal) :
      Number (.float (.finite negative m e))

/-- Numbers whose kind and value stay in a script: integers whose digits fit without the sign, and
doubles that are written with a point. -/
def Kept : Literal → Prop
  | .int i => i ≠ -(2 ^ 63)
  | .float (.finite _ m e) => (m : ℚ) * 2 ^ e < 10 ^ 16
  | _ => True

/-- The number that the digits of a whole decimal make. -/
def wholeOf (x : Decimal.Scaled) : ℕ := x.digits * 10 ^ x.power.toNat

/-- What a number is read as in a script that does not keep it. -/
def altered : Literal → Literal
  | .float (.finite negative m e) =>
    if wholeOf (Decimal.shortest m e) < 2 ^ 63 then
      .int (if negative then -wholeOf (Decimal.shortest m e) else wholeOf (Decimal.shortest m e))
    else .expr (Literal.float (.finite negative m e)).script
  | v => .expr v.script

theorem toString_int (i : ℤ) :
    (toString i).toList = signText (decide (i < 0)) ++ Nat.toDigits 10 i.natAbs := by
  cases i with
  | ofNat n => exact toString_ofNat n
  | negSucc n =>
    rw [toString_negSucc, decide_eq_true (Int.negSucc_lt_zero n)]
    rfl

theorem read_int {i : ℤ} (h : fitsInt64 i = true) :
    read (Literal.int i).script =
      if i = -(2 ^ 63) then .expr (Literal.int i).script else .int i := by
  have hpow : Nat.pow 2 63 = 9223372036854775808 := rfl
  have habs : (if decide (i < 0) = true then -(i.natAbs : ℤ) else i.natAbs) = i := by
    by_cases hi : i < 0
    · rw [if_pos (decide_eq_true hi)]
      omega
    · rw [if_neg (by simpa using hi)]
      omega
  rw [script, chars, toString_int, read_numeral (numeral_toDigits _), habs]
  have hiff : i.natAbs < Nat.pow 2 63 ↔ i ≠ -(2 ^ 63) := by
    simp only [fitsInt64, hpow] at h ⊢
    split at h <;> simp only [decide_eq_true_eq] at h <;> omega
  by_cases hi : i = -(2 ^ 63)
  · rw [if_pos hi, if_neg (fun hlt => hiff.1 hlt hi)]
  · rw [if_neg hi, if_pos (hiff.2 hi)]

section
variable {negative : Bool} {m : ℕ} {e : ℤ}

theorem script_float (negative : Bool) (m : ℕ) (e : ℤ) :
    (Literal.float (.finite negative m e)).script =
      String.ofList (signText negative ++
        DecimalLayout.plain.magnitudeText (Decimal.shortest m e)) := by
  have hfinite : DecimalLayout.plain.finiteText negative m e =
      String.ofList (signText negative ++
        DecimalLayout.plain.magnitudeText (Decimal.shortest m e)) := by
    rw [DecimalLayout.finiteText, signText]
  have hchars : chars (.float (.finite negative m e)) =
      (DecimalLayout.plain.finiteText negative m e).toList := rfl
  rw [← hfinite, script, hchars, String.ofList_toList]

/-- A double below `10 ^ 16` is written with a point. -/
theorem read_small (h : (finite negative m e).Normal) (hsmall : (m : ℚ) * 2 ^ e < 10 ^ 16) :
    read (Literal.float (.finite negative m e)).script = .float (.finite negative m e) := by
  have hnormal : (finite false m e).Normal := h
  have hlayout : 0 ≤ (Decimal.shortest m e).power →
      (Decimal.shortest m e).power + digitCount (Decimal.shortest m e).digits ≤ 16 := by
    intro _
    obtain rfl | hm := Nat.eq_zero_or_pos m
    · have hzero : Decimal.shortest 0 e = ⟨0, 0⟩ := if_pos rfl
      rw [hzero]
      decide
    · have hlow := (decimal_bounds (Decimal.digits_pos hnormal hm) (Decimal.shortest m e).power).1
      have hlt := hlow.trans_lt (Decimal.shortest_below hnormal hm hsmall)
      have hexp := (zpow_lt_zpow_iff_right₀ (a := (10 : ℚ)) (n := 16) (by norm_num)).1 hlt
      omega
  obtain ⟨w, f, htext, hpoint⟩ := DecimalLayout.plain_point hlayout
  rw [script_float, htext, (unsigned_pointed hpoint).read_signed, tokenValue?,
    if_neg (by decide), decimalValue?_pointed hpoint, Decimal.shortest_readsBack hnormal]
  cases negative <;> rfl

/-- From `10 ^ 16` on a double is written as a whole number. -/
theorem read_large (h : (finite negative m e).Normal) (hlarge : (10 : ℚ) ^ 16 ≤ m * 2 ^ e) :
    read (Literal.float (.finite negative m e)).script =
      altered (.float (.finite negative m e)) := by
  have hnormal : (finite false m e).Normal := h
  have hm : 0 < m := by
    refine Nat.pos_of_ne_zero ?_
    rintro rfl
    norm_num at hlarge
  have hpos := Decimal.digits_pos hnormal hm
  obtain ⟨hpower, hcount⟩ := Decimal.shortest_long hnormal hm hlarge
  have hnumeral : Numeral (Nat.toDigits 10 (Decimal.shortest m e).digits ++
      List.replicate (Decimal.shortest m e).power.toNat '0') (wholeOf (Decimal.shortest m e)) := by
    refine .decimal (grouped_of_digits (by simp) (List.forall_mem_append.2
      ⟨DecimalLayout.isDigit_digitsOf _, DecimalLayout.isDigit_zeros _⟩)) (fun hzero => ?_)
      (number?_shifted _ _)
    rw [List.head?_append_of_ne_nil _ Nat.toDigits_ne_nil] at hzero
    exact absurd (eq_zero_of_head?_toDigits hzero) hpos.ne'
  rw [script_float, DecimalLayout.plain_whole hpower hcount, read_numeral hnumeral, altered,
    script_float, DecimalLayout.plain_whole hpower hcount]
  rfl

end

/-- A number is read back from a script just if it is kept there; it is never lost otherwise than
as `altered` says. -/
theorem Number.read_number {v : Literal} (h : Number v) :
    (read v.script = v ↔ Kept v) ∧ (¬Kept v → read v.script = altered v) := by
  cases h with
  | @int i h =>
    rw [read_int h, show altered (.int i) = .expr (Literal.int i).script from rfl]
    by_cases hi : i = -(2 ^ 63)
    · rw [if_pos hi]
      exact ⟨iff_of_false (fun he => nomatch he) (not_not.2 hi), fun _ => rfl⟩
    · rw [if_neg hi]
      exact ⟨iff_of_true rfl hi, fun hnot => absurd hi hnot⟩
  | @float negative m e h =>
    by_cases hsmall : (m : ℚ) * 2 ^ e < 10 ^ 16
    · rw [read_small h hsmall]
      exact ⟨iff_of_true rfl hsmall, fun hnot => absurd hsmall hnot⟩
    · have hread := read_large h (not_lt.1 hsmall)
      refine ⟨iff_of_false ?_ hsmall, fun _ => hread⟩
      rw [hread, altered]
      split <;> simp

/-- The least integer and the least double that are not kept. -/
theorem read_number_boundaries :
    (Number (.int (-(2 ^ 63))) ∧ read (Literal.int (-(2 ^ 63))).script =
      .expr (Literal.int (-(2 ^ 63))).script) ∧
    Number (.float (.finite false 5000000000000000 1)) ∧
      read (Literal.float (.finite false 5000000000000000 1)).script = .int 10000000000000000 := by
  have hint : Number (.int (-(2 ^ 63))) := .int (by decide)
  have hfloat : Number (.float (.finite false 5000000000000000 1)) :=
    .float ⟨by decide, by decide, by decide, .inl (by decide)⟩
  have hdigits : Decimal.shortest 5000000000000000 1 = ⟨1, 16⟩ := by decide
  have hlarge : ¬Kept (.float (.finite false 5000000000000000 1)) := by
    refine not_lt.2 ?_
    norm_num
  refine ⟨⟨hint, hint.read_number.2 (not_not.2 rfl)⟩, hfloat, ?_⟩
  rw [hfloat.read_number.2 hlarge, altered, hdigits]
  rfl

end Pipewright.Literal
