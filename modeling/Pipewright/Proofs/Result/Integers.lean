import Pipewright.Proofs.Literal.Numbers
import Pipewright.Proofs.Number.Whole
import Pipewright.Proofs.Result.Shown

/-! Integers in results. They are shown with their own digits below `2 ^ 63`; from there on a result
holds the nearest double, and the digits shown are those of its shortest decimal. -/
namespace Pipewright

/-! Places in JSON values -/

namespace Json

/-- A place within a JSON value: what stands around it. -/
inductive Context where
  | here
  | item (before : List Json) (c : Context) (after : List Json)
  | member (before : List (String × Json)) (name : String) (c : Context)
      (after : List (String × Json))

namespace Context

/-- The value with a part at the place. -/
def fill : Context → Json → Json
  | here, p => p
  | item before c after, p => .arr (before ++ c.fill p :: after)
  | member before name c after, p => .obj (before ++ (name, c.fill p) :: after)

/-- The place is not within a table or a figure. -/
def Open : Context → Prop
  | here => True
  | item _ c _ => c.Open
  | member before name c after =>
    (before = [] → after = [] → name ≠ "__table__" ∧ name ≠ "__plot__") ∧ c.Open

/-- The same place in the result that is read. -/
def Leads : Context → Result.Context → Prop
  | here, .here => True
  | item before c _, .item items d _ => before.length = items.length ∧ c.Leads d
  | member before name c _, .value es key d _ =>
    before.map Prod.fst = es.map Prod.fst ∧ name = key ∧ c.Leads d
  | _, _ => False

end Context
end Json

namespace Result
variable {v : Result} {j : Json}

theorem itemsOfJson_split {js ks : List Json} {items : List Result}
    (h : itemsOfJson (js ++ j :: ks) = .ok items) : ∃ before w after,
      items = before ++ w :: after ∧ js.length = before.length ∧ ofJson j = .ok w := by
  induction js generalizing items with
  | nil =>
    obtain ⟨w, hw, h⟩ := bind_ok h
    obtain ⟨after, -, h⟩ := bind_ok h
    cases h
    exact ⟨[], w, after, rfl, rfl, hw⟩
  | cons i js ih =>
    obtain ⟨u, -, h⟩ := bind_ok h
    obtain ⟨us, hus, h⟩ := bind_ok h
    cases h
    obtain ⟨before, w, after, rfl, hlength, hw⟩ := ih hus
    exact ⟨u :: before, w, after, rfl, congrArg (· + 1) hlength, hw⟩

theorem entriesOfJson_split {ms ns : List (String × Json)} {name : String}
    {es : List (String × Result)} (h : entriesOfJson (ms ++ (name, j) :: ns) = .ok es) :
    ∃ before w after, es = before ++ (name, w) :: after ∧
      ms.map Prod.fst = before.map Prod.fst ∧ ofJson j = .ok w := by
  induction ms generalizing es with
  | nil =>
    obtain ⟨w, hw, h⟩ := bind_ok h
    obtain ⟨after, -, h⟩ := bind_ok h
    cases h
    exact ⟨[], w, after, rfl, rfl, hw⟩
  | cons m ms ih =>
    obtain ⟨k, i⟩ := m
    obtain ⟨u, -, h⟩ := bind_ok h
    obtain ⟨us, hus, h⟩ := bind_ok h
    cases h
    obtain ⟨before, w, after, rfl, hnames, hw⟩ := ih hus
    exact ⟨(k, u) :: before, w, after, rfl, congrArg (k :: ·) hnames, hw⟩

/-- An object that is neither a table nor a figure is a mapping. -/
theorem ofJson_obj {ms : List (String × Json)}
    (hms : ∀ m, ms = [m] → m.1 ≠ "__table__" ∧ m.1 ≠ "__plot__")
    (h : ofJson (.obj ms) = .ok v) : ∃ es, v = .mapping es ∧ entriesOfJson ms = .ok es := by
  unfold ofJson at h
  split at h
  · rename_i name w
    obtain ⟨htable, hplot⟩ := hms _ rfl
    rw [if_neg htable, if_neg hplot] at h
    obtain ⟨u, hu, h⟩ := bind_ok h
    cases h
    refine ⟨_, rfl, ?_⟩
    rw [entriesOfJson, hu]
    rfl
  · obtain ⟨es, hes, h⟩ := bind_ok h
    cases h
    exact ⟨es, rfl, hes⟩

/-- What is read at a place outside of tables and figures stands at the same place of the result. -/
theorem ofJson_fill {c : Json.Context} (hc : c.Open) (h : ofJson (c.fill j) = .ok v) :
    ∃ d w, c.Leads d ∧ v = d.fill w ∧ ofJson j = .ok w := by
  induction c generalizing v with
  | here => exact ⟨.here, v, trivial, rfl, h⟩
  | item before c after ih =>
    obtain ⟨items, hitems, h⟩ := bind_ok h
    cases h
    obtain ⟨front, u, back, rfl, hlength, hu⟩ := itemsOfJson_split hitems
    obtain ⟨d, w, hleads, rfl, hw⟩ := ih hc hu
    exact ⟨.item front d back, w, ⟨hlength, hleads⟩, rfl, hw⟩
  | member before name c after ih =>
    obtain ⟨hname, hinner⟩ := hc
    have hms : ∀ m, before ++ (name, c.fill j) :: after = [m] →
        m.1 ≠ "__table__" ∧ m.1 ≠ "__plot__" := by
      intro m hm
      obtain ⟨rfl, hm⟩ | ⟨-, hm⟩ := List.append_eq_singleton_iff.1 hm
      · obtain ⟨rfl, rfl⟩ := List.cons.inj hm
        exact hname rfl rfl
      · cases hm
    obtain ⟨es, rfl, hes⟩ := ofJson_obj hms h
    obtain ⟨front, u, back, rfl, hnames, hu⟩ := entriesOfJson_split hes
    obtain ⟨d, w, hleads, rfl, hw⟩ := ih hinner hu
    exact ⟨.value front name d back, w, ⟨hnames, rfl, hleads⟩, rfl, hw⟩

/-! The digits of an integer -/

section
variable {n : ℤ}

/-- The integer whose digits are shown for an integer. -/
def shownAs (n : ℤ) : ℤ :=
  match number n with
  | .float (.finite _ m e) => Literal.wholeOf (Decimal.shortest m e)
  | _ => n

theorem number_of_lt (hlow : -(2 ^ 63) ≤ n) (h : n < 2 ^ 63) : number n = .int n := by
  have hfits : fitsInt64 n = true := by
    have hpow : Nat.pow 2 63 = 9223372036854775808 := rfl
    rw [fitsInt64]
    split <;> rw [decide_eq_true_eq, hpow] <;> omega
  rw [number, if_pos hfits]

theorem shownAs_of_lt (hlow : -(2 ^ 63) ≤ n) (h : n < 2 ^ 63) : shownAs n = n := by
  rw [shownAs, number_of_lt hlow h]

theorem number_of_le {m : ℕ} (h : 2 ^ 63 ≤ m) : number m = .float (Binary64.ofRatio false m 1) := by
  have hfits : ¬fitsInt64 (m : ℤ) = true := by
    have hpow : Nat.pow 2 63 = 9223372036854775808 := rfl
    rw [fitsInt64, if_neg (by omega), decide_eq_true_eq, hpow]
    omega
  have hpos : decide ((m : ℤ) < 0) = false := decide_eq_false (by omega)
  rw [number, if_neg hfits, hpos, Int.natAbs_natCast]

/-- The digits of a double without a fraction are those of a whole number. -/
theorem floatText_whole {m : ℕ} {e : ℤ} (hnormal : (Binary64.finite false m e).Normal) (hm : 0 < m)
    (hlarge : (10 : ℚ) ^ 16 ≤ m * 2 ^ e) : Scalar.floatText (.finite false m e) =
      toString (Literal.wholeOf (Decimal.shortest m e)) := by
  obtain ⟨hpower, hcount⟩ := Decimal.shortest_long hnormal hm hlarge
  rw [Scalar.floatText, DecimalLayout.finiteText, DecimalLayout.plain_whole hpower hcount,
    ← Text.toDigits_mul_pow (Decimal.digits_pos hnormal hm)]
  rfl

/-- A double is the nearest to the whole number that it is shown as. -/
theorem ofRatio_wholeOf {m : ℕ} {e : ℤ} (hnormal : (Binary64.finite false m e).Normal)
    (hm : 0 < m) (hpower : 0 ≤ (Decimal.shortest m e).power) :
    Binary64.ofRatio false (Literal.wholeOf (Decimal.shortest m e)) 1 = .finite false m e := by
  have hback := Decimal.shortest_readsBack hnormal
  rw [Binary64.ofDecimal_eq (Decimal.digits_pos hnormal hm).ne'] at hback
  split at hback
  · cases hback
  · split at hback
    · rw [Binary64.zero, Binary64.finite.injEq] at hback
      exact absurd hback.2.1 hm.ne
    · rwa [Binary64.scaledRatio, if_pos hpower] at hback

/-- From `2 ^ 63` on an integer is shown as one with the same double. -/
theorem number_large {n : ℕ} (hlow : 2 ^ 63 ≤ n) (hhigh : n < 2 ^ 64) :
    (number n).text = toString (shownAs n) ∧ 100 ∣ shownAs n ∧
      Binary64.ofRatio false (shownAs n).toNat 1 = Binary64.ofRatio false n 1 := by
  obtain ⟨m, e, hdouble, hnormal, he, hlarge, hsmall⟩ := Binary64.ofRatio_whole hlow hhigh
  have hm : 0 < m := by
    refine Nat.pos_of_ne_zero ?_
    rintro rfl
    norm_num at hlarge
  have hnumber : number n = .float (.finite false m e) := by rw [number_of_le hlow, hdouble]
  have hshown : shownAs n = Literal.wholeOf (Decimal.shortest m e) := by rw [shownAs, hnumber]
  have hrounded := Decimal.shortest_rounded hnormal hm he hlarge hsmall
  rw [hshown, hnumber]
  refine ⟨floatText_whole hnormal hm hlarge, ?_, ?_⟩
  · have hdvd : 10 ^ 2 ∣ Literal.wholeOf (Decimal.shortest m e) :=
      Dvd.dvd.mul_left (pow_dvd_pow 10 (by omega)) _
    exact_mod_cast hdvd
  · rw [Int.toNat_natCast, hdouble, ofRatio_wholeOf hnormal hm (by omega)]

theorem text_number (hlow : -(2 ^ 63) ≤ n) (hhigh : n < 2 ^ 64) :
    (number n).text = toString (shownAs n) := by
  by_cases h : n < 2 ^ 63
  · rw [shownAs_of_lt hlow h, number_of_lt hlow h]
    rfl
  · obtain ⟨m, rfl⟩ := Int.eq_ofNat_of_zero_le (a := n) (by omega)
    exact (number_large (by omega) (by omega)).1

/-- An integer makes the same text as the one that it is shown as. -/
theorem interchangeable_number (hlow : -(2 ^ 63) ≤ n) (hhigh : n < 2 ^ 64) :
    Interchangeable (.scalar (number n)) (.scalar (.int (shownAs n))) := by
  have htext := text_number hlow hhigh
  have hkind : (∃ i, number n = .int i) ∨ ∃ x, number n = .float x := by
    rw [number]
    split
    · exact .inl ⟨n, rfl⟩
    · exact .inr ⟨_, rfl⟩
  have hsame : Alike (.scalar (number n)) (.scalar (.int (shownAs n))) :=
    ⟨rfl, rfl, rfl, htext, congrArg (fun s => [s]) htext, rfl, fun _ => rfl⟩
  obtain ⟨i, hi⟩ | ⟨x, hx⟩ := hkind
  · rw [hi] at htext hsame ⊢
    exact ⟨hsame, htext, htext⟩
  · rw [hx] at htext hsame ⊢
    exact ⟨hsame, htext, htext⟩

theorem render_number_iff (hlow : -(2 ^ 63) ≤ n) (hhigh : n < 2 ^ 64) (d : Context) (s : String) :
    (d.fill (.scalar (number n))).render = .ok s ↔
      (d.fill (.scalar (.int (shownAs n)))).render = .ok s := by
  have hnumber := interchangeable_number hlow hhigh
  cases d with
  | here =>
    change Except.ok ((number n).text ++ "\n") = _ ↔ Except.ok (toString (shownAs n) ++ "\n") = _
    rw [text_number hlow hhigh]
  | item before d after =>
    exact ⟨hnumber.render Context.noConfusion, hnumber.symm.render Context.noConfusion⟩
  | value before key d after =>
    exact ⟨hnumber.render Context.noConfusion, hnumber.symm.render Context.noConfusion⟩

theorem tells_number (hlow : -(2 ^ 63) ≤ n) (hhigh : n < 2 ^ 64) :
    Tells (.scalar (number n)) (toString (shownAs n)) := by
  rw [← text_number hlow hhigh]
  refine .scalar ?_
  rw [number]
  split <;> exact Scalar.noConfusion

/-- An integer of 64 bits, with or without a sign, is shown in every place as one and the same
integer: as itself below `2 ^ 63`, and from there on as one whose two last digits are zeros and which
has the same double. It is shown wherever anything is. -/
theorem integer_shown (hlow : -(2 ^ 63) ≤ n) (hhigh : n < 2 ^ 64) :
    (n < 2 ^ 63 → shownAs n = n) ∧
    (2 ^ 63 ≤ n → 100 ∣ shownAs n ∧
      Binary64.ofRatio false (shownAs n).toNat 1 = Binary64.ofRatio false n.toNat 1) ∧
    (∀ (c : Json.Context) v, c.Open → ofJson (c.fill (.int n)) = .ok v →
      ∃ d, c.Leads d ∧ v = d.fill (.scalar (number n)) ∧
        (v.text = (d.fill (.scalar (.int (shownAs n)))).text ∧
          OccursIn (toString (shownAs n)) v.text) ∧
        (∀ s, v.render = .ok s ↔ (d.fill (.scalar (.int (shownAs n)))).render = .ok s) ∧
        ∀ s, v.Decoded → v.render = .ok s → ¬d.Passed (.scalar (number n)) →
          OccursIn (toString (shownAs n)) s) ∧
    ∀ (t : Table) (i : ℕ) row (c : Json.Context) v, t.data[i]? = some row → c.fill (.int n) ∈ row →
      c.Open → ofJson (c.fill (.int n)) = .ok v → OccursIn (toString (shownAs n)) t.text := by
  have htells := tells_number hlow hhigh
  refine ⟨shownAs_of_lt hlow, fun hlarge => ?_, fun c v hc hv => ?_,
    fun t i row c v hrow hcell hc hv => ?_⟩
  · obtain ⟨m, rfl⟩ := Int.eq_ofNat_of_zero_le (a := n) (by omega)
    rw [Int.toNat_natCast]
    exact (number_large (by omega) (by omega)).2
  · obtain ⟨d, w, hleads, rfl, hw⟩ := ofJson_fill hc hv
    cases hw
    refine ⟨d, hleads, rfl, ⟨((interchangeable_number hlow hhigh).fill d).text, htells.text d⟩,
      render_number_iff hlow hhigh d, fun s hd hs hpassed => htells.render hd hpassed hs⟩
  · obtain ⟨d, w, -, rfl, hw⟩ := ofJson_fill hc hv
    cases hw
    have hcelltext : Table.cellText (c.fill (.int n)) = (d.fill (.scalar (number n))).text := by
      rw [Table.cellText]
      · rw [hv]
      · intro hnull
        cases c <;> cases hnull
    have hshown := (t.occursIn_text.2 i row hrow).2 _ hcell
    rw [hcelltext] at hshown
    exact (htells.text d).trans hshown

/-- One more than `2 ^ 63`. -/
theorem shownAs_above : shownAs 9223372036854775809 = 9223372036854776000 := by
  have hdouble : Binary64.ofRatio false 9223372036854775809 1 =
      .finite false 4503599627370496 11 := by decide
  have hnumber : number 9223372036854775809 = .float (.finite false 4503599627370496 11) :=
    (number_of_le (m := 9223372036854775809) (by decide)).trans (congrArg Scalar.float hdouble)
  have hdecimal : Decimal.shortest 4503599627370496 11 = ⟨9223372036854776, 3⟩ := by
    decide
  rw [shownAs, hnumber]
  dsimp only
  rw [hdecimal]
  rfl

theorem integer_shown_above : -(2 ^ 63) ≤ (9223372036854775809 : ℤ) ∧
    (9223372036854775809 : ℤ) < 2 ^ 64 ∧ 100 ∣ shownAs 9223372036854775809 ∧
    ∃ v, ofJson (.arr [.int 9223372036854775809]) = .ok v ∧
      OccursIn "9223372036854776000" v.text := by
  have hlow : -(2 ^ 63) ≤ (9223372036854775809 : ℤ) := by decide
  have hhigh : (9223372036854775809 : ℤ) < 2 ^ 64 := by decide
  obtain ⟨-, hrounded, hplaces, -⟩ := integer_shown hlow hhigh
  have hread : ofJson (.arr [.int 9223372036854775809]) =
      .ok (.sequence [.scalar (number 9223372036854775809)]) := rfl
  obtain ⟨d, -, -, ⟨-, hshown⟩, -⟩ := hplaces (.item [] .here []) _ trivial hread
  rw [shownAs_above] at hshown
  exact ⟨hlow, hhigh, (hrounded (by decide)).1, _, hread, hshown⟩

theorem not_integer_shown : ¬∀ n : ℤ, -(2 ^ 63) ≤ n → n < 2 ^ 64 →
    ∀ v, ofJson (.int n) = .ok v → v.text = toString n := by
  intro h
  have htext := h 9223372036854775809 (by decide) (by decide) _ rfl
  have hshown := text_number (n := 9223372036854775809) (by decide) (by decide)
  rw [shownAs_above] at hshown
  exact absurd (hshown.symm.trans htext) (by decide)

end

end Result
end Pipewright
