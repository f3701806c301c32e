import Mathlib.Data.Nat.Digits.Defs
import Pipewright.Proofs.Literal.Reading
import Pipewright.Proofs.Literal.Whole
import Pipewright.Proofs.Source.Taken

/-! Whole numbers behind chains of signs: they are read exactly, and no sign leads out of 64
bits. -/
namespace Pipewright.Literal
open Text Source

/-! The number that digits make -/

/-- The number of digits in a base by their places; the last one counts once. -/
def placed (base : ℕ) (ds : List Char) : ℕ :=
  Nat.ofDigits base (ds.reverse.map fun d => (digitValue? d).getD 0)

theorem placed_cons (base : ℕ) (c : Char) (ds : List Char) :
    placed base (c :: ds) = placed base ds + base ^ ds.length * (digitValue? c).getD 0 := by
  simp [placed, Nat.ofDigits_append]

theorem numberFrom?_placed {base : ℕ} {ds : List Char} (h : ∀ d ∈ ds, isDigitOf base d = true)
    (n : ℕ) : numberFrom? base n ds = some (placed base ds + base ^ ds.length * n) := by
  induction ds generalizing n with
  | nil => simp [numberFrom?, placed]
  | cons c ds ih =>
    obtain ⟨hc, hds⟩ := List.forall_mem_cons.1 h
    obtain ⟨v, hv, hlt⟩ := (Option.any_eq_true _ _).1 hc
    rw [numberFrom?, hv]
    simp only [of_decide_eq_true hlt, if_true, ih hds, placed_cons, hv, Option.getD_some,
      List.length_cons]
    rw [Option.some.injEq]
    ring

theorem number?_placed {base : ℕ} {ds : List Char} (hne : ds ≠ [])
    (h : ∀ d ∈ ds, isDigitOf base d = true) : number? base ds = some (placed base ds) := by
  rw [number?, if_neg (by simpa using hne), numberFrom?_placed h, Nat.mul_zero, Nat.add_zero]

/-- The digits of a whole number in a base, and how they are written. -/
inductive Spelled : (base : ℕ) → (ds written : List Char) → Prop where
  | decimal {ds w : List Char} (h : Grouped isDigit w ds)
      (hzero : ds.head? = some '0' → ∀ d ∈ ds, d = '0') : Spelled 10 ds w
  | based {m : Char} {base : ℕ} {u ds w : List Char} (hm : (m, base) ∈ bases)
      (hu : u = [] ∨ u = ['_']) (h : Grouped (isDigitOf base) w ds) :
      Spelled base ds ('0' :: m :: (u ++ w))

theorem isDigitOf_ten {c : Char} (h : isDigit c = true) : isDigitOf 10 c = true :=
  of_isDigit (p := fun c => isDigitOf 10 c = true) h (by decide)

theorem Spelled.numeral {base : ℕ} {ds w : List Char} (h : Spelled base ds w) :
    Numeral w (placed base ds) := by
  have hne : ∀ {digit} {w ds : List Char}, Grouped digit w ds → ds ≠ [] := by
    intro digit w ds h
    obtain ⟨c, r, s, -, -, rfl⟩ := h.head
    exact List.cons_ne_nil c s
  cases h with
  | decimal h hzero =>
    exact .decimal h hzero (number?_placed (hne h) fun d hd => isDigitOf_ten (h.digits d hd))
  | based hm hu h => exact .based hm hu h (number?_placed (hne h) h.digits)

/-! Signs -/

/-- What may stand behind a sign: blanks, and ends of lines that a backslash joins. -/
inductive Seam : List Char → Prop where
  | nil : Seam []
  | blank {c : Char} {cs : List Char} (hc : c ∈ [' ', '\t', '\x0c']) (h : Seam cs) : Seam (c :: cs)
  | joint {e cs : List Char} (he : e ∈ lineEnds) (h : Seam cs) : Seam ('\\' :: (e ++ cs))

/-- A sign with what stands behind it. -/
structure Sign where
  negative : Bool
  gap : List Char
  seam : Seam gap

def signChar (negative : Bool) : Char := if negative then '-' else '+'

def Sign.text (s : Sign) : List Char := signChar s.negative :: s.gap

/-- A whole number behind a chain of signs. -/
structure SignedNumeral where
  signs : List Sign
  base : ℕ
  digits : List Char
  written : List Char
  spelled : Spelled base digits written

namespace SignedNumeral

def text (x : SignedNumeral) : List Char := x.signs.flatMap Sign.text ++ x.written

def magnitude (x : SignedNumeral) : ℕ := placed x.base x.digits

/-- The number with its signs: each minus turns it around. -/
def value (x : SignedNumeral) : ℤ := (-1) ^ x.signs.countP Sign.negative * x.magnitude

end SignedNumeral

/-! The tokens of a chain -/

/-- The tokens of a number behind signs, the first of them behind given blank text. -/
inductive SignTokens (w : List Char) : (gap : List Char) → List Bool → List Token → Prop where
  | number (gap : List Char) : SignTokens w gap [] [⟨gap, .whole, w⟩]
  | sign (gap : List Char) {gap' : List Char} {negative : Bool} {signs : List Bool}
      {js ts : List Token} (hj : ∀ j ∈ js, j.kind = .joint) (h : SignTokens w gap' signs ts) :
      SignTokens w gap (negative :: signs) (mark gap (signChar negative) :: (js ++ ts))

section
variable {w gap rest : List Char} {signs : List Bool} {ts : List Token}

theorem Seam.head {cs : List Char} (h : Seam cs) : ∀ c ∈ cs.head?, c ≠ '=' ∧ c ≠ '>' := by
  have hblank : ∀ c ∈ [' ', '\t', '\x0c'], c ≠ '=' ∧ c ≠ '>' := forall_mem_of_all (by decide)
  cases h with
  | nil => simp
  | blank hc => simpa using hblank _ hc
  | joint => simp

/-- A seam is read as joints, and as blank text in front of what follows, which is no string. -/
theorem Seam.lexes {cs : List Char} (h : Seam cs)
    (hrest : ∀ gap, ∀ t ∈ (lexFrom gap rest).1.head?, t.kind ≠ .string) (gap : List Char) :
    ∃ js gap', (∀ j ∈ js, j.kind = .joint) ∧
      lexFrom gap (cs ++ rest) = (js ++ (lexFrom gap' rest).1, (lexFrom gap' rest).2) := by
  induction h generalizing gap with
  | nil => exact ⟨[], gap, by simp, rfl⟩
  | @blank c cs hc _ ih =>
    have hall : ∀ c ∈ [' ', '\t', '\x0c'], isGap c = true := forall_mem_of_all (by decide)
    rw [List.cons_append, lexFrom_gap (hall c hc)]
    exact ih (gap ++ [c])
  | @joint e cs he _ ih =>
    obtain ⟨js, gap', hjs, hlex⟩ := ih []
    have hmunch := munch_of_joint (by simpa [lineEnds] using he) (cs ++ rest)
    have hfirst : ∀ s ∈ (js ++ (lexFrom gap' rest).1).head?, s.kind ≠ .string := by
      cases js with
      | nil => exact hrest gap'
      | cons j js =>
        rintro s ⟨⟩
        simp [hjs j List.mem_cons_self]
    refine ⟨⟨gap, .joint, '\\' :: e⟩ :: js, gap', List.forall_mem_cons.2 ⟨rfl, hjs⟩, ?_⟩
    rw [List.cons_append, List.append_assoc, lexFrom.eq_def]
    simp only [show isGap '\\' = false by decide, hmunch, Bool.false_eq_true, if_false,
      List.drop_left, List.take_left, hlex]
    rw [absorb_eq_cons fun _ => hfirst, List.cons_append]

theorem SignTokens.head (h : SignTokens w gap signs ts) :
    ∃ t r, ts = t :: r ∧ t.gap = gap ∧ (t.kind = .whole ∨ t.kind = .mark) := by
  cases h with
  | number => exact ⟨_, _, rfl, rfl, .inl rfl⟩
  | sign => exact ⟨_, _, rfl, rfl, .inr rfl⟩

theorem SignTokens.not_spacer (h : SignTokens w gap signs ts) :
    ∀ t ∈ ts, t.kind ≠ .comment ∧ t.kind ≠ .newline := by
  induction h with
  | number => simp
  | sign gap hj _ ih =>
    refine List.forall_mem_cons.2 ⟨by simp [mark], List.forall_mem_append.2 ⟨fun j hjm => ?_, ih⟩⟩
    simp [hj j hjm]

theorem SignTokens.last (h : SignTokens w gap signs ts) : ∀ t ∈ ts.getLast?, t.kind = .whole := by
  induction h with
  | number => simp
  | sign gap hj h ih =>
    obtain ⟨t, r, rfl, -⟩ := h.head
    rw [← List.cons_append, List.getLast?_append_of_ne_nil _ (List.cons_ne_nil t r)]
    exact ih

/-- What signs make of a number. -/
def signed (signs : List Bool) (v : Option Literal) : Option Literal :=
  signs.foldr (fun negative v => v.bind (signed? negative)) v

theorem SignTokens.readValue (h : SignTokens w gap signs ts) {n : ℕ} (hn : signs.length < n) :
    readValue n ts = (signed signs (wholeValue? w)).map (·, []) := by
  induction h generalizing n with
  | number =>
    obtain ⟨n, rfl⟩ := Nat.exists_eq_add_one.2 hn
    rfl
  | @sign gap gap' negative signs js ts hj h ih =>
    obtain ⟨n, rfl⟩ := Nat.exists_eq_add_one.2 (Nat.zero_lt_of_lt hn)
    have hskip : skipJoints (js ++ ts) = ts := by
      obtain ⟨t, r, rfl, -, hk⟩ := h.head
      rw [skipJoints, List.dropWhile_append_of_pos fun j hjm => decide_eq_true (hj j hjm),
        List.dropWhile_cons_of_neg]
      rcases hk with hk | hk <;> simp [hk]
    have hread := ih (Nat.lt_of_succ_lt_succ hn)
    have hsigned : signed (negative :: signs) (wholeValue? w) =
        (signed signs (wholeValue? w)).bind (signed? negative) := rfl
    rw [Literal.readValue, hsigned]
    simp only [hskip, hread]
    cases negative <;> cases signed signs (wholeValue? w) <;> simp [mark, signChar, Token.isMark]

theorem length_signs (h : SignTokens w gap signs ts) : signs.length < ts.length := by
  induction h with
  | number => simp
  | sign gap hj _ ih =>
    simp only [List.length_cons, List.length_append]
    omega

theorem SignTokens.ofTokens? (h : SignTokens w gap signs ts) :
    ofTokens? ts = signed signs (wholeValue? w) := by
  have hfilter : ts.filter (fun t => t.kind ≠ .comment && t.kind ≠ .newline) = ts :=
    List.filter_eq_self.2 fun t ht => by simp [h.not_spacer t ht]
  have hlength := length_signs h
  rw [Literal.ofTokens?, hfilter, h.readValue (by omega)]
  cases signed signs (wholeValue? w) <;> rfl

end

theorem signed_none (signs : List Bool) : signed signs Option.none = Option.none := by
  induction signs with
  | nil => rfl
  | cons negative signs ih => exact congrArg (Option.bind · (signed? negative)) ih

theorem signed_int (signs : List Bool) (i : ℤ) :
    signed signs (some (.int i)) = some (.int ((-1) ^ signs.countP id * i)) := by
  induction signs with
  | nil => simp [signed]
  | cons negative signs ih =>
    have hstep : signed (negative :: signs) (some (.int i)) =
        (signed signs (some (.int i))).bind (signed? negative) := rfl
    rw [hstep, ih, Option.bind_some]
    cases negative <;> simp [signed?, pow_succ]

/-! Reading -/

/-- An integer that is read can be negated within 64 bits, whatever the text and the tokens. -/
theorem fits_of_readValue {n : ℕ} {ts r : List Token} {i : ℤ}
    (h : readValue n ts = some (.int i, r)) : fitsInt64 i = true ∧ fitsInt64 (-i) = true := by
  cases (readsInts n).value h with
  | int h => exact ⟨h.1, h.neg.1⟩

namespace SignedNumeral
variable (x : SignedNumeral)

theorem front_of_signs (signs : List Sign) {w : List Char} {n : ℕ} (h : Numeral w n) :
    ∃ c r, isFront c = true ∧ signs.flatMap Sign.text ++ w = c :: r := by
  cases signs with
  | nil =>
    obtain ⟨⟨c, r, hc, rfl⟩, -⟩ := numeral_chars h
    exact ⟨c, r, of_isDigit (p := fun d => isFront d = true) hc (by decide), rfl⟩
  | cons s signs =>
    refine ⟨signChar s.negative, _, ?_, rfl⟩
    cases s.negative <;> decide

theorem lexFrom_signs (signs : List Sign) {w : List Char} {n : ℕ} (h : Numeral w n)
    (gap : List Char) : ∃ ts, SignTokens w gap (signs.map Sign.negative) ts ∧
      lexFrom gap (signs.flatMap Sign.text ++ w) = (ts, []) := by
  induction signs generalizing gap with
  | nil =>
    have hlex := lexFrom_numeral h parted_nil gap
    rw [List.append_nil, lexFrom_nil] at hlex
    exact ⟨_, .number gap, hlex⟩
  | cons s signs ih =>
    have hhead := head_ne s.seam.head (front_of_signs signs h) []
    rw [List.append_nil] at hhead
    have hrest : ∀ gap, ∀ t ∈ (lexFrom gap (signs.flatMap Sign.text ++ w)).1.head?,
        t.kind ≠ .string := by
      intro gap t ht
      obtain ⟨ts, hts, hlex⟩ := ih gap
      obtain ⟨u, r, rfl, -, hk⟩ := hts.head
      obtain rfl : u = t := by simpa [hlex] using ht
      rcases hk with hk | hk <;> simp [hk]
    obtain ⟨js, gap', hjs, hseam⟩ := s.seam.lexes hrest []
    obtain ⟨ts, hts, hlex⟩ := ih gap'
    have hsign : signChar s.negative ∈ [':', '-', '+'] := by cases s.negative <;> decide
    refine ⟨_, .sign gap hjs hts, ?_⟩
    rw [List.flatMap_cons, Sign.text, List.cons_append, List.cons_append, List.append_assoc,
      lexFrom_sign hsign hhead, hseam, hlex]
    rfl

theorem exists_tokens : ∃ ts, SignTokens x.written [] (x.signs.map Sign.negative) ts ∧
    lex x.text = ts ∧ exprText ts = x.text := by
  obtain ⟨ts, hts, hlex⟩ := lexFrom_signs x.signs x.spelled.numeral []
  have hspell := spell_lexFrom [] x.text
  rw [text, hlex, List.append_nil, List.nil_append] at hspell
  refine ⟨ts, hts, congrArg Prod.fst hlex, ?_⟩
  obtain ⟨t, r, rfl, hgap, -⟩ := hts.head
  rw [text, ← hspell]
  simp [exprText, spell, Token.spelling, hgap]

theorem trim_text : trim x.text = x.text := by
  obtain ⟨c, r, hc, hfront⟩ := front_of_signs x.signs x.spelled.numeral
  obtain ⟨⟨d, s, -, hwritten⟩, hchars⟩ := numeral_chars x.spelled.numeral
  simp only [isFront, Bool.and_eq_true, Bool.not_eq_true'] at hc
  refine trim_eq_self ?_ fun e he => ?_
  · rw [text, hfront]
    simpa using hc.1.1
  · rw [text, List.getLast?_append_of_ne_nil _ (by simp [hwritten])] at he
    exact isBlank_of_isWordChar (hchars e (List.mem_of_getLast? he))

theorem read_spelled : read (String.ofList x.text) =
    if x.magnitude < Nat.pow 2 63 then .int x.value else .expr (String.ofList x.text) := by
  obtain ⟨ts, hts, hlex, htext⟩ := x.exists_tokens
  have hspacers : ∀ t ∈ ts, isSpacer t = false := fun t ht => by
    simp [isSpacer, hts.not_spacer t ht]
  have hend : ∀ m ∈ [";", ","], dropEnd m ts = ts := fun m _ =>
    dropEnd_of_last fun t ht => by simp [Token.isMark, hts.last t ht]
  rw [read_of_lex x.trim_text hlex hspacers hend htext, hts.ofTokens?,
    wholeValue?_numeral x.spelled.numeral, ← magnitude]
  split
  · rw [signed_int, List.countP_map]
    rfl
  · rw [signed_none]
    rfl

/-- A whole number with signs is read as its value if its digits fit without a sign, and otherwise
kept as it is written; nothing that is negated on the way leaves 64 bits. -/
theorem read_exact {front back : List Char} (hf : allBlank front = true)
    (hb : allBlank back = true) :
    read (String.ofList (front ++ (x.text ++ back))) =
      (if x.magnitude ≤ 2 ^ 63 - 1 then .int x.value else .expr (String.ofList x.text)) ∧
    ∀ n ts i r, readValue n ts = some (.int i, r) →
      fitsInt64 i = true ∧ fitsInt64 (-i) = true := by
  refine ⟨?_, fun n ts i r => fits_of_readValue⟩
  have htrim : trim (front ++ (x.text ++ back)) = trim x.text :=
    trim_between (List.all_eq_true.1 hf) (List.all_eq_true.1 hb) x.text
  have hread : read (String.ofList (front ++ (x.text ++ back))) = read (String.ofList x.text) := by
    simp only [read, String.toList_ofList, htrim]
  have hiff : x.magnitude < Nat.pow 2 63 ↔ x.magnitude ≤ 2 ^ 63 - 1 := by
    change x.magnitude < 9223372036854775808 ↔ x.magnitude ≤ 9223372036854775807
    omega
  rw [hread, x.read_spelled]
  simp only [hiff]

/-- The greatest integer in hexadecimal digits behind four signs, two of them on other lines. -/
def manySigned : SignedNumeral where
  signs := [⟨true, [' '], .blank (by decide) .nil⟩,
    ⟨false, "\\\n\t".toList, @Seam.joint ['\n'] ['\t'] (by decide) (.blank (by decide) .nil)⟩,
    ⟨true, "\\\r\n".toList, @Seam.joint ['\r', '\n'] [] (by decide) .nil⟩, ⟨true, [], .nil⟩]
  base := 16
  digits := "7fffFFFFffffFFFF".toList
  written := "0X_7fffFFFFffffFFFF".toList
  spelled := @Spelled.based 'X' 16 ['_'] "7fffFFFFffffFFFF".toList "7fffFFFFffffFFFF".toList
    (by decide) (.inr rfl) (grouped_of_digits (by decide) (forall_mem_of_all (by decide)))

/-- The least integer of 64 bits. -/
def leastSigned : SignedNumeral where
  signs := [⟨true, [], .nil⟩]
  base := 10
  digits := "9223372036854775808".toList
  written := "9223372036854775808".toList
  spelled := .decimal (grouped_of_digits (by decide) (forall_mem_of_all (by decide))) (by decide)

theorem read_exact_manySigned :
    (allBlank [' '] = true ∧ allBlank ['\n'] = true ∧
      read (String.ofList ([' '] ++ (manySigned.text ++ ['\n']))) = .int (-9223372036854775807)) ∧
    read (String.ofList ([' '] ++ (leastSigned.text ++ ['\n']))) =
      .expr "-9223372036854775808" := by
  have hblank : allBlank [' '] = true ∧ allBlank ['\n'] = true := by decide
  have hmany := (manySigned.read_exact hblank.1 hblank.2).1
  have hleast := (leastSigned.read_exact hblank.1 hblank.2).1
  rw [if_pos (by decide)] at hmany
  rw [if_neg (by decide)] at hleast
  exact ⟨⟨hblank.1, hblank.2, hmany⟩, hleast⟩

end SignedNumeral
end Pipewright.Literal
