import Mathlib.Tactic.SplitIfs
import Pipewright.Proofs.Source.Lexing

/-! How much of the text behind a token the token depends on. -/
namespace Pipewright.Source
open Pipewright.Text

/-- Characters that can make what stands in front of them longer. -/
def isGlue (c : Char) : Bool :=
  isWordChar c || isQuoteMark c || (isMarkChar c && c ≠ '(' && c ≠ ')')

/-- The part of a text that what stands in front of it can depend on. -/
def glue (cs : List Char) : List Char := cs.takeWhile isGlue

section
variable {c : Char} {cs w X Y : List Char}

theorem glue_cons (h : isGlue c = true) (cs : List Char) : glue (c :: cs) = c :: glue cs :=
  List.takeWhile_cons_of_pos h

theorem glue_of_not (h : isGlue c = false) (cs : List Char) : glue (c :: cs) = [] :=
  List.takeWhile_cons_of_neg (by simp [h])

theorem glue_append_congr (h : glue X = glue Y) (w : List Char) :
    glue (w ++ X) = glue (w ++ Y) := by
  induction w with
  | nil => exact h
  | cons c w ih =>
    cases hc : isGlue c with
    | true => rw [List.cons_append, List.cons_append, glue_cons hc, glue_cons hc, ih]
    | false => rw [List.cons_append, List.cons_append, glue_of_not hc, glue_of_not hc]

theorem head?_glue (cs : List Char) : (glue cs).head? = cs.head?.filter isGlue := by
  cases cs with
  | nil => rfl
  | cons c cs =>
    cases hc : isGlue c with
    | true => rw [glue_cons hc, List.head?_cons, List.head?_cons, Option.filter_some, if_pos hc]
    | false => simp [glue_of_not hc, Option.filter_some, hc]

theorem takeWhile_glue {p : Char → Bool} (hp : ∀ c, p c = true → isGlue c = true)
    (cs : List Char) : (glue cs).takeWhile p = cs.takeWhile p := by
  induction cs with
  | nil => rfl
  | cons c cs ih =>
    cases hc : isGlue c with
    | true =>
      rw [glue_cons hc, List.takeWhile_cons, List.takeWhile_cons, ih]
    | false =>
      have hpc : p c = false := Bool.eq_false_iff.2 fun h => by simp [hp c h] at hc
      simp [glue_of_not hc, hpc]

theorem drop_glue {n : Nat} (h : n ≤ (glue cs).length) : (glue cs).drop n = glue (cs.drop n) := by
  induction cs generalizing n with
  | nil => simp [glue]
  | cons c cs ih =>
    cases n with
    | zero => rfl
    | succ n =>
      cases hc : isGlue c with
      | true =>
        rw [glue_cons hc, List.length_cons] at h
        rw [glue_cons hc, List.drop_succ_cons, List.drop_succ_cons, ih (by omega)]
      | false =>
        rw [glue_of_not hc] at h
        simp at h

end

theorem isGlue_of_isWordChar {c : Char} (h : isWordChar c = true) : isGlue c = true := by
  simp [isGlue, h]

theorem isGlue_of_isDigit {c : Char} (h : isDigit c = true) : isGlue c = true :=
  isGlue_of_isWordChar (by simp [isWordChar, h])

theorem isGlue_of_isHexDigit {c : Char} (h : isHexDigit c = true) : isGlue c = true :=
  of_isHexDigit (p := fun c => isGlue c = true) h (by decide)

/-! Numbers -/

theorem digitsLength_le (cs : List Char) : digitsLength cs ≤ cs.length := by
  fun_induction digitsLength cs <;> grind

theorem digitsLength_zero {cs : List Char} (h : ∀ c ∈ cs.head?, isDigit c = false) :
    digitsLength cs = 0 := by
  rw [digitsLength.eq_def]
  split <;> simp_all

theorem head?_glue_subset {cs : List Char} {c : Char} (h : c ∈ (glue cs).head?) : c ∈ cs.head? := by
  rw [head?_glue] at h
  exact (Option.filter_eq_some_iff.1 h).1

theorem digitsLength_glue (cs : List Char) : digitsLength (glue cs) = digitsLength cs := by
  have hzero : ∀ {c : Char} {r : List Char}, ¬isDigit c = true → ∀ d ∈ (glue (c :: r)).head?,
      isDigit d = false := by
    intro c r hc d hd
    obtain rfl : c = d := by simpa using head?_glue_subset hd
    simpa using hc
  fun_induction digitsLength cs with
  | case1 c r hc ih =>
    rw [glue_cons (isGlue_of_isDigit hc), glue_cons (by decide), digitsLength, if_pos hc, ih]
  | case2 c r hc => exact digitsLength_zero (hzero hc)
  | case3 c r h hc ih =>
    have hunder : ∀ d ∈ (glue r).head?, d ≠ '_' := by
      rintro d hd rfl
      obtain ⟨r', rfl⟩ := List.head?_eq_some_iff.1 (head?_glue_subset hd)
      exact h r' rfl
    rw [glue_cons (isGlue_of_isDigit hc), digitsLength_cons hunder, if_pos hc, ih]
  | case4 c r h hc => exact digitsLength_zero (hzero hc)
  | case5 => rfl

theorem basedLength_le (digit : Char → Bool) (cs : List Char) :
    basedLength digit cs ≤ cs.length := by
  fun_induction basedLength digit cs <;> grind

theorem basedLength_zero {digit : Char → Bool} {c : Char} (hc : digit c = false) (hne : c ≠ '_')
    (r : List Char) : basedLength digit (c :: r) = 0 := by
  rw [basedLength.eq_def]
  split <;> simp_all

theorem basedLength_glue {digit : Char → Bool} (hd : ∀ c, digit c = true → isGlue c = true)
    (hunder : digit '_' = false) (cs : List Char) :
    basedLength digit (glue cs) = basedLength digit cs := by
  have hlone : basedLength digit ['_'] = 0 := by simp [basedLength, hunder]
  fun_induction basedLength digit cs with
  | case1 c r hc ih => rw [glue_cons (by decide), glue_cons (hd c hc), basedLength, if_pos hc, ih]
  | case2 c r hc =>
    rw [glue_cons (by decide)]
    cases hg : isGlue c with
    | true => rw [glue_cons hg, basedLength, if_neg hc]
    | false => rw [glue_of_not hg, hlone]
  | case3 c r h hc ih =>
    have hne : c ≠ '_' := by
      rintro rfl
      rw [hunder] at hc
      cases hc
    rw [glue_cons (hd c hc), basedLength.eq_def]
    split <;> simp_all
  | case4 c r h hc =>
    cases hg : isGlue c with
    | false => rw [glue_of_not hg]; rfl
    | true =>
      rw [glue_cons hg]
      by_cases hne : c = '_'
      · subst hne
        cases r with
        | nil => exact hlone
        | cons d r => exact absurd rfl (h d r rfl)
      · exact basedLength_zero (by simpa using hc) hne _
  | case5 => rfl

theorem suffixLength_glue {marks : List Char} (hm : ∀ c ∈ marks, isGlue c = true)
    (cs : List Char) : suffixLength marks (glue cs) = suffixLength marks cs := by
  cases cs with
  | nil => rfl
  | cons c cs =>
    cases hg : isGlue c with
    | true => rw [glue_cons hg]; rfl
    | false =>
      have hc : marks.contains c = false := by
        simp only [List.contains_eq_mem, decide_eq_false_iff_not]
        intro hc
        simp [hm c hc] at hg
      rw [glue_of_not hg, suffixLength, hc]
      rfl

theorem suffixLength_le (marks cs : List Char) : suffixLength marks cs ≤ cs.length := by
  cases cs with
  | nil => exact Nat.le_refl 0
  | cons c cs => rw [suffixLength, List.length_cons]; split <;> omega

/-- The number of signs in front of an exponent. -/
def signLength (cs : List Char) : Nat :=
  if cs.head? = some '+' || cs.head? = some '-' then 1 else 0

theorem signLength_le (cs : List Char) : signLength cs ≤ cs.length := by
  cases cs with
  | nil => exact Nat.le_refl 0
  | cons c cs => rw [signLength, List.length_cons]; split <;> omega

theorem head?_glue_eq_iff {c : Char} (hc : isGlue c = true) (cs : List Char) :
    (glue cs).head? = some c ↔ cs.head? = some c := by
  rw [head?_glue, Option.filter_eq_some_iff]
  exact ⟨fun h => h.1, fun h => ⟨h, hc⟩⟩

theorem signLength_glue (cs : List Char) : signLength (glue cs) = signLength cs := by
  have hplus := head?_glue_eq_iff (c := '+') (by decide) cs
  have hminus := head?_glue_eq_iff (c := '-') (by decide) cs
  simp only [signLength, hplus, hminus]

theorem exponentLength_cons (c : Char) (r : List Char) : exponentLength (c :: r) =
    if c = 'e' || c = 'E' then
      if digitsLength (r.drop (signLength r)) = 0 then 0
      else 1 + signLength r + digitsLength (r.drop (signLength r))
    else 0 := by
  cases r with
  | nil => rfl
  | cons d r =>
    by_cases hplus : d = '+'
    · subst hplus
      rfl
    by_cases hminus : d = '-'
    · subst hminus
      rfl
    simp [exponentLength, signLength, hplus, hminus]

theorem exponentLength_le (cs : List Char) : exponentLength cs ≤ cs.length := by
  cases cs with
  | nil => exact Nat.le_refl 0
  | cons c r =>
    have hdigits := digitsLength_le (r.drop (signLength r))
    have hsign := signLength_le r
    rw [List.length_drop] at hdigits
    rw [exponentLength_cons, List.length_cons]
    split_ifs <;> omega

theorem exponentLength_glue (cs : List Char) : exponentLength (glue cs) = exponentLength cs := by
  cases cs with
  | nil => rfl
  | cons c r =>
    cases hg : isGlue c with
    | true =>
      have hdrop : (glue r).drop (signLength r) = glue (r.drop (signLength r)) := drop_glue (by
        rw [← signLength_glue]
        exact signLength_le _)
      rw [glue_cons hg, exponentLength_cons, exponentLength_cons, signLength_glue, hdrop,
        digitsLength_glue]
    | false =>
      have hc : (c = 'e' || c = 'E') = false := by
        rw [← Bool.not_eq_true]
        intro h
        simp only [Bool.or_eq_true, decide_eq_true_eq] at h
        obtain rfl | rfl := h <;> exact absurd hg (by decide)
      rw [glue_of_not hg, exponentLength_cons, hc]
      rfl

theorem plainNumber_eq (cs : List Char) : plainNumber cs =
    if (cs.drop (digitsLength cs)).head? = some '.' then
      let whole := digitsLength cs + 1 + digitsLength (cs.drop (digitsLength cs + 1))
      let n := whole + exponentLength (cs.drop whole)
      (.decimal, n + suffixLength ['j', 'J'] (cs.drop n))
    else
      let r := cs.drop (digitsLength cs)
      if exponentLength r = 0 then
        (.whole, digitsLength cs + suffixLength ['l', 'L', 'j', 'J'] r)
      else (.decimal, digitsLength cs + exponentLength r +
        suffixLength ['j', 'J'] (r.drop (exponentLength r))) := by
  rw [plainNumber.eq_def]
  dsimp only
  split
  · rename_i r hr
    have hrest : cs.drop (digitsLength cs + 1) = r := by
      rw [← List.drop_drop, hr]
      rfl
    rw [hrest, hr]
    rfl
  · rename_i r hne
    have hhead : (cs.drop (digitsLength cs)).head? ≠ some '.' := by
      intro h
      obtain ⟨t, ht⟩ := List.head?_eq_some_iff.1 h
      exact hne t ht
    rw [if_neg hhead]

/-- What is counted from a place within the glue stays in it. -/
theorem add_le_glue {cs : List Char} {n : Nat} (h : n ≤ (glue cs).length) {count : List Char → Nat}
    (hglue : ∀ cs, count (glue cs) = count cs) (hle : ∀ cs, count cs ≤ cs.length) :
    n + count (cs.drop n) ≤ (glue cs).length := by
  have hrest := hle (glue (cs.drop n))
  rw [hglue, ← drop_glue h, List.length_drop] at hrest
  omega

theorem plainNumber_glue (cs : List Char) : plainNumber (glue cs) = plainNumber cs := by
  have hdigits : digitsLength cs ≤ (glue cs).length := by
    rw [← digitsLength_glue]
    exact digitsLength_le _
  have hpoint := head?_glue_eq_iff (c := '.') (by decide) (cs.drop (digitsLength cs))
  simp only [plainNumber_eq, digitsLength_glue, drop_glue hdigits, hpoint, exponentLength_glue]
  split
  next h =>
    have hdot : digitsLength cs + 1 ≤ (glue cs).length := by
      rw [← hpoint, ← drop_glue hdigits] at h
      obtain ⟨r, hr⟩ := List.head?_eq_some_iff.1 h
      have := congrArg List.length hr
      rw [List.length_drop, List.length_cons] at this
      omega
    have hwhole := add_le_glue hdot digitsLength_glue digitsLength_le
    have hend := add_le_glue hwhole exponentLength_glue exponentLength_le
    simp only [drop_glue hdot, digitsLength_glue, drop_glue hwhole, exponentLength_glue,
      drop_glue hend]
    rw [suffixLength_glue (List.all_eq_true.1 rfl)]
  next h =>
    have hend : exponentLength (cs.drop (digitsLength cs)) ≤
        (glue (cs.drop (digitsLength cs))).length := by
      rw [← exponentLength_glue]
      exact exponentLength_le _
    rw [suffixLength_glue (List.all_eq_true.1 rfl), drop_glue hend,
      suffixLength_glue (List.all_eq_true.1 rfl)]

/-- The marks of bases and the digits behind them. -/
theorem baseDigit?_glue {b : Char} {digit : Char → Bool} (h : baseDigit? b = some digit) :
    isGlue b = true ∧ digit '_' = false ∧ ∀ c, digit c = true → isGlue c = true := by
  have hoctal : ∀ c, (decide ('0' ≤ c) && decide (c ≤ '7')) = true → isGlue c = true := by
    intro c hc
    simp only [Bool.and_eq_true, decide_eq_true_eq] at hc
    refine isGlue_of_isDigit ?_
    simp only [isDigit, Bool.and_eq_true, decide_eq_true_eq]
    have hseven : '7' ≤ '9' := by decide
    exact ⟨hc.1, Char.le_trans hc.2 hseven⟩
  have hbinary : ∀ c, (decide (c = '0') || decide (c = '1')) = true → isGlue c = true := by
    intro c hc
    simp only [Bool.or_eq_true, decide_eq_true_eq] at hc
    obtain rfl | rfl := hc <;> decide
  rw [baseDigit?] at h
  split at h
  next hb =>
    cases h
    simp only [Bool.or_eq_true, decide_eq_true_eq] at hb
    refine ⟨?_, by decide, fun c => isGlue_of_isHexDigit⟩
    obtain rfl | rfl := hb <;> decide
  split at h
  next hb =>
    cases h
    simp only [Bool.or_eq_true, decide_eq_true_eq] at hb
    refine ⟨?_, by decide, hoctal⟩
    obtain rfl | rfl := hb <;> decide
  split at h
  next hb =>
    cases h
    simp only [Bool.or_eq_true, decide_eq_true_eq] at hb
    refine ⟨?_, by decide, hbinary⟩
    obtain rfl | rfl := hb <;> decide
  · cases h

/-- A number that starts with no zero and mark of a base has the base ten. -/
theorem numberLength_ten {cs : List Char} (h : ∀ b r, cs = '0' :: b :: r → baseDigit? b = none) :
    numberLength cs = plainNumber cs := by
  unfold numberLength
  split
  next b r => rw [h b r rfl]
  next => rfl

theorem numberLength_based {b : Char} {r : List Char} {digit : Char → Bool}
    (h : baseDigit? b = some digit) : numberLength ('0' :: b :: r) =
      if basedLength digit r = 0 then plainNumber ('0' :: b :: r)
      else (.whole, 2 + basedLength digit r +
        suffixLength ['l', 'L'] (r.drop (basedLength digit r))) := by
  unfold numberLength
  simp only [h]

theorem numberLength_glue (cs : List Char) : numberLength (glue cs) = numberLength cs := by
  by_cases hten : ∀ b r, cs = '0' :: b :: r → baseDigit? b = none
  · rw [numberLength_ten hten, numberLength_ten, plainNumber_glue]
    intro b r hbr
    -- What starts the glue starts the text.
    obtain ⟨rest, hrest⟩ : glue cs <+: cs := List.takeWhile_prefix _
    rw [hbr] at hrest
    exact hten b _ hrest.symm
  · simp only [not_forall] at hten
    obtain ⟨b, r, rfl, hb⟩ := hten
    obtain ⟨digit, hdigit⟩ := Option.ne_none_iff_exists'.1 hb
    obtain ⟨hglue, hunder, hdigits⟩ := baseDigit?_glue hdigit
    have hend : basedLength digit r ≤ (glue r).length := by
      rw [← basedLength_glue hdigits hunder]
      exact basedLength_le _ _
    have hplain := plainNumber_glue ('0' :: b :: r)
    rw [glue_cons (by decide), glue_cons hglue] at hplain ⊢
    rw [numberLength_based hdigit, numberLength_based hdigit, hplain,
      basedLength_glue hdigits hunder, drop_glue hend, suffixLength_glue (List.all_eq_true.1 rfl)]

/-! Marks and words -/

theorem isPrefixOf_glue {m : List Char} (hm : ∀ c ∈ m, isGlue c = true) (cs : List Char) :
    m.isPrefixOf (glue cs) = m.isPrefixOf cs := by
  induction m generalizing cs with
  | nil => rfl
  | cons c m ih =>
    rw [List.forall_mem_cons] at hm
    cases cs with
    | nil => rfl
    | cons d cs =>
      cases hd : isGlue d with
      | true => rw [glue_cons hd, List.isPrefixOf, List.isPrefixOf, ih hm.2]
      | false =>
        have hne : (c == d) = false := by
          rw [beq_eq_false_iff_ne]
          rintro rfl
          simp [hm.1] at hd
        rw [glue_of_not hd]
        simp [List.isPrefixOf, hne]

theorem markLength_glue (cs : List Char) : markLength (glue cs) = markLength cs := by
  have hall : markTexts.all (fun m => m.all isGlue) = true := rfl
  have hmarks : ∀ m ∈ markTexts, ∀ c ∈ m, isGlue c = true := fun m hm =>
    List.all_eq_true.1 (List.all_eq_true.1 hall m hm)
  have hfind : ∀ ms : List (List Char), (∀ m ∈ ms, ∀ c ∈ m, isGlue c = true) →
      ms.find? (fun m => m.isPrefixOf (glue cs)) = ms.find? fun m => m.isPrefixOf cs := by
    intro ms hms
    induction ms with
    | nil => rfl
    | cons m ms ih =>
      rw [List.forall_mem_cons] at hms
      rw [List.find?_cons, List.find?_cons, isPrefixOf_glue hms.1, ih hms.2]
  rw [markLength, markLength, hfind _ hmarks]

theorem dropWhile_glue {p : Char → Bool} (hp : ∀ c, p c = true → isGlue c = true)
    (cs : List Char) : (glue cs).dropWhile p = glue (cs.dropWhile p) := by
  rw [← drop_length_takeWhile, ← drop_length_takeWhile, takeWhile_glue hp, drop_glue]
  rw [← takeWhile_glue hp]
  exact (List.takeWhile_sublist _).length_le

theorem isGlue_of_isLead {c : Char} (h : isLead c = true) : isGlue c = true := by
  have hall : ∀ c ∈ "fFrRbBuU".toList, isGlue c = true := forall_mem_of_all (by decide)
  exact hall c (by simpa [isLead] using h)

theorem isGlue_of_isQuoteMark {c : Char} (h : isQuoteMark c = true) : isGlue c = true := by
  simp [isGlue, h]

/-- Where no string starts is told by the glue. -/
theorem stringToken?_glue (cs : List Char) :
    stringToken? (glue cs) = none ↔ stringToken? cs = none := by
  rw [stringToken?_eq_none_iff, stringToken?_eq_none_iff,
    dropWhile_glue fun c => isGlue_of_isLead]
  constructor
  · intro h c hc
    rw [← Bool.not_eq_true]
    intro hq
    have hg : c ∈ (glue (cs.dropWhile isLead)).head? :=
      (head?_glue_eq_iff (isGlue_of_isQuoteMark hq) _).2 hc
    simp [h c hg] at hq
  · exact fun h c hc => h c (head?_glue_subset hc)

/-! Tokens other than strings -/

theorem munch_glue {c : Char} (hs : startsText c = true) {cs : List Char}
    (hn : stringToken? (c :: cs) = none) (hg : isGlue c = true) :
    munch c (glue cs) = munch c cs := by
  have hn' : stringToken? (c :: glue cs) = none := by
    rw [← glue_cons hg, stringToken?_glue]
    exact hn
  have hdigit : (glue cs).head?.any isDigit = cs.head?.any isDigit := by
    cases cs with
    | nil => rfl
    | cons d cs =>
      cases hd : isGlue d with
      | true => rw [glue_cons hd]; rfl
      | false =>
        have hnot : isDigit d = false :=
          Bool.eq_false_iff.2 fun h => by simp [isGlue_of_isDigit h] at hd
        simp [glue_of_not hd, hnot]
  rw [munch_eq hs, munch_eq hs, hn, hn']
  dsimp only
  rw [takeWhile_glue fun c => isGlue_of_isWordChar, hdigit, ← glue_cons hg, numberLength_glue,
    markLength_glue]

theorem munch_paren {c : Char} (h : c = '(' ∨ c = ')') (cs : List Char) :
    munch c cs = (.mark, 0) := by
  have hs : startsText c = true := by obtain rfl | rfl := h <;> decide
  have hn : stringToken? (c :: cs) = none := by
    refine stringToken?_eq_none_iff.2 fun d hd => ?_
    have hlead : isLead c = false := by obtain rfl | rfl := h <;> decide
    rw [List.dropWhile_cons_of_neg (by simp [hlead])] at hd
    obtain rfl : c = d := by simpa using hd
    obtain rfl | rfl := h <;> decide
  rw [munch_eq hs, hn]
  obtain rfl | rfl := h <;> rfl

/-- What a token is if it is neither trivia nor a string. -/
def TokenKind.isSolid : TokenKind → Bool
  | .word | .whole | .decimal | .mark => true
  | _ => false

theorem startsText_of_munch {c : Char} {cs : List Char} (h : (munch c cs).1.isSolid = true) :
    startsText c = true := by
  refine startsText_of_kind cs fun hm => ?_
  simp only [List.mem_cons, List.not_mem_nil, or_false] at hm
  obtain hk | hk | hk | hk := hm <;> rw [hk] at h <;> cases h

theorem stringToken?_of_munch {c : Char} {cs : List Char} (h : (munch c cs).1.isSolid = true) :
    stringToken? (c :: cs) = none := by
  rw [munch_eq (startsText_of_munch h)] at h
  cases hs : stringToken? (c :: cs) with
  | none => rfl
  | some r =>
    obtain ⟨word, mark, r, -, -, -, rfl⟩ := exists_of_stringToken? hs
    rw [hs] at h
    dsimp only at h
    obtain hk | hk := kind_stringFrom word mark r <;> rw [hk] at h <;> cases h

theorem isGlue_of_munch {c : Char} {cs : List Char} (h : (munch c cs).1.isSolid = true) :
    isGlue c = true ∨ c = '(' ∨ c = ')' := by
  have hn := stringToken?_of_munch h
  rw [munch_eq (startsText_of_munch h), hn] at h
  dsimp only at h
  split at h
  next hw => exact .inl (isGlue_of_isWordChar (by simp [isWordChar, hw]))
  split at h
  next hd =>
    simp only [Bool.or_eq_true, Bool.and_eq_true, decide_eq_true_eq] at hd
    obtain hd | ⟨rfl, -⟩ := hd
    · exact .inl (isGlue_of_isDigit hd)
    · exact .inl (by decide)
  split at h
  next hm =>
    by_cases hp : c = '(' ∨ c = ')'
    · exact .inr hp
    · simp only [not_or] at hp
      exact .inl (by simp [isGlue, hm, hp.1, hp.2])
  · cases h

/-- A token other than a string depends on the glue behind it. -/
theorem munch_congr {c : Char} {w X Y : List Char} {kind : TokenKind}
    (h : munch c (w ++ X) = (kind, w.length)) (hk : kind.isSolid = true) (hXY : glue X = glue Y) :
    munch c (w ++ Y) = (kind, w.length) := by
  have hsolid : (munch c (w ++ X)).1.isSolid = true := by rw [h]; exact hk
  obtain hg | hp := isGlue_of_munch hsolid
  · have hs := startsText_of_munch hsolid
    have hn := stringToken?_of_munch hsolid
    have hglue := glue_append_congr hXY w
    have hn' : stringToken? (c :: (w ++ Y)) = none := by
      rw [← stringToken?_glue, glue_cons hg, ← hglue, ← glue_cons hg, stringToken?_glue]
      exact hn
    rw [← munch_glue hs hn' hg, ← hglue, munch_glue hs hn hg, h]
  · rw [munch_paren hp] at h ⊢
    exact h

end Pipewright.Source
