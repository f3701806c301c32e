import Pipewright.Proofs.Source.Scanning
import Pipewright.Proofs.Text.Numerals
import Pipewright.Proofs.Text.Quoting

/-! Written forms and the tokens they are read as: a form is one token if what follows cannot
extend it. -/
namespace Pipewright.Source
open Pipewright.Text

/-- Characters that extend no word, number or string in front of them. -/
def isParting (c : Char) : Bool :=
  [' ', '\t', '\x0c', '\r', '\n', '#', ',', ':', ']', '}'].contains c

/-- Whether a text leaves what stands in front of it as it is. -/
def Parted (rest : List Char) : Prop := ∀ c ∈ rest.head?, isParting c = true

theorem parted_nil : Parted [] := by simp [Parted]

theorem parted_cons {c : Char} (h : isParting c = true) (rest : List Char) :
    Parted (c :: rest) := by
  simpa [Parted] using h

theorem Parted.head_ne {rest : List Char} (h : Parted rest) {c : Char} (hc : isParting c = false) :
    ∀ d ∈ rest.head?, d ≠ c := by
  rintro d hd rfl
  simp [h d hd] at hc

theorem Parted.head_not {rest : List Char} (h : Parted rest) {p : Char → Bool}
    (hp : [' ', '\t', '\x0c', '\r', '\n', '#', ',', ':', ']', '}'].any p = false) :
    ∀ d ∈ rest.head?, p d = false :=
  fun d hd => Bool.eq_false_iff.2 (List.any_eq_false.1 hp d (by simpa [isParting] using h d hd))

/-! One token -/

theorem absorb_of_ne {t : Token} (h : t.kind ≠ .joint) (ts : List Token) :
    absorb t ts = t :: ts := by
  cases ts <;> simp [absorb, h]

theorem lexFrom_nil : lexFrom [] [] = ([], []) := by rw [lexFrom.eq_def]

theorem lexFrom_gap {c : Char} (h : isGap c = true) (gap cs : List Char) :
    lexFrom gap (c :: cs) = lexFrom (gap ++ [c]) cs := by
  rw [lexFrom.eq_def]
  exact if_pos h

/-- A text whose start is one token. -/
theorem lexFrom_token {c : Char} {cs rest : List Char} {kind : TokenKind} (hg : isGap c = false)
    (hm : munch c (cs ++ rest) = (kind, cs.length)) (hk : kind ≠ .joint) (gap : List Char) :
    lexFrom gap (c :: (cs ++ rest)) =
      (⟨gap, kind, c :: cs⟩ :: (lexFrom [] rest).1, (lexFrom [] rest).2) := by
  rw [lexFrom.eq_def]
  simp only [hg, hm, Bool.false_eq_true, if_false, List.drop_left, List.take_left,
    absorb_of_ne (t := ⟨gap, kind, c :: cs⟩) hk]

theorem lexFrom_single {c : Char} {rest : List Char} {kind : TokenKind} (hg : isGap c = false)
    (hm : munch c rest = (kind, 0)) (hk : kind ≠ .joint) (gap : List Char) :
    lexFrom gap (c :: rest) =
      (⟨gap, kind, [c]⟩ :: (lexFrom [] rest).1, (lexFrom [] rest).2) :=
  @lexFrom_token c [] rest kind hg hm hk gap

/-- Characters that start neither a newline, a comment nor a joint. -/
def startsText (c : Char) : Bool := !(['\n', '#', '\\'].contains c)

theorem startsText_or (c : Char) : startsText c = true ∨ c = '\n' ∨ c = '#' ∨ c = '\\' := by
  by_cases hs : startsText c = true
  · exact .inl hs
  · simp only [startsText, Bool.not_eq_true, Bool.not_eq_false', List.contains_eq_mem, List.mem_cons,
      List.not_mem_nil, or_false, decide_eq_true_eq] at hs
    exact .inr hs

theorem munch_eq {c : Char} (h : startsText c = true) (cs : List Char) :
    munch c cs = match stringToken? (c :: cs) with
      | some r => r
      | none =>
        if isWordStart c then (.word, (cs.takeWhile isWordChar).length)
        else if isDigit c || (c = '.' && (cs.head?.any isDigit)) then
          ((numberLength (c :: cs)).1, (numberLength (c :: cs)).2 - 1)
        else if isMarkChar c then (.mark, markLength (c :: cs))
        else (.stray, 0) := by
  simp only [startsText, Bool.not_eq_true', List.contains_eq_mem, List.mem_cons, List.not_mem_nil,
    or_false, decide_eq_false_iff_not, not_or] at h
  exact (if_neg h.1).trans ((if_neg h.2.1).trans (if_neg h.2.2))

theorem munch_backslash (cs : List Char) :
    (munch '\\' cs).1 = .joint ∨ (munch '\\' cs).1 = .stray := by
  simp only [munch, show '\\' ≠ '\n' by decide, show '\\' ≠ '#' by decide, if_false, if_true]
  split
  · exact .inl rfl
  · exact .inl rfl
  · exact .inl rfl
  · exact .inr rfl

theorem startsText_of_kind {c : Char} (cs : List Char)
    (h : (munch c cs).1 ∉ [TokenKind.newline, .comment, .joint, .stray]) : startsText c = true := by
  obtain hs | rfl | rfl | rfl := startsText_or c
  · exact hs
  · exact absurd List.mem_cons_self h
  · exact absurd (List.mem_cons_of_mem _ List.mem_cons_self) h
  · refine absurd ?_ h
    obtain hk | hk := munch_backslash cs <;> simp [hk]

/-! Strings -/

/-- Quotes of one mark each, without letters in front. -/
def plainQuotes (mark : Char) : Quotes := ⟨mark, false, false, false⟩

theorem escapeLength_escapes {m c : Char} (h : (m, c) ∈ escapes) (r : List Char) :
    escapeLength (m :: r) = 1 := by
  simp only [escapes, List.mem_cons, List.not_mem_nil, or_false, Prod.mk.injEq] at h
  rcases h with h | h | h | h | h | h | h | h | h | h <;> obtain ⟨rfl, rfl⟩ := h <;> rfl

section
variable {mark : Char} {w cs rest : List Char}

theorem stringLength_close (hm : mark = '\'' ∨ mark = '"') (fresh : Bool) (rest : List Char) :
    stringLength 0 [.text (plainQuotes mark) fresh] (mark :: rest) = some 1 := by
  rcases hm with rfl | rfl <;> simp [stringLength, stepFrame, stepText, plainQuotes]

theorem stringLength_written (hm : mark = '\'' ∨ mark = '"') (h : Written mark w cs)
    (hw : '\x00' ∉ w) (fresh : Bool) (rest : List Char) :
    stringLength 0 [.text (plainQuotes mark) fresh] (w ++ mark :: rest) =
      some (w.length + 1) := by
  induction h generalizing fresh with
  | nil => exact stringLength_close hm fresh rest
  | @char c w cs hc h ih =>
    rw [List.mem_cons, not_or] at hw
    simp only [List.mem_cons, List.not_mem_nil, or_false, not_or] at hc
    obtain ⟨hmark, hb, hn, -⟩ := hc
    rw [List.cons_append, stringLength, if_neg (Ne.symm hw.1)]
    have hstep : stepFrame [.text (plainQuotes mark) fresh] c (w ++ mark :: rest) =
        .go [.text (plainQuotes mark) false] 0 := by
      simp [stepFrame, stepText, plainQuotes, hb, hmark, hn]
    rw [hstep]
    simp only [ih hw.2 false, Option.map_some, List.length_cons]
  | @escape m c w cs hesc h ih =>
    simp only [List.mem_cons, not_or] at hw
    have hstep : stepFrame [.text (plainQuotes mark) fresh] '\\' (m :: (w ++ mark :: rest)) =
        .go [.text (plainQuotes mark) true] 1 := by
      simp [stepFrame, stepText, plainQuotes, escapeLength_escapes hesc]
    rw [List.cons_append, List.cons_append, stringLength, if_neg (by decide), hstep]
    simp only [stringLength, if_neg (Ne.symm hw.2.1), ih hw.2.2 true, Option.map_some,
      List.length_cons]

theorem openQuotes_written (hm : mark = '\'' ∨ mark = '"') (h : Written mark w cs)
    (hr : Parted rest) : openQuotes [] mark (w ++ mark :: rest) = (plainQuotes mark, 0) := by
  -- What is between the quotes starts with no quote; if it is empty, no quote follows it.
  have htriple : (w ++ mark :: rest).take 2 ≠ [mark, mark] := by
    cases w with
    | nil =>
      have hne : ∀ c ∈ rest.head?, c ≠ mark := by
        rcases hm with rfl | rfl <;> exact hr.head_ne (by decide)
      cases rest with
      | nil => simp
      | cons d rest => simpa using hne d rfl
    | cons d w =>
      have hd : d ≠ mark := h.head hm d rfl
      cases w <;> simp [hd]
  simp [openQuotes, htriple, plainQuotes]

theorem munch_string (hm : mark = '\'' ∨ mark = '"') (h : Written mark w cs) (hw : '\x00' ∉ w)
    (hr : Parted rest) : munch mark (w ++ [mark] ++ rest) = (.string, (w ++ [mark]).length) := by
  have hquote : isQuoteMark mark = true := by rcases hm with rfl | rfl <;> rfl
  have hs : stringToken? (mark :: (w ++ mark :: rest)) = some (.string, w.length + 1) :=
    stringToken?_unled hquote (openQuotes_written hm h hr) (stringLength_written hm h hw true rest)
  have hstart : startsText mark = true := by rcases hm with rfl | rfl <;> decide
  rw [List.append_assoc, List.singleton_append, munch_eq hstart, hs]
  simp

/-- A text between quotes is one string. -/
theorem lexFrom_string (hm : mark = '\'' ∨ mark = '"') (h : Written mark w cs) (hw : '\x00' ∉ w)
    (hr : Parted rest) (gap : List Char) :
    lexFrom gap (mark :: (w ++ [mark]) ++ rest) =
      (⟨gap, .string, mark :: (w ++ [mark])⟩ :: (lexFrom [] rest).1, (lexFrom [] rest).2) := by
  have hg : isGap mark = false := by rcases hm with rfl | rfl <;> decide
  exact lexFrom_token hg (munch_string hm h hw hr) (by decide) gap

theorem lexFrom_quote (h : '\x00' ∉ cs) (hr : Parted rest) (gap : List Char) :
    lexFrom gap (quote cs ++ rest) =
      (⟨gap, .string, quote cs⟩ :: (lexFrom [] rest).1, (lexFrom [] rest).2) :=
  lexFrom_string (.inl rfl) (written_escapeAll cs) (not_mem_escapeAll h) hr gap

end

/-! Words, numbers and marks -/

/-- Where no quote stands, no string starts. -/
theorem stringToken?_of_unquoted {cs rest : List Char} (h : ∀ d ∈ cs, isQuoteMark d = false)
    (hr : Parted rest) : stringToken? (cs ++ rest) = none := by
  refine stringToken?_eq_none_iff.2 fun c hc => ?_
  rw [List.dropWhile_append] at hc
  cases hd : cs.dropWhile isLead with
  | nil =>
    have hl : rest.dropWhile isLead = rest := dropWhile_of_head (hr.head_not (by decide))
    rw [hd, hl] at hc
    exact hr.head_not (p := isQuoteMark) (by decide) c hc
  | cons d ds =>
    have hm : d ∈ cs := List.dropWhile_subset isLead (hd ▸ List.mem_cons_self)
    rw [hd] at hc
    obtain rfl : d = c := by simpa using hc
    exact h d hm

theorem isQuoteMark_of_isWordChar {c : Char} (h : isWordChar c = true) : isQuoteMark c = false := by
  rw [← Bool.not_eq_true]
  intro hq
  simp only [isQuoteMark, Bool.or_eq_true, decide_eq_true_eq] at hq
  obtain (rfl | rfl) | rfl := hq <;> exact absurd h (by decide)

theorem isBlank_of_isWordChar {c : Char} (h : isWordChar c = true) : isBlank c = false := by
  have hletter : ∀ a b : Char, a ≤ c ∧ c ≤ b → 32 < a.toNat → b.toNat < 128 →
      isBlank c = false := by
    intro a b hc ha hb
    have hle : a.toNat ≤ c.toNat ∧ c.toNat ≤ b.toNat := hc
    simp only [isBlank, Bool.or_eq_false_iff, Bool.and_eq_false_iff, decide_eq_false_iff_not]
    omega
  simp only [isWordChar, isWordStart, isAsciiLetter, Bool.or_eq_true, Bool.and_eq_true,
    decide_eq_true_eq, Bool.not_eq_true'] at h
  obtain (((h | h) | rfl) | h) | h := h
  · exact hletter 'a' 'z' h (by decide) (by decide)
  · exact hletter 'A' 'Z' h (by decide) (by decide)
  · decide
  · exact h.1.2
  · exact of_isDigit (p := fun d => isBlank d = false) h (by decide)

theorem munch_word {c : Char} {cs rest : List Char} (hs : isWordStart c = true)
    (hcs : ∀ d ∈ cs, isWordChar d = true) (hr : Parted rest) :
    munch c (cs ++ rest) = (.word, cs.length) := by
  have hstart : startsText c = true := (startsText_or c).resolve_right (by
    rintro (rfl | rfl | rfl) <;> exact absurd hs (by decide))
  have hnone : stringToken? (c :: cs ++ rest) = none := by
    refine stringToken?_of_unquoted (fun d hd => ?_) hr
    obtain rfl | hd := List.mem_cons.1 hd
    · exact isQuoteMark_of_isWordChar (by simp [isWordChar, hs])
    · exact isQuoteMark_of_isWordChar (hcs d hd)
  rw [List.cons_append] at hnone
  rw [munch_eq hstart, hnone]
  simp only [hs, if_true, takeWhile_append hcs (hr.head_not (by decide))]

/-! Whole numbers -/

theorem digitsLength_cons {c : Char} {r : List Char} (h : ∀ d ∈ r.head?, d ≠ '_') :
    digitsLength (c :: r) = if isDigit c then 1 + digitsLength r else 0 := by
  cases r with
  | nil => rfl
  | cons d r =>
    have hd : d ≠ '_' := h d rfl
    simp [digitsLength, hd]

/-- What ends the digits of a number: neither a digit nor an underscore. -/
def EndsDigits (rest : List Char) : Prop := ∀ c ∈ rest.head?, isDigit c = false ∧ c ≠ '_'

theorem Parted.endsDigits {rest : List Char} (hr : Parted rest) : EndsDigits rest := fun c hc =>
  ⟨hr.head_not (p := isDigit) (by decide) c hc, hr.head_ne (by decide) c hc⟩

theorem digitsLength_rest {rest : List Char} (hr : EndsDigits rest) : digitsLength rest = 0 := by
  cases rest with
  | nil => rfl
  | cons c rest =>
    have hc : isDigit c = false := (hr c rfl).1
    rw [digitsLength.eq_def]
    split <;> simp_all

theorem head_grouped_ne {digit : Char → Bool} (hd : digit '_' = false) {w ds rest : List Char}
    (h : Grouped digit w ds) : ∀ d ∈ (w ++ rest).head?, d ≠ '_' := by
  obtain ⟨c, r, -, hc, rfl, -⟩ := h.head
  rintro d he rfl
  cases he
  rw [hd] at hc
  cases hc

theorem digitsLength_grouped {w ds rest : List Char} (h : Grouped isDigit w ds)
    (hr : EndsDigits rest) : digitsLength (w ++ rest) = w.length := by
  induction h with
  | last hc =>
    rw [List.singleton_append, digitsLength_cons fun d hd => (hr d hd).2, if_pos hc,
      digitsLength_rest hr]
    rfl
  | next hc h ih =>
    rw [List.cons_append, digitsLength_cons (head_grouped_ne (by decide) h), if_pos hc, ih,
      List.length_cons, Nat.add_comm]
  | group hc h ih =>
    rw [List.cons_append, List.cons_append, digitsLength, if_pos hc, ih, List.length_cons,
      List.length_cons]
    omega

theorem basedLength_parted {digit : Char → Bool} {rest : List Char} (hr : Parted rest)
    (hd : ∀ c, isParting c = true → digit c = false) : basedLength digit rest = 0 := by
  cases rest with
  | nil => rfl
  | cons c rest =>
    have hp : isParting c = true := hr c rfl
    have hc : c ≠ '_' := by
      rintro rfl
      exact absurd hp (by decide)
    rw [basedLength.eq_def]
    split <;> simp_all

theorem basedLength_grouped {digit : Char → Bool} (hunder : digit '_' = false)
    (hd : ∀ c, isParting c = true → digit c = false) {w ds rest : List Char}
    (h : Grouped digit w ds) (hr : Parted rest) :
    basedLength digit (w ++ rest) = w.length ∧
      basedLength digit ('_' :: (w ++ rest)) = w.length + 1 := by
  have hcons : ∀ {c r}, digit c = true → basedLength digit (c :: r) = 1 + basedLength digit r := by
    intro c r hc
    have hne : c ≠ '_' := by
      rintro rfl
      rw [hunder] at hc
      cases hc
    rw [basedLength.eq_def]
    split <;> simp_all
  have hgroup : ∀ {c r}, digit c = true →
      basedLength digit ('_' :: c :: r) = 2 + basedLength digit r := by
    intro c r hc
    rw [basedLength, if_pos hc]
  induction h with
  | last hc =>
    rw [List.singleton_append, hcons hc, hgroup hc, basedLength_parted hr hd]
    exact ⟨rfl, rfl⟩
  | next hc h ih =>
    rw [List.cons_append, hcons hc, hgroup hc, ih.1, List.length_cons]
    omega
  | group hc h ih =>
    rw [List.cons_append, List.cons_append, hcons hc, hgroup hc, ih.2, List.length_cons,
      List.length_cons]
    omega

theorem exponentLength_of_parted {rest : List Char} (hr : Parted rest) :
    exponentLength rest = 0 := by
  cases rest with
  | nil => rfl
  | cons c rest =>
    have h₁ : c ≠ 'e' := hr.head_ne (by decide) c rfl
    have h₂ : c ≠ 'E' := hr.head_ne (by decide) c rfl
    simp [exponentLength, h₁, h₂]

theorem suffixLength_of_parted {marks rest : List Char} (hr : Parted rest)
    (hm : [' ', '\t', '\x0c', '\r', '\n', '#', ',', ':', ']', '}'].any marks.contains = false) :
    suffixLength marks rest = 0 := by
  cases rest with
  | nil => rfl
  | cons c rest =>
    rw [suffixLength, hr.head_not (p := marks.contains) hm c rfl]
    rfl

theorem plainNumber_grouped {w ds rest : List Char} (h : Grouped isDigit w ds)
    (hr : Parted rest) : plainNumber (w ++ rest) = (.whole, w.length) := by
  have he := exponentLength_of_parted hr
  have hs : suffixLength ['l', 'L', 'j', 'J'] rest = 0 := suffixLength_of_parted hr (by decide)
  unfold plainNumber
  simp only [digitsLength_grouped h hr.endsDigits, List.drop_left]
  cases rest with
  | nil => simp [he, hs]
  | cons c rest =>
    have hc : c ≠ '.' := hr.head_ne (by decide) c rfl
    simp [hc, he, hs]

/-- A zero could be the start of a number in another base, if the mark of a base is behind it. -/
theorem numberLength_plain {c : Char} {cs : List Char}
    (h : ∀ b ∈ cs.head?, (baseDigit? b).isSome = false) :
    numberLength (c :: cs) = plainNumber (c :: cs) := by
  unfold numberLength
  split
  · rename_i b r he
    rw [List.cons.injEq] at he
    rw [he.2] at h
    rw [Option.not_isSome_iff_eq_none.1 (Bool.eq_false_iff.1 (h b rfl))]
  · rfl

theorem isSome_baseDigit? {c : Char} (h : isDigit c = true ∨ c = '_') :
    (baseDigit? c).isSome = false := by
  obtain h | rfl := h
  · exact of_isDigit (p := fun d => (baseDigit? d).isSome = false) h (by decide)
  · decide

theorem numberLength_decimal {w ds rest : List Char} (h : Grouped isDigit w ds)
    (hr : Parted rest) : numberLength (w ++ rest) = (.whole, w.length) := by
  have hplain := plainNumber_grouped h hr
  have hchars := h.chars
  obtain ⟨c, r, -, -, rfl, -⟩ := h.head
  have hnext : ∀ b ∈ (r ++ rest).head?, (baseDigit? b).isSome = false := by
    cases r with
    | nil => exact hr.head_not (p := fun b => (baseDigit? b).isSome) (by decide)
    | cons d r =>
      have hd : (baseDigit? d).isSome = false := isSome_baseDigit? (hchars d (by simp))
      simpa using hd
  exact (numberLength_plain hnext).trans hplain

/-- The digits that the lexer takes after the mark of a base. -/
theorem exists_baseDigit {m : Char} {base : Nat} (hm : (m, base) ∈ bases) :
    ∃ digit, baseDigit? m = some digit ∧ digit '_' = false ∧
      (∀ c, isParting c = true → digit c = false) ∧
      ∀ c, isDigitOf base c = true → digit c = true := by
  have hparting : ∀ digit : Char → Bool,
      [' ', '\t', '\x0c', '\r', '\n', '#', ',', ':', ']', '}'].any digit = false →
        ∀ c, isParting c = true → digit c = false := fun digit hd c hc =>
    Bool.eq_false_iff.2 (List.any_eq_false.1 hd c (by simpa [isParting] using hc))
  have hoctal : ∀ c, isDigitOf 8 c = true → (decide ('0' ≤ c) && decide (c ≤ '7')) = true :=
    fun c hc => of_isHexDigit
      (p := fun c => isDigitOf 8 c = true → (decide ('0' ≤ c) && decide (c ≤ '7')) = true)
      (isHexDigit_of_isDigitOf hc) (by decide) hc
  have hbinary : ∀ c, isDigitOf 2 c = true → (decide (c = '0') || decide (c = '1')) = true :=
    fun c hc => of_isHexDigit
      (p := fun c => isDigitOf 2 c = true → (decide (c = '0') || decide (c = '1')) = true)
      (isHexDigit_of_isDigitOf hc) (by decide) hc
  simp only [bases, List.mem_cons, List.not_mem_nil, or_false, Prod.mk.injEq] at hm
  rcases hm with h | h | h | h | h | h <;> obtain ⟨rfl, rfl⟩ := h
  · exact ⟨isHexDigit, rfl, rfl, hparting _ (by decide), fun _ => isHexDigit_of_isDigitOf⟩
  · exact ⟨isHexDigit, rfl, rfl, hparting _ (by decide), fun _ => isHexDigit_of_isDigitOf⟩
  · exact ⟨_, rfl, rfl, hparting _ (by decide), hoctal⟩
  · exact ⟨_, rfl, rfl, hparting _ (by decide), hoctal⟩
  · exact ⟨_, rfl, rfl, hparting _ (by decide), hbinary⟩
  · exact ⟨_, rfl, rfl, hparting _ (by decide), hbinary⟩

theorem numberLength_numeral {w rest : List Char} {n : Nat} (h : Numeral w n)
    (hr : Parted rest) : numberLength (w ++ rest) = (.whole, w.length) := by
  cases h with
  | decimal h _ _ => exact numberLength_decimal h hr
  | @based m base u w ds n hm hu h hn =>
    obtain ⟨digit, hdigit, hunder, hparting, hmono⟩ := exists_baseDigit hm
    have hlength : basedLength digit (u ++ w ++ rest) = (u ++ w).length := by
      obtain ⟨hplain, hafter⟩ := basedLength_grouped hunder hparting (h.mono hmono) hr
      rcases hu with rfl | rfl
      · exact hplain
      · simpa using hafter
    have hpos : (u ++ w).length ≠ 0 := by
      obtain ⟨c, r, -, -, rfl, -⟩ := h.head
      simp
    have hsuffix : suffixLength ['l', 'L'] rest = 0 := suffixLength_of_parted hr (by decide)
    rw [List.cons_append, List.cons_append, numberLength, hdigit]
    simp only [hlength, if_neg hpos, List.drop_left, hsuffix, List.length_cons]
    congr 1
    omega

theorem isWordChar_grouped {w ds : List Char} (h : Grouped isDigit w ds) :
    ∀ c ∈ w, isWordChar c = true := by
  intro c hc
  obtain hd | rfl := h.chars c hc
  · simp [isWordChar, hd]
  · decide

theorem numeral_chars {w : List Char} {n : Nat} (h : Numeral w n) :
    (∃ c r, isDigit c = true ∧ w = c :: r) ∧ ∀ d ∈ w, isWordChar d = true := by
  cases h with
  | decimal h _ _ =>
    have hchars := isWordChar_grouped h
    obtain ⟨c, r, -, hc, rfl, -⟩ := h.head
    exact ⟨⟨c, r, hc, rfl⟩, hchars⟩
  | @based m base u w ds n hm hu h _ =>
    have hmark : ∀ b ∈ bases, isWordChar b.1 = true := by decide
    refine ⟨⟨'0', _, by decide, rfl⟩, List.forall_mem_cons.2 ⟨by decide, List.forall_mem_cons.2
      ⟨hmark _ hm, List.forall_mem_append.2 ⟨?_, fun d hd => ?_⟩⟩⟩⟩
    · rcases hu with rfl | rfl <;> exact forall_mem_of_all (by decide)
    · obtain hd | rfl := h.chars d hd
      · exact of_isHexDigit (p := fun d => isWordChar d = true) (isHexDigit_of_isDigitOf hd)
          (by decide)
      · decide

theorem munch_number {c : Char} {cs : List Char} {kind : TokenKind} {n : Nat}
    (hc : isDigit c = true) (hs : stringToken? (c :: cs) = none)
    (hn : numberLength (c :: cs) = (kind, n + 1)) : munch c cs = (kind, n) := by
  have hword : isWordStart c = false :=
    of_isDigit (p := fun d => isWordStart d = false) hc (by decide)
  have hstart : startsText c = true :=
    of_isDigit (p := fun d => startsText d = true) hc (by decide)
  rw [munch_eq hstart, hs]
  simp only [hword, hc, Bool.true_or, Bool.false_eq_true, if_true, if_false, hn,
    Nat.add_sub_cancel]

theorem munch_numeral {c : Char} {r rest : List Char} {n : Nat} (h : Numeral (c :: r) n)
    (hr : Parted rest) : munch c (r ++ rest) = (.whole, r.length) := by
  obtain ⟨⟨d, s, hd, he⟩, hchars⟩ := numeral_chars h
  cases he
  have hnone := stringToken?_of_unquoted (fun d hd => isQuoteMark_of_isWordChar (hchars d hd)) hr
  exact munch_number hd hnone (numberLength_numeral h hr)

/-- A number is one token. -/
theorem lexFrom_numeral {w : List Char} {n : Nat} (h : Numeral w n) {rest : List Char}
    (hr : Parted rest) (gap : List Char) :
    lexFrom gap (w ++ rest) =
      (⟨gap, .whole, w⟩ :: (lexFrom [] rest).1, (lexFrom [] rest).2) := by
  obtain ⟨⟨c, r, hc, rfl⟩, -⟩ := numeral_chars h
  have hg : isGap c = false := of_isDigit (p := fun d => isGap d = false) hc (by decide)
  exact lexFrom_token hg (munch_numeral h hr) (by decide) gap

/-! Numbers with a point -/

section
variable {w ds f es rest : List Char}

theorem plainNumber_point (hw : Grouped isDigit w ds) (hf : Grouped isDigit f es)
    (hr : Parted rest) :
    plainNumber (w ++ '.' :: (f ++ rest)) = (.decimal, (w ++ '.' :: f).length) := by
  have hpoint : EndsDigits ('.' :: (f ++ rest)) := by
    intro c hc
    cases hc
    decide
  have hdrop : (w ++ '.' :: (f ++ rest)).drop (w.length + 1 + f.length) = rest := by
    rw [← List.drop_drop, ← List.drop_drop, List.drop_left, List.drop_one, List.tail_cons,
      List.drop_left]
  have hsuffix : suffixLength ['j', 'J'] rest = 0 := suffixLength_of_parted hr (by decide)
  unfold plainNumber
  simp only [digitsLength_grouped hw hpoint, List.drop_left,
    digitsLength_grouped hf hr.endsDigits, hdrop, exponentLength_of_parted hr, Nat.add_zero,
    hsuffix, List.length_append, List.length_cons]
  refine congrArg _ ?_
  omega

theorem numberLength_point (hw : Grouped isDigit w ds) (hf : Grouped isDigit f es)
    (hr : Parted rest) :
    numberLength (w ++ '.' :: (f ++ rest)) = (.decimal, (w ++ '.' :: f).length) := by
  have hplain := plainNumber_point hw hf hr
  have hchars := hw.chars
  obtain ⟨c, w, -, -, rfl, -⟩ := hw.head
  have hnext : ∀ b ∈ (w ++ '.' :: (f ++ rest)).head?, (baseDigit? b).isSome = false := by
    cases w with
    | nil => simp [baseDigit?]
    | cons d w =>
      have hd : (baseDigit? d).isSome = false := isSome_baseDigit? (hchars d (by simp))
      simpa using hd
  exact (numberLength_plain hnext).trans hplain

/-- A number with a point is one token. -/
theorem lexFrom_point (hw : Grouped isDigit w ds) (hf : Grouped isDigit f es) (hr : Parted rest)
    (gap : List Char) :
    lexFrom gap (w ++ '.' :: f ++ rest) =
      (⟨gap, .decimal, w ++ '.' :: f⟩ :: (lexFrom [] rest).1, (lexFrom [] rest).2) := by
  have hnumber := numberLength_point hw hf hr
  have hunquoted : ∀ d ∈ w ++ '.' :: f, isQuoteMark d = false :=
    List.forall_mem_append.2 ⟨fun d hd => isQuoteMark_of_isWordChar (isWordChar_grouped hw d hd),
      List.forall_mem_cons.2 ⟨by decide, fun d hd =>
        isQuoteMark_of_isWordChar (isWordChar_grouped hf d hd)⟩⟩
  have hnone := stringToken?_of_unquoted hunquoted hr
  obtain ⟨c, w, -, hc, rfl, -⟩ := hw.head
  have hg : isGap c = false := of_isDigit (p := fun d => isGap d = false) hc (by decide)
  have htext : c :: w ++ '.' :: (f ++ rest) = c :: ((w ++ '.' :: f) ++ rest) := by simp
  rw [htext] at hnumber
  exact lexFrom_token hg (munch_number hc hnone hnumber) (by decide) gap

end

/-! Words -/

theorem lexFrom_word {c : Char} {cs rest : List Char} (hg : isGap c = false)
    (hs : isWordStart c = true) (hcs : ∀ d ∈ cs, isWordChar d = true) (hr : Parted rest)
    (gap : List Char) :
    lexFrom gap (c :: cs ++ rest) =
      (⟨gap, .word, c :: cs⟩ :: (lexFrom [] rest).1, (lexFrom [] rest).2) :=
  lexFrom_token hg (munch_word hs hcs hr) (by decide) gap

/-! Marks -/

theorem munch_mark {c : Char} {rest : List Char}
    (hc : c ∈ ['[', ']', '{', '}', ',', ':', '=', '-', '+']) (h : markLength (c :: rest) = 0) :
    munch c rest = (.mark, 0) := by
  have hp : ∀ c ∈ ['[', ']', '{', '}', ',', ':', '=', '-', '+'], startsText c = true ∧
      isLead c = false ∧ isQuoteMark c = false ∧ isWordStart c = false ∧ isDigit c = false ∧
      c ≠ '.' ∧ isMarkChar c = true := forall_mem_of_all (by decide)
  obtain ⟨hs, hl, hq, hw, hd, hpoint, hm⟩ := hp c hc
  have hnone : stringToken? (c :: rest) = none := stringToken?_eq_none_iff.2 (by simp [hl, hq])
  rw [munch_eq hs, hnone]
  simp [hw, hd, hpoint, hm, h]

theorem lexFrom_mark {c : Char} {rest : List Char}
    (hc : c ∈ ['[', ']', '{', '}', ',', ':', '=', '-', '+']) (h : markLength (c :: rest) = 0)
    (gap : List Char) :
    lexFrom gap (c :: rest) =
      (⟨gap, .mark, [c]⟩ :: (lexFrom [] rest).1, (lexFrom [] rest).2) := by
  have hg : ∀ c ∈ ['[', ']', '{', '}', ',', ':', '=', '-', '+'], isGap c = false :=
    forall_mem_of_all (by decide)
  exact lexFrom_single (hg c hc) (munch_mark hc h) (by decide) gap

/-- Brackets and commas start no longer mark. -/
theorem lexFrom_bracket {c : Char} (hc : c ∈ ['[', ']', '{', '}', ',']) (gap rest : List Char) :
    lexFrom gap (c :: rest) =
      (⟨gap, .mark, [c]⟩ :: (lexFrom [] rest).1, (lexFrom [] rest).2) := by
  have hall : c ∈ ['[', ']', '{', '}', ',', ':', '=', '-', '+'] :=
    List.mem_append_left [':', '=', '-', '+'] hc
  refine lexFrom_mark hall ?_ gap
  simp only [List.mem_cons, List.not_mem_nil, or_false] at hc
  obtain rfl | rfl | rfl | rfl | rfl := hc <;> rfl

/-- Colons and signs are marks of their own, unless a sign for an assignment or an arrow goes on. -/
theorem lexFrom_sign {c : Char} {rest : List Char} (hc : c ∈ [':', '-', '+'])
    (hr : ∀ d ∈ rest.head?, d ≠ '=' ∧ d ≠ '>') (gap : List Char) :
    lexFrom gap (c :: rest) =
      (⟨gap, .mark, [c]⟩ :: (lexFrom [] rest).1, (lexFrom [] rest).2) := by
  have hall : ∀ c ∈ [':', '-', '+'], c ∈ ['[', ']', '{', '}', ',', ':', '=', '-', '+'] :=
    forall_mem_of_all (by decide)
  refine lexFrom_mark (hall c hc) ?_ gap
  have hnone : markTexts.find? (fun m => m.isPrefixOf (c :: rest)) = none := by
    simp only [List.mem_cons, List.not_mem_nil, or_false] at hc
    cases rest with
    | nil => rcases hc with rfl | rfl | rfl <;> rfl
    | cons d rest =>
      obtain ⟨heq, hgt⟩ := hr d rfl
      rcases hc with rfl | rfl | rfl <;> simp [markTexts, Ne.symm heq, Ne.symm hgt]
  rw [markLength, hnone]

/-! The text that tokens spell -/

theorem spell_append (ts us : List Token) : spell (ts ++ us) = spell ts ++ spell us :=
  List.flatMap_append

theorem spell_absorb (t : Token) (ts : List Token) :
    spell (absorb t ts) = t.spelling ++ spell ts := by
  cases ts with
  | nil => simp [absorb, spell]
  | cons s r =>
    rw [absorb]
    split <;> simp [spell, Token.spelling]

theorem spell_lexFrom (gap cs : List Char) :
    spell (lexFrom gap cs).1 ++ (lexFrom gap cs).2 = gap ++ cs := by
  induction gap, cs using lexFrom.induct with
  | case1 gap =>
    rw [lexFrom.eq_def, List.append_nil]
    rfl
  | case2 gap c r hgap ih =>
    rw [lexFrom_gap hgap, ih, List.append_assoc, List.singleton_append]
  | case3 gap c r hgap kind n hmunch ts tail hrest ih =>
    rw [hrest] at ih
    rw [lexFrom.eq_def]
    simp only [hgap, Bool.false_eq_true, if_false, hmunch, hrest]
    rw [spell_absorb, List.append_assoc, ih, Token.spelling]
    simp

/-- The tokens of a text spell it, but for the blank text at its end. -/
theorem spell_lex_isPrefix (cs : List Char) : spell (lex cs) <+: cs :=
  ⟨(lexFrom [] cs).2, spell_lexFrom [] cs⟩

/-! What a joint in front of a string becomes -/

theorem absorb_eq_cons {t : Token} {ts : List Token}
    (h : t.kind = .joint → ∀ s ∈ ts.head?, s.kind ≠ .string) : absorb t ts = t :: ts := by
  cases ts with
  | nil => rfl
  | cons s ts =>
    rw [absorb, if_neg]
    simp only [Bool.and_eq_true, decide_eq_true_eq]
    exact fun hj => h hj.1 s rfl hj.2

theorem absorb_cases (t : Token) (ts : List Token) :
    (absorb t ts = t :: ts ∧ (t.kind = .joint → ∀ s ∈ ts.head?, s.kind ≠ .string)) ∨
      ∃ s r, ts = s :: r ∧ t.kind = .joint ∧ s.kind = .string ∧
        absorb t ts = { s with gap := t.gap ++ t.text ++ s.gap } :: r := by
  cases ts with
  | nil => exact .inl ⟨rfl, by simp⟩
  | cons s r =>
    by_cases h : t.kind = .joint ∧ s.kind = .string
    · exact .inr ⟨s, r, rfl, h.1, h.2, by simp [absorb, h.1, h.2]⟩
    · have hj : t.kind = .joint → ∀ u ∈ (s :: r).head?, u.kind ≠ .string := fun hj u hu hk => by
        obtain rfl : s = u := by simpa using hu
        exact h ⟨hj, hk⟩
      exact .inl ⟨absorb_eq_cons hj, hj⟩

/-! Kinds of numbers -/

theorem kind_plainNumber (cs : List Char) : (plainNumber cs).1 ≠ .string := by
  unfold plainNumber
  dsimp only
  split
  · simp
  · split <;> simp

theorem kind_numberLength (cs : List Char) : (numberLength cs).1 ≠ .string := by
  unfold numberLength
  split
  · split
    · dsimp only
      split
      · exact kind_plainNumber _
      · simp
    · exact kind_plainNumber _
  · exact kind_plainNumber _

/-- A string is told by the letters and the mark at its start. -/
theorem stringToken?_of_string {c : Char} {cs : List Char} {n : Nat}
    (h : munch c cs = (.string, n)) :
    startsText c = true ∧ stringToken? (c :: cs) = some (.string, n) := by
  have hs : startsText c = true := startsText_of_kind cs (by simp [h])
  refine ⟨hs, ?_⟩
  rw [munch_eq hs] at h
  cases ht : stringToken? (c :: cs) with
  | some r => rw [ht] at h; exact congrArg some h
  | none =>
    rw [ht] at h
    dsimp only at h
    split at h
    · cases h
    split at h
    · exact absurd (congrArg Prod.fst h) (kind_numberLength _)
    split at h <;> cases h

/-! Tokens of given texts -/

deriving instance DecidableEq for Token

/-- The lexer with a bound on its steps. -/
def lexWithin : Nat → List Char → List Char → List Token × List Char
  | 0, gap, _ => ([], gap)
  | _ + 1, gap, [] => ([], gap)
  | n + 1, gap, c :: r =>
    if isGap c then lexWithin n (gap ++ [c]) r
    else
      let (kind, k) := munch c r
      let (ts, tail) := lexWithin n [] (r.drop k)
      (absorb ⟨gap, kind, c :: r.take k⟩ ts, tail)

theorem lexWithin_eq {n : Nat} {cs : List Char} (h : cs.length ≤ n) (gap : List Char) :
    lexWithin n gap cs = lexFrom gap cs := by
  induction n generalizing gap cs with
  | zero =>
    rw [List.eq_nil_of_length_eq_zero (Nat.le_zero.1 h), lexFrom.eq_def]
    rfl
  | succ n ih =>
    cases cs with
    | nil =>
      rw [lexFrom.eq_def]
      rfl
    | cons c r =>
      have hr : r.length ≤ n := Nat.le_of_succ_le_succ h
      have hdrop : (r.drop (munch c r).2).length ≤ n := (List.drop_sublist _ r).length_le.trans hr
      rw [lexWithin, lexFrom.eq_def]
      dsimp only
      rw [ih hr, ih hdrop]

theorem lex_eq_lexWithin (cs : List Char) : lex cs = (lexWithin cs.length [] cs).1 := by
  rw [lexWithin_eq le_rfl]
  rfl

end Pipewright.Source
