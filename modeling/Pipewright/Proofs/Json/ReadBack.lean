import Pipewright.Json.Reader
import Pipewright.Json.Writer
import Pipewright.Proofs.Text.Numerals

/-! Compact JSON texts are read back as the values they were written for, up to the depth of
nesting that the reader allows. -/
namespace Pipewright.Json
open Text

/-- Values without doubles, whose integers keep their form in a text. -/
inductive Exact : Json → Prop where
  | null : Exact .null
  | bool (b : Bool) : Exact (.bool b)
  | int {i : Int} (low : -(Nat.pow 2 63 : Nat) ≤ i) (high : i < (Nat.pow 2 64 : Nat)) :
      Exact (.int i)
  | str (s : String) : Exact (.str s)
  | arr {items : List Json} (h : ∀ v ∈ items, Exact v) : Exact (.arr items)
  | obj {ms : List (String × Json)} (h : ∀ m ∈ ms, Exact m.2) : Exact (.obj ms)

mutual
/-- How many collections stand within each other. -/
def nesting : Json → Nat
  | .arr items => itemNesting items + 1
  | .obj ms => memberNesting ms + 1
  | _ => 0

def itemNesting : List Json → Nat
  | [] => 0
  | v :: r => max (nesting v) (itemNesting r)

def memberNesting : List (String × Json) → Nat
  | [] => 0
  | (_, v) :: r => max (nesting v) (memberNesting r)
end

theorem itemNesting_le {items : List Json} {d : Nat} :
    itemNesting items ≤ d ↔ ∀ v ∈ items, v.nesting ≤ d := by
  induction items with
  | nil => simp [itemNesting]
  | cons v items ih => rw [itemNesting, Nat.max_le, ih, List.forall_mem_cons]

theorem memberNesting_le {ms : List (String × Json)} {d : Nat} :
    memberNesting ms ≤ d ↔ ∀ m ∈ ms, m.2.nesting ≤ d := by
  induction ms with
  | nil => simp [memberNesting]
  | cons m ms ih => rw [memberNesting, Nat.max_le, ih, List.forall_mem_cons]

theorem ite_max_le {α : Type*} (a b d : Nat) (x : Option α) :
    (if max a b ≤ d then x else none) = if a ≤ d then if b ≤ d then x else none else none := by
  by_cases ha : a ≤ d
  · rw [if_pos ha]
    exact if_congr (Nat.max_le.trans (and_iff_right ha)) rfl rfl
  · rw [if_neg ha, if_neg fun h => ha (Nat.max_le.1 h).1]

/-! Strings -/

/-- A control character is written with the two hexadecimal digits of its code. -/
theorem escape?_control {n : Nat} (h : n < 32) (r : List Char) :
    escape? ('u' :: '0' :: '0' :: hexDigit (n / 16) :: hexDigit (n % 16) :: r) =
      some (Char.ofNat n, r) := by
  have hcode : ∀ n < 32, number? 16 ['0', '0', hexDigit (n / 16), hexDigit (n % 16)] = some n := by
    decide
  have hlow : isLowSurrogate n = false := by
    simp [isLowSurrogate]
    omega
  have hhigh : isHighSurrogate n = false := by
    simp [isHighSurrogate]
    omega
  simp [escape?, fourHex?, hcode n h, hlow, hhigh]

/-- A character is written as itself, or as an escape that is read as it. -/
theorem escapeChar_cases (c : Char) :
    (escapeChar c = [c] ∧ c ≠ '"' ∧ c ≠ '\\' ∧ 0x20 ≤ c.toNat) ∨
      ∃ cs, escapeChar c = '\\' :: cs ∧ (∀ d ∈ cs, 0x20 ≤ d.toNat) ∧
        ∀ r, escape? (cs ++ r) = some (c, r) := by
  by_cases hs : c ∈ ['"', '\\', '\n', '\r', '\t', '\x08', '\x0c']
  · refine .inr ?_
    simp only [List.mem_cons, List.not_mem_nil, or_false] at hs
    rcases hs with rfl | rfl | rfl | rfl | rfl | rfl | rfl
    all_goals exact ⟨[_], rfl, forall_mem_of_all (by decide), fun _ => rfl⟩
  simp only [List.mem_cons, List.not_mem_nil, or_false, not_or] at hs
  by_cases hc : c.toNat < 32
  · have hdigits : ∀ n < 32,
        0x20 ≤ (hexDigit (n / 16)).toNat ∧ 0x20 ≤ (hexDigit (n % 16)).toNat := by
      decide
    refine .inr ⟨['u', '0', '0', hexDigit (c.toNat / 16), hexDigit (c.toNat % 16)],
      by simp [escapeChar, hs, hc], ?_, fun r => ?_⟩
    · simpa using hdigits _ hc
    · simpa using escape?_control hc r
  · exact .inl ⟨by simp [escapeChar, hs, hc], hs.1, hs.2.1, by omega⟩

theorem readChars_escapeChar (c : Char) (n : Nat) (r : List Char) :
    readChars (n + 1) (escapeChar c ++ r) = (readChars n r).map fun (s, r) => (c :: s, r) := by
  obtain ⟨he, hq, hb, hc⟩ | ⟨cs, he, -, hread⟩ := escapeChar_cases c
  · rw [he, List.singleton_append, readChars, if_neg hq, if_neg hb, if_neg (by omega)]
  · rw [he, List.cons_append, readChars, if_neg (by decide), if_pos rfl, hread]

theorem readChars_quoteChars (cs : List Char) {n : Nat} (h : cs.length < n) (rest : List Char) :
    readChars n (quoteChars cs ++ '"' :: rest) = some (cs, rest) := by
  induction cs generalizing n with
  | nil =>
    obtain ⟨n, rfl⟩ := Nat.exists_eq_add_one.2 (Nat.zero_lt_of_lt h)
    rw [quoteChars, List.nil_append, readChars, if_pos rfl]
  | cons c cs ih =>
    obtain ⟨n, rfl⟩ := Nat.exists_eq_add_one.2 (Nat.zero_lt_of_lt h)
    rw [quoteChars, List.append_assoc, readChars_escapeChar, ih (Nat.lt_of_succ_lt_succ h)]
    rfl

theorem length_le_quoteChars (cs : List Char) : cs.length ≤ (quoteChars cs).length := by
  induction cs with
  | nil => simp
  | cons c cs ih =>
    have hpos : 0 < (escapeChar c).length := by
      obtain ⟨he, -⟩ | ⟨_, he, -⟩ := escapeChar_cases c <;> simp [he]
    rw [quoteChars, List.length_append, List.length_cons]
    omega

theorem readString_quoteChars (s : String) (rest : List Char) :
    readString (quoteChars s.toList ++ '"' :: rest) = some (s, rest) := by
  have hlen := length_le_quoteChars s.toList
  rw [readString, readChars_quoteChars s.toList (by simp; omega)]
  simp

/-! Numbers -/

/-- Whether a text goes on with a mark that ends a value, if it goes on. -/
def Ended (rest : List Char) : Prop := ∀ c ∈ rest.head?, c ∈ [',', ']', '}']

theorem ended_nil : Ended [] := by simp [Ended]

theorem ended_cons {c : Char} (h : c ∈ [',', ']', '}']) (rest : List Char) : Ended (c :: rest) := by
  simpa [Ended] using h

theorem Ended.head_not {rest : List Char} (h : Ended rest) {p : Char → Bool}
    (hp : [',', ']', '}'].any p = false) : ∀ c ∈ rest.head?, p c = false :=
  fun c hc => Bool.eq_false_iff.2 (List.any_eq_false.1 hp c (h c hc))

/-- Behind a whole number stands neither a fraction nor an exponent. -/
theorem Ended.no_decimals {rest : List Char} (h : Ended rest) :
    readFraction rest = some ([], rest) ∧ readExponent rest = some (none, rest) := by
  cases rest with
  | nil => exact ⟨rfl, rfl⟩
  | cons c rest =>
    have hc : c ∈ [',', ']', '}'] := h c rfl
    simp only [List.mem_cons, List.not_mem_nil, or_false] at hc
    obtain rfl | rfl | rfl := hc <;> exact ⟨rfl, rfl⟩

/-- A number with a leading zero has no other digit. -/
theorem length_of_head?_toDigits {n : Nat} (h : (Nat.toDigits 10 n).head? = some '0') :
    (Nat.toDigits 10 n).length = 1 := by
  obtain rfl := eq_zero_of_head?_toDigits h
  rfl

theorem readNumber_toDigits (n : Nat) {rest : List Char} (h : Ended rest) :
    readNumber (Nat.toDigits 10 n ++ rest) = (wholeNumber? false n).map (·, rest) ∧
      readNumber ('-' :: (Nat.toDigits 10 n ++ rest)) = (wholeNumber? true n).map (·, rest) := by
  have htake : (Nat.toDigits 10 n ++ rest).takeWhile isDigit = Nat.toDigits 10 n :=
    takeWhile_append (fun _ hc => isDigit_of_mem_toDigits hc) (h.head_not (by decide))
  have hdrop : (Nat.toDigits 10 n ++ rest).dropWhile isDigit = rest :=
    dropWhile_append (fun _ hc => isDigit_of_mem_toDigits hc) (h.head_not (by decide))
  have hlead : ¬((Nat.toDigits 10 n).head? = some '0' ∧ ¬(Nat.toDigits 10 n).length = 1) :=
    fun h => h.2 (length_of_head?_toDigits h.1)
  obtain ⟨hf, he⟩ := h.no_decimals
  constructor
  · -- Digits do not start with the sign, so they are read as they stand.
    rw [readNumber]
    · simp [htake, hdrop, hlead, hf, he, number?_toDigits, Option.map_eq_bind, Function.comp_def]
    · intro r hr
      obtain ⟨c, cs, hn, hc, -⟩ := exists_toDigits n
      rw [hn, List.cons_append, List.cons.injEq] at hr
      exact of_isDigit (p := fun d => d ≠ '-') hc (by decide) hr.1
  · rw [readNumber]
    simp [htake, hdrop, hlead, hf, he, number?_toDigits, Option.map_eq_bind, Function.comp_def]

/-! Values -/

theorem skipSpace_of_head {c : Char} (h : isSpace c = false) (r : List Char) :
    skipSpace (c :: r) = c :: r := by
  simp [skipSpace, h]

/-- Whether the text of a value is read back in front of whatever may follow it, if enough
collections may still be opened. -/
structure ReadsBack (v : Json) : Prop where
  starts : ∃ c cs, chars v = c :: cs ∧ isSpace c = false ∧ c ≠ ']'
  reads : ∀ n d rest, (chars v).length ≤ n → Ended rest →
    readValue n d (chars v ++ rest) = if nesting v ≤ d then some (v, rest) else none

theorem chars_ofNat (k : Nat) : chars (.int (.ofNat k)) = Nat.toDigits 10 k := by
  rw [← toString_ofNat]
  rfl

theorem chars_negSucc (k : Nat) : chars (.int (.negSucc k)) = '-' :: Nat.toDigits 10 (k + 1) := by
  rw [← toString_negSucc]
  rfl

theorem readValue_number {c : Char} (h : isDigit c = true ∨ c = '-') (n d : Nat) (r : List Char) :
    readValue (n + 1) d (c :: r) = readNumber (c :: r) := by
  have hother : isSpace c = false ∧ c ∉ ['n', 't', 'f', '"', '[', '{'] := by
    obtain hc | rfl := h
    · exact of_isDigit (p := fun c => isSpace c = false ∧ c ∉ ['n', 't', 'f', '"', '[', '{']) hc
        (by decide)
    · decide
  obtain ⟨hspace, hne⟩ := hother
  simp only [List.mem_cons, List.not_mem_nil, or_false, not_or] at hne
  rw [readValue, skipSpace_of_head hspace]
  split <;> simp_all

theorem readsBack_int {i : Int} (low : -(Nat.pow 2 63 : Nat) ≤ i)
    (high : i < (Nat.pow 2 64 : Nat)) : ReadsBack (.int i) := by
  cases i with
  | ofNat k =>
    have hk : k < Nat.pow 2 64 := Int.ofNat_lt.1 high
    obtain ⟨c, cs, hd, hc, -⟩ := exists_toDigits k
    have hstart : isSpace c = false ∧ c ≠ ']' :=
      of_isDigit (p := fun c => isSpace c = false ∧ c ≠ ']') hc (by decide)
    refine ⟨⟨c, cs, (chars_ofNat k).trans hd, hstart⟩, fun n d rest hn hr => ?_⟩
    rw [chars_ofNat, hd] at hn
    obtain ⟨n, rfl⟩ := Nat.exists_eq_add_one.2 (Nat.zero_lt_of_lt hn)
    have hnum := (readNumber_toDigits k hr).1
    rw [chars_ofNat, hd, List.cons_append, readValue_number (.inl hc), ← List.cons_append, ← hd,
      hnum, wholeNumber?, if_neg (by decide), if_pos hk]
    simp [nesting]
  | negSucc k =>
    have hk : k + 1 ≤ Nat.pow 2 63 := by
      rw [Int.negSucc_eq] at low
      omega
    refine ⟨⟨_, _, chars_negSucc k, by decide, by decide⟩, fun n d rest hn hr => ?_⟩
    rw [chars_negSucc] at hn ⊢
    obtain ⟨n, rfl⟩ := Nat.exists_eq_add_one.2 (Nat.zero_lt_of_lt hn)
    rw [List.cons_append, readValue_number (.inr rfl), (readNumber_toDigits (k + 1) hr).2,
      wholeNumber?, if_pos rfl]
    simp [hk, nesting, Int.negSucc_eq]

theorem readsBack_str (s : String) : ReadsBack (.str s) := by
  refine ⟨⟨'"', quoteChars s.toList ++ ['"'], rfl, by decide, by decide⟩, fun n d rest hn _ => ?_⟩
  have hchars : chars (.str s) = '"' :: (quoteChars s.toList ++ ['"']) := rfl
  rw [hchars] at hn ⊢
  obtain ⟨n, rfl⟩ := Nat.exists_eq_add_one.2 (Nat.zero_lt_of_lt hn)
  have hread := readString_quoteChars s rest
  simp [readValue, skipSpace_of_head, isSpace, hread, nesting]

/-! Collections -/

/-- One item and the mark behind it. -/
theorem readItems_value {v : Json} (h : ReadsBack v) {n d : Nat} (hn : (chars v).length ≤ n)
    {c : Char} (hc : c = ']' ∨ c = ',') (rest : List Char) :
    readItems (n + 1) d (chars v ++ c :: rest) =
      if nesting v ≤ d then
        if c = ']' then some ([v], rest)
        else (readItems n d rest).map fun (vs, r) => (v :: vs, r)
      else none := by
  rw [readItems, h.reads n d _ hn (ended_cons (by obtain rfl | rfl := hc <;> decide) rest)]
  by_cases hd : nesting v ≤ d
  · obtain rfl | rfl := hc <;> simp [hd, skipSpace_of_head, isSpace]
  · simp [hd]

theorem readItems_chars {items : List Json} (h : ∀ v ∈ items, ReadsBack v) (hne : items ≠ [])
    {n : Nat} (hn : (itemChars items).length < n) (d : Nat) (rest : List Char) :
    readItems n d (itemChars items ++ ']' :: rest) =
      if itemNesting items ≤ d then some (items, rest) else none := by
  -- Each item takes one unit of fuel; the text of those behind it leaves enough for them.
  induction items generalizing n with
  | nil => exact absurd rfl hne
  | cons v items ih =>
    obtain ⟨n, rfl⟩ := Nat.exists_eq_add_one.2 (Nat.zero_lt_of_lt hn)
    obtain ⟨hv, hitems⟩ := List.forall_mem_cons.1 h
    cases items with
    | nil =>
      rw [itemChars] at hn ⊢
      rw [readItems_value hv (Nat.le_of_lt_succ hn) (.inl rfl)]
      simp [itemNesting]
    | cons w items =>
      have hlen : (chars v).length + (itemChars (w :: items)).length < n := by
        simp only [itemChars, List.length_append, List.length_cons] at hn ⊢
        omega
      rw [itemChars, List.append_assoc, List.cons_append,
        readItems_value hv (by omega) (.inr rfl), ih hitems (List.cons_ne_nil w items) (by omega),
        itemNesting.eq_2 v, ite_max_le]
      refine if_congr Iff.rfl ?_ rfl
      rw [if_neg (by decide)]
      split <;> rfl

theorem readsBack_arr {items : List Json} (h : ∀ v ∈ items, ReadsBack v) :
    ReadsBack (.arr items) := by
  refine ⟨⟨_, _, rfl, by decide, by decide⟩, fun n d rest hn _ => ?_⟩
  have hlen : (itemChars items).length + 2 ≤ n := by
    rwa [chars, List.length_cons, List.length_append] at hn
  obtain ⟨n, rfl⟩ := Nat.exists_eq_add_one.2 (Nat.zero_lt_of_lt hlen)
  rw [chars, List.cons_append, List.append_assoc, List.singleton_append, readValue,
    skipSpace_of_head (by decide), nesting]
  cases d with
  | zero => simp
  | succ d =>
    cases items with
    | nil => simp [itemChars, skipSpace_of_head, isSpace, itemNesting]
    | cons v items =>
      have hread := readItems_chars h (List.cons_ne_nil v items) (n := n) (by omega) d rest
      obtain ⟨c, cs, hstart, hspace, hne⟩ : ∃ c cs, itemChars (v :: items) = c :: cs ∧
          isSpace c = false ∧ c ≠ ']' := by
        obtain ⟨c, cs, hv, hc⟩ := (h v List.mem_cons_self).starts
        cases items with
        | nil => exact ⟨c, cs, hv, hc⟩
        | cons w items => exact ⟨c, _, by rw [itemChars, hv]; rfl, hc⟩
      rw [hstart, List.cons_append] at hread ⊢
      simp [skipSpace_of_head hspace, hne, hread]

/-- One member and the mark behind it. -/
theorem readMembers_member {v : Json} (h : ReadsBack v) (k : String) {n d : Nat}
    (hn : (chars v).length ≤ n) {c : Char} (hc : c = '}' ∨ c = ',') (rest : List Char) :
    readMembers (n + 1) d (quoteText k ++ ':' :: (chars v ++ c :: rest)) =
      if nesting v ≤ d then
        if c = '}' then some ([(k, v)], rest)
        else (readMembers n d rest).map fun (ms, r) => ((k, v) :: ms, r)
      else none := by
  have hname := readString_quoteChars k (':' :: (chars v ++ c :: rest))
  have hend : c ∈ [',', ']', '}'] := by obtain rfl | rfl := hc <;> decide
  have hread := h.reads n d (c :: rest) hn (ended_cons hend rest)
  rw [quoteText, List.cons_append, List.append_assoc, List.singleton_append, readMembers,
    skipSpace_of_head (by decide)]
  simp only [hname, skipSpace_of_head (c := ':') (by decide), hread]
  by_cases hd : nesting v ≤ d
  · obtain rfl | rfl := hc <;> simp [hd, skipSpace_of_head, isSpace]
  · simp [hd]

theorem readMembers_chars {ms : List (String × Json)} (h : ∀ m ∈ ms, ReadsBack m.2)
    (hne : ms ≠ []) {n : Nat} (hn : (memberChars ms).length < n) (d : Nat) (rest : List Char) :
    readMembers n d (memberChars ms ++ '}' :: rest) =
      if memberNesting ms ≤ d then some (ms, rest) else none := by
  induction ms generalizing n with
  | nil => exact absurd rfl hne
  | cons m ms ih =>
    obtain ⟨k, v⟩ := m
    obtain ⟨n, rfl⟩ := Nat.exists_eq_add_one.2 (Nat.zero_lt_of_lt hn)
    obtain ⟨hv, hms⟩ := List.forall_mem_cons.1 h
    change ReadsBack v at hv
    cases ms with
    | nil =>
      have hlen : (chars v).length ≤ n := by
        simp only [memberChars, List.length_append, List.length_cons] at hn
        omega
      rw [memberChars, List.append_assoc, List.cons_append,
        readMembers_member hv k hlen (.inl rfl)]
      simp [memberNesting]
    | cons m ms =>
      have hlen : (chars v).length + (memberChars (m :: ms)).length < n := by
        simp only [memberChars, List.length_append, List.length_cons] at hn ⊢
        omega
      rw [memberChars, List.append_assoc, List.cons_append, List.append_assoc, List.cons_append,
        readMembers_member hv k (by omega) (.inr rfl),
        ih hms (List.cons_ne_nil m ms) (by omega), memberNesting.eq_2 k v, ite_max_le]
      refine if_congr Iff.rfl ?_ rfl
      rw [if_neg (by decide)]
      split <;> rfl

theorem readsBack_obj {ms : List (String × Json)} (h : ∀ m ∈ ms, ReadsBack m.2) :
    ReadsBack (.obj ms) := by
  refine ⟨⟨_, _, rfl, by decide, by decide⟩, fun n d rest hn _ => ?_⟩
  have hlen : (memberChars ms).length + 2 ≤ n := by
    rwa [chars, List.length_cons, List.length_append] at hn
  obtain ⟨n, rfl⟩ := Nat.exists_eq_add_one.2 (Nat.zero_lt_of_lt hlen)
  rw [chars, List.cons_append, List.append_assoc, List.singleton_append, readValue,
    skipSpace_of_head (by decide), nesting]
  cases d with
  | zero => simp
  | succ d =>
    cases ms with
    | nil => simp [memberChars, skipSpace_of_head, isSpace, memberNesting]
    | cons m ms =>
      have hread := readMembers_chars h (List.cons_ne_nil m ms) (n := n) (by omega) d rest
      obtain ⟨cs, hstart⟩ : ∃ cs, memberChars (m :: ms) = '"' :: cs := by
        cases ms <;> exact ⟨_, rfl⟩
      rw [hstart, List.cons_append] at hread ⊢
      simp [skipSpace_of_head, isSpace, hread]

theorem readsBack_word {v : Json} (h : v = .null ∨ v = .bool true ∨ v = .bool false) :
    ReadsBack v := by
  obtain rfl | rfl | rfl := h
  all_goals
    refine ⟨⟨_, _, rfl, by decide, by decide⟩, fun n d rest hn _ => ?_⟩
    obtain ⟨n, rfl⟩ := Nat.exists_eq_add_one.2 (Nat.zero_lt_of_lt hn)
    simp [chars, scalarText, readValue, skipSpace_of_head, isSpace, nesting]

theorem Exact.readsBack {v : Json} (h : Exact v) : ReadsBack v := by
  induction h with
  | null => exact readsBack_word (.inl rfl)
  | bool b => exact readsBack_word (by cases b <;> simp)
  | int low high => exact readsBack_int low high
  | str s => exact readsBack_str s
  | arr _ ih => exact readsBack_arr ih
  | obj _ ih => exact readsBack_obj ih

/-- The compact text of a value is read as the value if at most 127 collections stand within each
other, and as nothing otherwise. -/
theorem readRaw?_compact {v : Json} (h : Exact v) :
    readRaw? v.compact = if v.nesting ≤ 127 then some v else none := by
  have hread := h.readsBack.reads (2 * (chars v).length + 2) 127 [] (by omega) ended_nil
  rw [List.append_nil] at hread
  simp only [readRaw?, compact, String.toList_ofList, hread]
  by_cases hn : v.nesting ≤ 127 <;> simp [hn, skipSpace]

/-! Compact texts show all their characters. -/

theorem shown_escapeChar (c : Char) : ∀ d ∈ escapeChar c, 0x20 ≤ d.toNat := by
  obtain ⟨he, -, -, hc⟩ | ⟨cs, he, hcs, -⟩ := escapeChar_cases c
  · simpa [he] using hc
  · rw [he]
    exact List.forall_mem_cons.2 ⟨by decide, hcs⟩

theorem shown_quoteText (s : String) : ∀ c ∈ quoteText s, 0x20 ≤ c.toNat := by
  have hall : ∀ cs : List Char, ∀ c ∈ quoteChars cs, 0x20 ≤ c.toNat := by
    intro cs
    induction cs with
    | nil => simp [quoteChars]
    | cons c cs ih => exact List.forall_mem_append.2 ⟨shown_escapeChar c, ih⟩
  exact List.forall_mem_cons.2 
    ⟨by decide, List.forall_mem_append.2 ⟨hall _, forall_mem_of_all (by decide)⟩⟩

theorem shown_items {items : List Json} (h : ∀ v ∈ items, ∀ c ∈ chars v, 0x20 ≤ c.toNat) :
    ∀ c ∈ itemChars items, 0x20 ≤ c.toNat := by
  induction items with
  | nil => simp [itemChars]
  | cons v items ih =>
    obtain ⟨hv, hitems⟩ := List.forall_mem_cons.1 h
    cases items with
    | nil => exact hv
    | cons w items =>
      rw [itemChars]
      exact List.forall_mem_append.2 ⟨hv, List.forall_mem_cons.2 ⟨by decide, ih hitems⟩⟩

theorem shown_members {ms : List (String × Json)}
    (h : ∀ m ∈ ms, ∀ c ∈ chars m.2, 0x20 ≤ c.toNat) :
    ∀ c ∈ memberChars ms, 0x20 ≤ c.toNat := by
  induction ms with
  | nil => simp [memberChars]
  | cons m ms ih =>
    obtain ⟨k, v⟩ := m
    obtain ⟨hv, hms⟩ := List.forall_mem_cons.1 h
    cases ms with
    | nil =>
      rw [memberChars]
      exact List.forall_mem_append.2
        ⟨shown_quoteText k, List.forall_mem_cons.2 ⟨by decide, hv⟩⟩
    | cons m ms =>
      rw [memberChars]
      refine List.forall_mem_append.2
        ⟨shown_quoteText k, List.forall_mem_cons.2 ⟨by decide, ?_⟩⟩
      exact List.forall_mem_append.2 ⟨hv, List.forall_mem_cons.2 ⟨by decide, ih hms⟩⟩

theorem Exact.shown {v : Json} (h : Exact v) : ∀ c ∈ chars v, 0x20 ≤ c.toNat := by
  have hdigits : ∀ n, ∀ c ∈ Nat.toDigits 10 n, 0x20 ≤ c.toNat := fun n c hc =>
    of_isDigit (p := fun c => 0x20 ≤ c.toNat) (isDigit_of_mem_toDigits hc) (by decide)
  induction h with
  | null => exact forall_mem_of_all (by decide)
  | bool b => cases b <;> exact forall_mem_of_all (by decide)
  | @int i =>
    cases i with
    | ofNat n =>
      rw [chars_ofNat]
      exact hdigits n
    | negSucc n =>
      rw [chars_negSucc]
      exact List.forall_mem_cons.2 ⟨by decide, hdigits (n + 1)⟩
  | str s => exact shown_quoteText s
  | arr _ ih =>
    rw [chars]
    exact List.forall_mem_cons.2 ⟨by decide,
      List.forall_mem_append.2 ⟨shown_items ih, forall_mem_of_all (by decide)⟩⟩
  | obj _ ih =>
    rw [chars]
    exact List.forall_mem_cons.2 ⟨by decide,
      List.forall_mem_append.2 ⟨shown_members ih, forall_mem_of_all (by decide)⟩⟩

end Pipewright.Json
