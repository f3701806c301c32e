import Pipewright.Literal.Reader
import Pipewright.Proofs.Literal.Tokens

/-! A printed value is read back as the value. -/
namespace Pipewright.Literal
open Text Source

/-! Numbers and strings -/

theorem lower_digit {c : Char} (h : isDigit c = true) : lower c = c :=
  of_isDigit (p := fun d => lower d = d) h (by decide)

theorem digitValue?_lower {c : Char} (h : isHexDigit c = true) :
    digitValue? (lower c) = digitValue? c :=
  of_isHexDigit (p := fun d => digitValue? (lower d) = digitValue? d) h (by decide)

theorem numberFrom?_lower {base n : Nat} {ds : List Char} (h : ∀ c ∈ ds, isHexDigit c = true) :
    numberFrom? base n (ds.map lower) = numberFrom? base n ds := by
  induction ds generalizing n with
  | nil => rfl
  | cons c ds ih =>
    obtain ⟨hc, hds⟩ := List.forall_mem_cons.1 h
    simp only [List.map_cons, numberFrom?, digitValue?_lower hc, ih hds]

theorem number?_lower {base : Nat} {ds : List Char} (h : ∀ c ∈ ds, isHexDigit c = true) :
    number? base (ds.map lower) = number? base ds := by
  rw [number?, number?, numberFrom?_lower h, List.isEmpty_map]

/-- A number is read as what it is written for, if it fits. -/
theorem wholeValue?_numeral {w : List Char} {n : Nat} (h : Numeral w n) :
    wholeValue? w = if n < Nat.pow 2 63 then some (.int n) else Option.none := by
  cases h with
  | @decimal w ds n h _ hvalue =>
    have hfilter := h.filter (by decide)
    have hdigits := h.digits
    have hlower : ds.map lower = ds :=
      (List.map_congr_left fun c hc => lower_digit (hdigits c hc)).trans (List.map_id _)
    -- No digit is the mark of another base, so all other cases of the reader are out.
    have hmark : ∀ c r m, ds = c :: m :: r → m ∉ ['x', 'o', 'b'] := by
      intro c r m he
      have hm : isDigit m = true := hdigits m (he ▸ by simp)
      exact of_isDigit (p := fun d => d ∉ ['x', 'o', 'b']) hm (by decide)
    unfold wholeValue?
    simp only [hfilter, hlower]
    split
    · exact absurd (by simp) (hmark _ _ _ rfl)
    · exact absurd (by simp) (hmark _ _ _ rfl)
    · exact absurd (by simp) (hmark _ _ _ rfl)
    · rw [hvalue, Option.bind_some]
  | @based m base u w ds n hm hu h hvalue =>
    have hdigits : ∀ c ∈ ds, isHexDigit c = true := fun c hc =>
      isHexDigit_of_isDigitOf (h.digits c hc)
    have hmark : ∀ b ∈ bases, b.1 ≠ '_' := by decide
    have hfilter : ('0' :: m :: (u ++ w)).filter (fun c => c ≠ '_') = '0' :: m :: ds := by
      have hw := h.filter (isDigitOf_underscore base)
      have hm := hmark _ hm
      rcases hu with rfl | rfl <;> simpa [hm] using hw
    have hnumber : number? base (ds.map lower) = some n := (number?_lower hdigits).trans hvalue
    have hbind : (number? base (ds.map lower)).bind (fun n =>
        if n < Nat.pow 2 63 then some (.int n) else Option.none) =
          if n < Nat.pow 2 63 then some (Literal.int n) else Option.none := by
      rw [hnumber, Option.bind_some]
    unfold wholeValue?
    simp only [hfilter, List.map_cons]
    simp only [bases, List.mem_cons, List.not_mem_nil, or_false, Prod.mk.injEq] at hm
    rcases hm with h | h | h | h | h | h <;> obtain ⟨rfl, rfl⟩ := h <;> exact hbind

/-- What stands between quotes of one mark each. -/
theorem splitString_single {mark : Char} {w : List Char} (hm : mark = '\'' ∨ mark = '"')
    (hhead : ∀ c ∈ w.head?, c ≠ mark) : splitString (mark :: (w ++ [mark])) = ([], w) := by
  have hwidth : ∀ r, mark :: (w ++ [mark]) ≠ mark :: mark :: mark :: r := by
    intro r he
    cases w with
    | nil => simp at he
    | cons c w =>
      rw [List.cons_append, List.cons.injEq, List.cons.injEq] at he
      exact hhead c rfl he.2.1
  have hletter : isAsciiLetter mark = false := by rcases hm with rfl | rfl <;> decide
  have hbody : (mark :: (w ++ [mark])).dropWhile isAsciiLetter = mark :: (w ++ [mark]) := by
    rw [List.dropWhile_cons_of_neg (by simp [hletter])]
  have hlead : (mark :: (w ++ [mark])).takeWhile isAsciiLetter = [] := by
    rw [List.takeWhile_cons_of_neg (by simp [hletter])]
  unfold splitString
  simp only [hlead, hbody]
  split
  · rename_i r he
    cases (List.cons.inj he).1
    exact absurd he (hwidth r)
  · rename_i r he
    cases (List.cons.inj he).1
    exact absurd he (hwidth r)
  · simp

/-- A string in quotes of one kind is read as what it is written for. -/
theorem joinStrings?_written {mark : Char} {w cs : List Char} (hm : mark = '\'' ∨ mark = '"')
    (h : Written mark w cs) (gap : List Char) :
    joinStrings? [⟨gap, .string, mark :: (w ++ [mark])⟩] = some (.str (String.ofList cs)) := by
  simp [joinStrings?, stringChars?, splitString_single hm (h.head hm), h.unescape]

theorem joinStrings?_quote (gap cs : List Char) :
    joinStrings? [⟨gap, .string, quote cs⟩] = some (.str (String.ofList cs)) :=
  joinStrings?_written (.inl rfl) (written_escapeAll cs) gap

/-! Tokens -/

@[simp] theorem isMark_mark (gap : List Char) (c : Char) (s : String) :
    (mark gap c).isMark s = decide ([c] = s.toList) := by
  simp only [Token.isMark, mark, decide_true, Bool.true_and]
  exact decide_eq_decide.2 Iff.rfl

@[simp] theorem kind_mark (gap : List Char) (c : Char) : (mark gap c).kind = .mark := rfl

/-- Whether a value is read off the front of its tokens: with fuel for each of them, and if no
string follows. -/
structure ReadsBack (v : Literal) : Prop where
  starts : ∀ gap, ∃ t ts, tokens gap v = t :: ts ∧ t.isMark "]" = false ∧ t.kind ≠ .joint
  reads : ∀ n gap rest, (tokens gap v).length ≤ n → (∀ t ∈ rest.head?, t.kind ≠ .string) →
    readValue n (tokens gap v ++ rest) = some (v, rest)

theorem skipJoints_of_head {t : Token} {ts : List Token} (h : t.kind ≠ .joint) :
    skipJoints (t :: ts) = t :: ts := by
  simp [skipJoints, h]

theorem ReadsBack.skipJoints {v : Literal} (h : ReadsBack v) (gap : List Char)
    (rest : List Token) : skipJoints (tokens gap v ++ rest) = tokens gap v ++ rest := by
  obtain ⟨t, ts, ht, -, hk⟩ := h.starts gap
  rw [ht, List.cons_append, skipJoints_of_head hk]

/-- A value of one token, which the reader takes as it stands. -/
theorem readsBack_token {v : Literal} {kind : TokenKind} {text : List Char}
    (ht : ∀ gap, tokens gap v = [⟨gap, kind, text⟩]) (hk : kind ≠ .mark) (hj : kind ≠ .joint)
    (h : ∀ n gap rest, (∀ t ∈ rest.head?, t.kind ≠ .string) →
      readValue (n + 1) (⟨gap, kind, text⟩ :: rest) = some (v, rest)) : ReadsBack v := by
  refine ⟨fun gap => ⟨_, _, ht gap, by simp [Token.isMark, hk], hj⟩, fun n gap rest hn hr => ?_⟩
  rw [ht] at hn ⊢
  obtain ⟨n, rfl⟩ := Nat.exists_eq_add_one.2 (Nat.zero_lt_of_lt hn)
  exact h n gap rest hr

theorem readsBack_str (s : String) : ReadsBack (.str s) := by
  refine readsBack_token (fun _ => rfl) (by decide) (by decide) fun n gap rest hr => ?_
  have ht : takeStrings rest = ([], rest) := by
    cases rest with
    | nil => rfl
    | cons t ts => simp [takeStrings, hr t rfl]
  simp [readValue, ht, joinStrings?_quote]

theorem readsBack_word {v : Literal} {text : List Char}
    (ht : ∀ gap, tokens gap v = [⟨gap, .word, text⟩])
    (hv : ∀ gap, wordValue? ⟨gap, .word, text⟩ = some v) : ReadsBack v :=
  readsBack_token ht (by decide) (by decide) fun n gap rest _ => by simp [readValue, hv]

theorem readValue_numeral {n : Nat} (hn : n < Nat.pow 2 63) (fuel : Nat) (gap : List Char)
    (rest : List Token) :
    readValue (fuel + 1) (⟨gap, .whole, Nat.toDigits 10 n⟩ :: rest) = some (.int n, rest) := by
  simp [readValue, (wholeValue?_numeral (numeral_toDigits n)).trans (if_pos hn)]

theorem readsBack_int {i : Int} (h : i.natAbs < Nat.pow 2 63) : ReadsBack (.int i) := by
  cases i with
  | ofNat n =>
    exact readsBack_token (fun _ => rfl) (by decide) (by decide) fun fuel gap rest _ =>
      readValue_numeral h fuel gap rest
  | negSucc n =>
    refine ⟨fun gap => ⟨_, _, rfl, by simp, by simp⟩, fun fuel gap rest hf _ => ?_⟩
    have hlen : 2 ≤ fuel := hf
    obtain ⟨m, rfl⟩ : ∃ m, fuel = m + 1 + 1 := ⟨fuel - 2, by omega⟩
    have hnum := readValue_numeral (n := n + 1) h m [] rest
    rw [tokens, intTokens, List.cons_append, List.singleton_append, readValue]
    simp [skipJoints, hnum, signed?, Int.negSucc_eq]

/-! Collections -/

/-- One item and the mark behind it. -/
theorem readItems_value {v : Literal} (h : ReadsBack v) {n : Nat} {gap : List Char}
    (hn : (tokens gap v).length ≤ n) {c : Char} (hc : c = ']' ∨ c = ',') (rest : List Token) :
    readItems (n + 1) "]" (tokens gap v ++ mark [] c :: rest) =
      if c = ']' then some ([v], false, rest)
      else (readItems n "]" rest).map fun (vs, comma, r) => (v :: vs, comma || vs.isEmpty, r) := by
  have hread := h.reads n gap (mark [] c :: rest) hn (by simp)
  obtain ⟨t, ts, ht, hclose, -⟩ := h.starts gap
  rw [ht, List.cons_append] at hread ⊢
  rw [readItems, hclose, hread]
  obtain rfl | rfl := hc <;> simp

theorem readItems_tokens {items : List Literal} (h : ∀ v ∈ items, ReadsBack v) (n : Nat)
    (gap : List Char) (rest : List Token) (hn : (itemTokens gap items).length < n) :
    readItems n "]" (itemTokens gap items ++ mark [] ']' :: rest) = some (items, false, rest) := by
  induction items generalizing n gap with
  | nil =>
    obtain ⟨n, rfl⟩ := Nat.exists_eq_add_one.2 (Nat.zero_lt_of_lt hn)
    simp [itemTokens, readItems]
  | cons v items ih =>
    obtain ⟨n, rfl⟩ := Nat.exists_eq_add_one.2 (Nat.zero_lt_of_lt hn)
    obtain ⟨hv, hitems⟩ := List.forall_mem_cons.1 h
    cases items with
    | nil =>
      rw [itemTokens] at hn ⊢
      rw [readItems_value hv (Nat.le_of_lt_succ hn) (.inl rfl)]
      rfl
    | cons w items =>
      have hlen : (tokens gap v).length + (itemTokens [' '] (w :: items)).length < n := by
        simp only [itemTokens, List.length_append, List.length_cons] at hn
        omega
      rw [itemTokens, List.append_assoc, List.cons_append,
        readItems_value hv (by omega) (.inr rfl), ih hitems n [' '] (by omega)]
      rfl

/-- One entry and the mark behind it. -/
theorem readEntries_entry {v : Literal} (h : ReadsBack v) (k : String) {n : Nat}
    {gap : List Char} (hn : (tokens [' '] v).length ≤ n) (hpos : 0 < n) {c : Char}
    (hc : c = '}' ∨ c = ',') (rest : List Token) :
    readEntries (n + 1) (⟨gap, .string, quote k.toList⟩ :: mark [] ':' ::
        (tokens [' '] v ++ mark [] c :: rest)) =
      if c = '}' then some ([(k, v)], rest)
      else (readEntries n rest).map fun (es, r) => ((k, v) :: es, r) := by
  have hkey := (readsBack_str k).reads n gap
    (mark [] ':' :: (tokens [' '] v ++ mark [] c :: rest)) hpos (by simp)
  have hread := h.reads n [' '] (mark [] c :: rest) hn (by simp)
  rw [tokens, List.singleton_append] at hkey
  rw [readEntries, hkey]
  have hfirst : (⟨gap, .string, quote k.toList⟩ : Token).isMark "\x7d" = false := by
    simp [Token.isMark]
  have hcolon : skipJoints (mark [] ':' :: (tokens [' '] v ++ mark [] c :: rest)) =
      mark [] ':' :: (tokens [' '] v ++ mark [] c :: rest) := skipJoints_of_head (by simp)
  simp only [hfirst, hcolon, h.skipJoints, hread, Option.map_some]
  obtain rfl | rfl := hc <;> simp [keyText]

theorem readEntries_tokens {entries : List (String × Literal)} (h : ∀ e ∈ entries, ReadsBack e.2)
    (n : Nat) (gap : List Char) (rest : List Token)
    (hn : (entryTokens gap entries).length < n) :
    readEntries n (entryTokens gap entries ++ mark [] '}' :: rest) = some (entries, rest) := by
  induction entries generalizing n gap with
  | nil =>
    obtain ⟨n, rfl⟩ := Nat.exists_eq_add_one.2 (Nat.zero_lt_of_lt hn)
    simp [entryTokens, readEntries]
  | cons e entries ih =>
    obtain ⟨k, v⟩ := e
    obtain ⟨n, rfl⟩ := Nat.exists_eq_add_one.2 (Nat.zero_lt_of_lt hn)
    obtain ⟨hv, hentries⟩ := List.forall_mem_cons.1 h
    change ReadsBack v at hv
    cases entries with
    | nil =>
      have hlen : (tokens [' '] v).length + 1 < n := by
        simp only [entryTokens, List.length_cons] at hn
        omega
      rw [entryTokens, List.cons_append, List.cons_append,
        readEntries_entry hv k (by omega) (by omega) (.inl rfl)]
      rfl
    | cons f entries =>
      have hlen : (tokens [' '] v).length + (entryTokens [' '] (f :: entries)).length + 1 < n := by
        simp only [entryTokens, List.length_append, List.length_cons] at hn ⊢
        omega
      rw [entryTokens, List.cons_append, List.cons_append, List.append_assoc, List.cons_append,
        readEntries_entry hv k (by omega) (by omega) (.inr rfl), ih hentries n [' '] (by omega)]
      rfl

theorem readsBack_list {items : List Literal} (h : ∀ v ∈ items, ReadsBack v) :
    ReadsBack (.list items) := by
  refine ⟨fun gap => ⟨_, _, rfl, by simp, by simp⟩, fun n gap rest hn _ => ?_⟩
  have hlen : (itemTokens [] items).length + 2 ≤ n := by
    rwa [tokens, List.length_cons, List.length_append] at hn
  obtain ⟨n, rfl⟩ := Nat.exists_eq_add_one.2 (Nat.zero_lt_of_lt hlen)
  have hitems := readItems_tokens h n [] rest (by omega)
  rw [tokens, List.cons_append, List.append_assoc, List.singleton_append, readValue]
  simp [hitems]

theorem readsBack_map {entries : List (String × Literal)} (ho : Entries.Ordered entries)
    (h : ∀ e ∈ entries, ReadsBack e.2) : ReadsBack (.map entries) := by
  refine ⟨fun gap => ⟨_, _, rfl, by simp, by simp⟩, fun n gap rest hn _ => ?_⟩
  have hlen : (entryTokens [] entries).length + 2 ≤ n := by
    rwa [tokens, List.length_cons, List.length_append] at hn
  obtain ⟨n, rfl⟩ := Nat.exists_eq_add_one.2 (Nat.zero_lt_of_lt hlen)
  have hentries := readEntries_tokens h n [] rest (by omega)
  rw [tokens, List.cons_append, List.append_assoc, List.singleton_append, readValue]
  simp [hentries, ofEntries, Entries.sort_of_ordered ho]

/-- Integers of 64 bits with a sign, except the least one, whose digits alone do not fit. -/
def IsWhole (i : Int) : Prop := fitsInt64 i = true ∧ i ≠ -(Nat.pow 2 63 : Nat)

instance : DecidablePred IsWhole := fun i =>
  inferInstanceAs (Decidable (fitsInt64 i = true ∧ i ≠ -(Nat.pow 2 63 : Nat)))

theorem natAbs_lt_of_isWhole {i : Int} (h : IsWhole i) : i.natAbs < Nat.pow 2 63 := by
  obtain ⟨hf, hne⟩ := h
  have hpow : Nat.pow 2 63 = 9223372036854775808 := rfl
  simp only [fitsInt64, hpow] at hf ⊢
  split at hf <;> simp only [decide_eq_true_eq] at hf <;> omega

theorem isWhole_of_natAbs_lt {i : Int} (h : i.natAbs < Nat.pow 2 63) : IsWhole i := by
  have hpow : Nat.pow 2 63 = 9223372036854775808 := rfl
  simp only [IsWhole, fitsInt64, hpow] at h ⊢
  refine ⟨?_, by omega⟩
  split <;> simp only [decide_eq_true_eq] <;> omega

theorem Plain.readsBack {text : String → Prop} {v : Literal} (h : Plain text IsWhole v) :
    ReadsBack v := by
  induction h with
  | none => exact readsBack_word (fun _ => rfl) fun _ => rfl
  | bool b => cases b <;> exact readsBack_word (fun _ => rfl) fun _ => rfl
  | int h => exact readsBack_int (natAbs_lt_of_isWhole h)
  | str => exact readsBack_str _
  | list _ ih => exact readsBack_list ih
  | map ordered _ _ ih => exact readsBack_map ordered ih

end Pipewright.Literal
