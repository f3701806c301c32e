import Pipewright.Proofs.Source.Strings
import Pipewright.Proofs.Text.Verbatim

/-! Texts that are put between single quotes as they are, and whether the closing quote is the one
that the lexer finds. -/
namespace Pipewright.Source
open Pipewright.Text

/-- Whether a text starts with the name of a character, behind the backslash in front of it. -/
def NamesCharacter (cs : List Char) : Prop :=
  ∃ name rest, name ≠ [] ∧ '}' ∉ name ∧ cs = 'N' :: '{' :: (name ++ '}' :: rest)

/-- Texts that end where single quotes around them end: quotes stand in names of characters only,
and no backslash is last. -/
inductive Quotable : List Char → Prop
  | nil : Quotable []
  | char {c : Char} {r : List Char} (hc : c ≠ '\'') (hb : c ≠ '\\') (h : Quotable r) :
      Quotable (c :: r)
  | backslash {c : Char} {r : List Char} (hname : ¬NamesCharacter (c :: r))
      (h : Quotable (c :: r)) : Quotable ('\\' :: c :: r)
  | named {name r : List Char} (hne : name ≠ []) (hname : '}' ∉ name) (h : Quotable r) :
      Quotable ('\\' :: 'N' :: '{' :: (name ++ '}' :: r))

theorem Quotable.head {cs : List Char} (h : Quotable cs) : ∀ c ∈ cs.head?, c ≠ '\'' := by
  cases h with
  | nil => simp
  | char hc => simpa using hc
  | backslash => simp
  | named => simp

section
variable {c : Char} {name r : List Char}

theorem takeWhile_name (hfree : '}' ∉ name) (r : List Char) :
    (name ++ '}' :: r).takeWhile (· ≠ '}') = name :=
  takeWhile_append (fun c hc => by simpa using fun he : c = '}' => hfree (he ▸ hc)) (by simp)

theorem quotable_char_iff (hc : c ≠ '\'') (hb : c ≠ '\\') : Quotable (c :: r) ↔ Quotable r := by
  constructor
  · intro h
    cases h with
    | char _ _ h => exact h
    | backslash | named => exact absurd rfl hb
  · exact .char hc hb

theorem quotable_backslash_iff (hname : ¬NamesCharacter (c :: r)) :
    Quotable ('\\' :: c :: r) ↔ Quotable (c :: r) := by
  constructor
  · intro h
    cases h with
    | char _ hb => exact absurd rfl hb
    | backslash _ h => exact h
    | named hne hfree => exact absurd ⟨_, _, hne, hfree, rfl⟩ hname
  · exact .backslash hname

theorem quotable_named_iff (hne : name ≠ []) (hname : '}' ∉ name) :
    Quotable ('\\' :: 'N' :: '{' :: (name ++ '}' :: r)) ↔ Quotable r := by
  constructor
  · generalize hcs : '\\' :: 'N' :: '{' :: (name ++ '}' :: r) = cs
    intro h
    cases h with
    | nil => cases hcs
    | char _ hb => exact absurd (List.cons.inj hcs).1.symm hb
    | backslash hnone =>
      exact absurd ⟨name, r, hne, hname, (List.cons.inj hcs).2.symm⟩ hnone
    | @named name' r' _ hname' h =>
      simp only [List.cons.injEq, true_and] at hcs
      have hsame := congrArg (List.takeWhile (· ≠ '}')) hcs
      rw [takeWhile_name hname, takeWhile_name hname'] at hsame
      subst hsame
      rw [List.append_cancel_left_eq, List.cons.injEq] at hcs
      rwa [hcs.2]
  · exact .named hne hname

end

/-- The number of characters up to the end of a string in single quotes. -/
def closeIn (fresh : Bool) (cs : List Char) : Option Nat :=
  stringLength 0 [.text (plainQuotes '\'') fresh] cs

section
variable {c : Char} {cs w r s rest : List Char}

/-- Characters that stand for themselves in a string wherever they stand. -/
def isOrdinary (c : Char) : Bool := !(['\\', '\'', '\x00', '\n'].contains c)

theorem closeIn_quote (fresh : Bool) (cs : List Char) : closeIn fresh ('\'' :: cs) = some 1 :=
  stringLength_close (.inl rfl) fresh cs

theorem closeIn_char (hc : isOrdinary c = true) (fresh : Bool) (cs : List Char) :
    closeIn fresh (c :: cs) = (closeIn false cs).map (· + 1) := by
  simp only [isOrdinary, Bool.not_eq_true', List.contains_eq_mem, List.mem_cons, List.not_mem_nil,
    or_false, decide_eq_false_iff_not, not_or] at hc
  obtain ⟨hb, hq, hz, hn⟩ := hc
  have hstep : stepFrame [.text (plainQuotes '\'') fresh] c cs =
      .go [.text (plainQuotes '\'') false] 0 := by
    simp [stepFrame, stepText, plainQuotes, hb, hq, hn]
  rw [closeIn, stringLength, if_neg hz, hstep]
  rfl

theorem closeIn_backslash (fresh : Bool) (cs : List Char) : closeIn fresh ('\\' :: cs) =
    (stringLength (escapeLength cs) [.text (plainQuotes '\'') true] cs).map (· + 1) := by
  rw [closeIn, stringLength, if_neg (by decide)]
  rfl

/-- Without a newline it does not matter what stands in front. -/
theorem closeIn_fresh (h : cs.head? ≠ some '\n') (fresh : Bool) :
    closeIn fresh cs = closeIn true cs := by
  cases cs with
  | nil => rfl
  | cons c cs =>
    have hn : c ≠ '\n' := by simpa using h
    have hstep : stepFrame [.text (plainQuotes '\'') fresh] c cs =
        stepFrame [.text (plainQuotes '\'') true] c cs := by
      simp [stepFrame, stepText, plainQuotes, hn]
    rw [closeIn, closeIn, stringLength, stringLength, hstep]

theorem head_ordinary (hw : ∀ c ∈ w, isOrdinary c = true) (h : cs.head? ≠ some '\n') :
    (w ++ cs).head? ≠ some '\n' := by
  cases w with
  | nil => exact h
  | cons c w =>
    rintro hc
    obtain rfl : c = '\n' := by simpa using hc
    exact absurd (hw _ List.mem_cons_self) (by decide)

theorem closeIn_chars (hw : ∀ c ∈ w, isOrdinary c = true) (h : cs.head? ≠ some '\n') :
    closeIn true (w ++ cs) = (closeIn true cs).map (· + w.length) := by
  induction w with
  | nil => simp
  | cons c w ih =>
    obtain ⟨hc, hw⟩ := List.forall_mem_cons.1 hw
    rw [List.cons_append, closeIn_char hc, closeIn_fresh (head_ordinary hw h), ih hw,
      Option.map_map]
    rfl

/-- A backslash in front of ordinary characters, which the scan passes, changes nothing. -/
theorem closeIn_pass (hw : ∀ c ∈ w, isOrdinary c = true) (h : cs.head? ≠ some '\n')
    (hlength : escapeLength (w ++ cs) = w.length) (fresh : Bool) :
    closeIn fresh ('\\' :: (w ++ cs)) = (closeIn true (w ++ cs)).map (· + 1) := by
  have hz : '\x00' ∉ w := fun hmem => absurd (hw _ hmem) (by decide)
  have hpass := stringLength_pass hz 0 [.text (plainQuotes '\'') true] cs
  rw [closeIn_backslash, hlength, closeIn_chars hw h]
  exact congrArg (Option.map (· + 1)) hpass

/-! Backslashes that stand for themselves -/

theorem takeWhile_take_append {p : Char → Bool} {d : Char} (hd : p d = false) (n : Nat)
    (r rest : List Char) :
    ((r ++ d :: rest).take n).takeWhile p = (r.take n).takeWhile p := by
  rw [List.take_append, List.takeWhile_append]
  split
  · have hnone : ((d :: rest).take (n - r.length)).takeWhile p = [] := by
      cases n - r.length <;> simp [hd]
    rename_i hall
    rw [hnone, List.append_nil]
    exact ((List.takeWhile_prefix p).eq_of_length hall).symm
  · rfl

/-- Whether a scan passes ordinary characters behind a backslash in front of a text, a quote and
what follows. -/
def PassesOrdinary (rest cs : List Char) : Prop :=
  ∃ w tail, cs = w ++ tail ∧ (∀ d ∈ w, isOrdinary d = true) ∧
    escapeLength (cs ++ '\'' :: rest) = w.length

theorem passesOrdinary_none (h : escapeLength (cs ++ '\'' :: rest) = 0) :
    PassesOrdinary rest cs :=
  ⟨[], cs, rfl, by simp, h⟩

theorem passesOrdinary_taken {p : Char → Bool} {n : Nat} (hc : isOrdinary c = true)
    (hp : ∀ d, p d = true → isOrdinary d = true)
    (h : escapeLength (c :: r ++ '\'' :: rest) =
      1 + (((r ++ '\'' :: rest).take n).takeWhile p).length) :
    PassesOrdinary rest (c :: r) := by
  have hquote : p '\'' = false := Bool.eq_false_iff.2 fun hq => absurd (hp _ hq) (by decide)
  have hstart : (r.take n).takeWhile p <+: r :=
    (List.takeWhile_prefix p).trans (List.take_prefix n r)
  refine ⟨c :: (r.take n).takeWhile p, _, congrArg (c :: ·) (List.prefix_iff_eq_append.1 hstart).symm,
    List.forall_mem_cons.2 ⟨hc, fun d hd => hp d (List.mem_takeWhile_imp hd)⟩, ?_⟩
  rw [h, takeWhile_take_append hquote, List.length_cons, Nat.add_comm]

theorem escapeLength_name {name : List Char} (hne : name ≠ []) (hname : '}' ∉ name)
    (rest : List Char) :
    escapeLength ('N' :: '{' :: (name ++ '}' :: rest)) = name.length + 3 := by
  have htake := takeWhile_name hname rest
  have hshort : ¬(name.isEmpty || decide (name.length = (name ++ '}' :: rest).length)) = true := by
    simp [hne]
  simp only [escapeLength, htake]
  exact if_neg hshort

theorem escapeLength_unnamed (h : ¬NamesCharacter ('N' :: r))
    (hopen : '}' ∈ rest → ∀ name, '}' ∉ name → 'N' :: r ≠ 'N' :: '{' :: name) :
    escapeLength ('N' :: (r ++ '\'' :: rest)) = 0 := by
  by_cases hr : ∃ cs, r = '{' :: cs
  · obtain ⟨cs, rfl⟩ := hr
    change (if _ then 0 else _) = 0
    rw [if_pos]
    rw [Bool.or_eq_true, decide_eq_true_eq, List.isEmpty_iff]
    by_cases hclosed : '}' ∈ cs
    · -- A brace that closes stands right at the start.
      obtain ⟨name, tail, rfl, hname⟩ := List.eq_append_cons_of_mem hclosed
      have hnil : name = [] := by_contra fun hne => h ⟨name, tail, hne, hname, rfl⟩
      exact .inl (by simp [hnil])
    · have hrest : '}' ∉ rest := fun hm => hopen hm cs hclosed rfl
      refine .inr (congrArg List.length (List.takeWhile_eq_self_iff.2 fun d hd => ?_))
      have hne : d ≠ '}' := by
        rintro rfl
        simp [hclosed, hrest] at hd
      simpa using hne
  · have hother : (r ++ '\'' :: rest).head? ≠ some '{' := by
      cases r with
      | nil => simp
      | cons d r => simpa using fun he : d = '{' => hr ⟨r, he ▸ rfl⟩
    exact escapeLength_other (by decide) (by decide) rfl rfl fun _ => hother

/-- The name of a character goes beyond the text if no brace closes it there. -/
theorem escapeLength_endless {name : List Char} (hname : '}' ∉ name) (h : '}' ∈ rest) :
    ('N' :: '{' :: name).length < escapeLength ('N' :: '{' :: name ++ '\'' :: rest) := by
  obtain ⟨front, tail, rfl, hfront⟩ := List.eq_append_cons_of_mem h
  have hfree : '}' ∉ name ++ '\'' :: front := by simp [hname, hfront]
  have hlength := escapeLength_name (List.append_ne_nil_of_right_ne_nil name
    (List.cons_ne_nil _ front)) hfree tail
  rw [List.append_assoc, List.cons_append] at hlength
  simp only [List.cons_append, hlength, List.length_append, List.length_cons]
  omega

theorem escapeLength_code {width : Nat} (hm : hexWidth? c = some width) (cs : List Char) :
    escapeLength (c :: cs) =
      if ((cs.take width).takeWhile isHexDigit).length = width then 1 + width else 0 := by
  obtain ⟨rfl, rfl⟩ | ⟨rfl, rfl⟩ | ⟨rfl, rfl⟩ := hexWidth?_cases hm <;> rfl

theorem passesOrdinary_code {width : Nat} (hw : hexWidth? c = some width) (r rest : List Char) :
    PassesOrdinary rest (c :: r) := by
  have hlength := escapeLength_code hw (r ++ '\'' :: rest)
  by_cases hfull : (((r ++ '\'' :: rest).take width).takeWhile isHexDigit).length = width
  · have hc : isOrdinary c = true := by
      obtain ⟨rfl, -⟩ | ⟨rfl, -⟩ | ⟨rfl, -⟩ := hexWidth?_cases hw <;> decide
    have hhex : ∀ d, isHexDigit d = true → isOrdinary d = true := fun d hd =>
      of_isHexDigit (p := fun d => isOrdinary d = true) hd (by decide)
    rw [if_pos hfull] at hlength
    exact passesOrdinary_taken hc hhex (by rw [List.cons_append, hlength, hfull])
  · rw [if_neg hfull] at hlength
    exact passesOrdinary_none hlength

theorem passesOrdinary_digit (hc : isDigit c = true) (r rest : List Char) :
    PassesOrdinary rest (c :: r) := by
  have hdigit : ∀ d, isDigit d = true → isOrdinary d = true := fun d hd =>
    of_isDigit (p := fun d => isOrdinary d = true) hd (by decide)
  have hmark : c ≠ 'u' ∧ c ≠ 'U' ∧ c ≠ 'x' :=
    of_isDigit (p := fun d => d ≠ 'u' ∧ d ≠ 'U' ∧ d ≠ 'x') hc (by decide)
  refine passesOrdinary_taken (p := isDigit) (n := 2) (hdigit c hc) hdigit ?_
  simp [escapeLength, hmark, hc]

theorem newline_not_head (hn : '\n' ∉ r) (rest : List Char) :
    (r ++ '\'' :: rest).head? ≠ some '\n' := by
  cases r with
  | nil => simp
  | cons d r => simpa using fun he : d = '\n' => hn (he ▸ List.mem_cons_self)

/-- A backslash that stands for itself is in front of the name of a character, or the scan passes
ordinary characters behind it. -/
theorem passesOrdinary_of_kept (hkept : unescape ('\\' :: c :: r) = '\\' :: c :: r)
    (hz : '\x00' ∉ c :: r) (hn : '\n' ∉ c :: r) (hname : ¬NamesCharacter (c :: r))
    (hopen : '}' ∈ rest → ∀ name, '}' ∉ name → c :: r ≠ 'N' :: '{' :: name) :
    PassesOrdinary rest (c :: r) := by
  by_cases hN : c = 'N'
  · subst hN
    exact passesOrdinary_none (escapeLength_unnamed hname hopen)
  cases hw : hexWidth? c with
  | some width => exact passesOrdinary_code hw r rest
  | none =>
    by_cases hd : isDigit c = true
    · exact passesOrdinary_digit hd r rest
    have hplain := plainEscape_of_kept hkept hw
    have hletter : ∀ e ∈ escapes, e.1 ≠ c := by
      rintro e he rfl
      rw [plainEscape_escapes e he] at hplain
      simp at hplain
    rw [List.mem_cons, not_or] at hz hn
    by_cases hr : c = '\r'
    · subst hr
      exact passesOrdinary_none
        (escapeLength_lineEnd (e := .cr) fun _ => newline_not_head hn.2 rest)
    · refine passesOrdinary_none (escapeLength_other ?_ hletter hw (Bool.eq_false_iff.2 hd)
        fun he => absurd he hN)
      simp only [List.mem_cons, not_or]
      exact ⟨Ne.symm hz.1, Ne.symm hn.1, hr, List.not_mem_nil⟩

/-- The name of a character is passed. -/
theorem closeIn_named {name : List Char} (hne : name ≠ []) (hfree : '}' ∉ name)
    (hz : '\x00' ∉ 'N' :: '{' :: (name ++ '}' :: r)) :
    closeIn true ('\\' :: 'N' :: '{' :: (name ++ '}' :: r) ++ cs) =
      (closeIn true (r ++ cs)).map (· + (name.length + 4)) := by
  have hfront : 'N' :: '{' :: (name ++ ['}']) <+: 'N' :: '{' :: (name ++ '}' :: r) :=
    ⟨r, by simp⟩
  have hpassed : '\x00' ∉ 'N' :: '{' :: (name ++ ['}']) := fun h => hz (hfront.subset h)
  have hpass := stringLength_pass hpassed 0 [.text (plainQuotes '\'') true] (r ++ cs)
  have hlength := escapeLength_name hne hfree (r ++ cs)
  have hjoin : 'N' :: '{' :: (name ++ ['}']) ++ (r ++ cs) =
      'N' :: '{' :: (name ++ '}' :: (r ++ cs)) := by simp
  have hcount : ('N' :: '{' :: (name ++ ['}'])).length + 0 = name.length + 3 := by simp
  rw [hjoin, hcount] at hpass
  rw [List.cons_append, List.cons_append, List.cons_append, List.append_assoc, List.cons_append,
    closeIn_backslash, hlength, hpass, Option.map_map]
  refine congrArg (fun f => Option.map f (closeIn true (r ++ cs))) (funext fun n => ?_)
  simp only [Function.comp_apply, List.length_cons, List.length_append, List.length_nil]
  omega

/-! Whether the quote that closes is the last one, told from the text behind the first character -/

/-- Whether the scan of a string in single quotes ends at the quote behind a text, in front of what
follows. -/
def Closes (rest s : List Char) : Prop := closeIn true (s ++ '\'' :: rest) = some (s.length + 1)

instance : Decidable (Closes rest s) :=
  inferInstanceAs (Decidable (closeIn true (s ++ '\'' :: rest) = some (s.length + 1)))

theorem closes_iff_of_scan {front : List Char}
    (h : closeIn true (front ++ s ++ '\'' :: rest) =
      (closeIn true (s ++ '\'' :: rest)).map (· + front.length)) :
    Closes rest (front ++ s) ↔ Closes rest s := by
  rw [Closes, Closes, h, Option.map_eq_some_iff, List.length_append]
  constructor
  · rintro ⟨n, hn, hcount⟩
    rw [hn]
    exact congrArg some (by omega)
  · exact fun hs => ⟨_, hs, by omega⟩

theorem closes_char_iff (hc : isOrdinary c = true) (hn : '\n' ∉ s) :
    Closes rest (c :: s) ↔ Closes rest s := by
  change Closes rest ([c] ++ s) ↔ Closes rest s
  refine closes_iff_of_scan ?_
  rw [List.singleton_append, List.cons_append, closeIn_char hc,
    closeIn_fresh (newline_not_head hn rest)]
  rfl

theorem closes_named_iff {name : List Char} (hne : name ≠ []) (hfree : '}' ∉ name)
    (hz : '\x00' ∉ 'N' :: '{' :: (name ++ '}' :: r)) :
    Closes rest ('\\' :: 'N' :: '{' :: (name ++ '}' :: r)) ↔ Closes rest r := by
  have hsplit : '\\' :: 'N' :: '{' :: (name ++ '}' :: r) =
      ('\\' :: 'N' :: '{' :: (name ++ ['}'])) ++ r := by simp
  rw [hsplit]
  refine closes_iff_of_scan ?_
  rw [← hsplit, closeIn_named hne hfree hz]
  simp

theorem closes_backslash_iff (hkept : unescape ('\\' :: c :: r) = '\\' :: c :: r)
    (hz : '\x00' ∉ c :: r) (hn : '\n' ∉ c :: r) (hname : ¬NamesCharacter (c :: r))
    (hopen : '}' ∈ rest → ∀ name, '}' ∉ name → c :: r ≠ 'N' :: '{' :: name) :
    Closes rest ('\\' :: c :: r) ↔ Closes rest (c :: r) := by
  obtain ⟨w, tail, hsplit, hw, hpass⟩ := passesOrdinary_of_kept hkept hz hn hname hopen
  have htail : '\n' ∉ tail := fun hm => hn (hsplit ▸ List.mem_append_right w hm)
  change Closes rest (['\\'] ++ c :: r) ↔ Closes rest (c :: r)
  refine closes_iff_of_scan ?_
  rw [hsplit, List.append_assoc] at hpass ⊢
  rw [List.append_assoc]
  exact closeIn_pass hw (newline_not_head htail rest) hpass true

/-- A backslash at the end, or in front of a name that goes on behind the text, hides the quote. -/
theorem not_closes_of_escape (h : s.length < escapeLength (s ++ '\'' :: rest)) :
    ¬Closes rest ('\\' :: s) := by
  intro hcloses
  rw [Closes, List.cons_append, closeIn_backslash] at hcloses
  obtain ⟨n, hn, hcount⟩ := Option.map_eq_some_iff.1 hcloses
  have hlt := (ends_of_stringLength hn).lt
  rw [List.length_cons] at hcount
  omega

/-- Whether a text ends in the name of a character that no brace closes. -/
def EndsInName (s : List Char) : Prop :=
  ∃ name, '}' ∉ name ∧ '\\' :: 'N' :: '{' :: name <:+ s

theorem endsInName_cons_iff (hc : c = '\\' → ∀ name, '}' ∉ name → s ≠ 'N' :: '{' :: name) :
    EndsInName (c :: s) ↔ EndsInName s := by
  constructor
  · rintro ⟨name, hname, hsuffix⟩
    rcases List.suffix_cons_iff.1 hsuffix with heq | hsuffix
    · obtain ⟨hb, hs⟩ := List.cons.inj heq
      exact absurd hs.symm (hc hb.symm name hname)
    · exact ⟨name, hname, hsuffix⟩
  · rintro ⟨name, hname, hsuffix⟩
    exact ⟨name, hname, hsuffix.trans (List.suffix_cons c s)⟩

theorem endsInName_named_iff (name : List Char) :
    EndsInName ('\\' :: 'N' :: '{' :: (name ++ '}' :: r)) ↔ EndsInName r := by
  have hbrace : '}' :: r <:+ '\\' :: 'N' :: '{' :: (name ++ '}' :: r) :=
    ⟨'\\' :: 'N' :: '{' :: name, rfl⟩
  constructor
  · rintro ⟨open', hopen, hsuffix⟩
    have hfree : '}' ∉ '\\' :: 'N' :: '{' :: open' := by simp [hopen]
    rcases List.suffix_or_suffix_of_suffix hsuffix hbrace with hs | hs
    · rcases List.suffix_cons_iff.1 hs with heq | hs
      · exact absurd (heq ▸ List.mem_cons_self) hfree
      · exact ⟨open', hopen, hs⟩
    · exact absurd (hs.subset List.mem_cons_self) hfree
  · rintro ⟨open', hopen, hsuffix⟩
    exact ⟨open', hopen, hsuffix.trans ((List.suffix_cons '}' r).trans hbrace)⟩

theorem not_closes_quote (r : List Char) : ¬Closes rest ('\'' :: r) := by
  intro h
  rw [Closes, List.cons_append, closeIn_quote] at h
  simp at h

/-- Around a text that starts with a backslash, told from the texts behind it. -/
theorem closes_iff_behind_backslash (hz : '\x00' ∉ r) (hn : '\n' ∉ r)
    (hkept : unescape ('\\' :: r) = '\\' :: r)
    (ih : ∀ s, s <:+ r → (Closes rest s ↔ Quotable s ∧ ('}' ∈ rest → ¬EndsInName s))) :
    Closes rest ('\\' :: r) ↔
      Quotable ('\\' :: r) ∧ ('}' ∈ rest → ¬EndsInName ('\\' :: r)) := by
  cases r with
  | nil =>
    have hquote : escapeLength ('\'' :: rest) = 1 := rfl
    refine iff_of_false (not_closes_of_escape (by simp [hquote])) fun h => ?_
    cases h.1 with
    | char _ hb => exact hb rfl
  | cons d r =>
    by_cases hname : NamesCharacter (d :: r)
    · obtain ⟨name, tail, hne, hfree, heq⟩ := hname
      obtain ⟨rfl, rfl⟩ := List.cons.inj heq
      have htail : tail <:+ 'N' :: '{' :: (name ++ '}' :: tail) :=
        ⟨'N' :: '{' :: (name ++ ['}']), by simp⟩
      rw [closes_named_iff hne hfree hz, quotable_named_iff hne hfree, endsInName_named_iff,
        ih tail htail]
    by_cases hopen : '}' ∈ rest ∧ ∃ name, '}' ∉ name ∧ d :: r = 'N' :: '{' :: name
    · obtain ⟨hbrace, name, hfree, heq⟩ := hopen
      rw [heq]
      refine iff_of_false (not_closes_of_escape ?_) fun h =>
        h.2 hbrace ⟨name, hfree, List.suffix_rfl⟩
      exact escapeLength_endless hfree hbrace
    · have hclosed : '}' ∈ rest → ∀ name, '}' ∉ name → d :: r ≠ 'N' :: '{' :: name :=
        fun hbrace name hfree heq => hopen ⟨hbrace, name, hfree, heq⟩
      rw [closes_backslash_iff hkept hz hn hname hclosed, quotable_backslash_iff hname,
        ih _ List.suffix_rfl]
      exact and_congr_right' (imp_congr_right fun hbrace =>
        not_congr (endsInName_cons_iff fun _ => hclosed hbrace).symm)

/-- Around a text without escapes, the quote that closes is the last one just if none closes
early and no name of a character goes on behind it. -/
theorem closes_iff (hz : '\x00' ∉ s) (hn : '\n' ∉ s) (hkept : unescape s = s) :
    Closes rest s ↔ Quotable s ∧ ('}' ∈ rest → ¬EndsInName s) := by
  -- The name of a character is passed at once, so the induction is on the length.
  induction hlength : s.length using Nat.strong_induction_on generalizing s with
  | _ n ih =>
    subst hlength
    cases s with
    | nil =>
      refine iff_of_true (closeIn_quote true rest) ⟨.nil, fun _ h => ?_⟩
      obtain ⟨name, -, hsuffix⟩ := h
      exact List.cons_ne_nil _ _ (List.suffix_nil.1 hsuffix)
    | cons c r =>
      obtain ⟨hzc, hzr⟩ := not_or.1 fun h => hz (List.mem_cons.2 h)
      obtain ⟨hnc, hnr⟩ := not_or.1 fun h => hn (List.mem_cons.2 h)
      have hbehind : ∀ t, t <:+ r → (Closes rest t ↔ Quotable t ∧ ('}' ∈ rest → ¬EndsInName t)) := by
        rintro t ⟨front, rfl⟩
        have hshort : t.length < (c :: (front ++ t)).length := by
          rw [List.length_cons, List.length_append]
          omega
        exact ih t.length hshort (fun h => hzr (List.mem_append_right front h))
          (fun h => hnr (List.mem_append_right front h)) (unescape_suffix (unescape_tail hkept)) rfl
      by_cases hq : c = '\''
      · subst hq
        exact iff_of_false (not_closes_quote r) fun h => h.1.head '\'' rfl rfl
      by_cases hb : c = '\\'
      · subst hb
        exact closes_iff_behind_backslash hzr hnr hkept hbehind
      · have hc : isOrdinary c = true := by
          simp [isOrdinary, hq, hb, Ne.symm hzc, Ne.symm hnc]
        rw [closes_char_iff hc hnr, quotable_char_iff hq hb, hbehind r List.suffix_rfl,
          endsInName_cons_iff fun he => absurd he hb]

/-! Texts in quotes in front of other text -/

/-- A text between single quotes, without escapes. -/
def bare (s : List Char) : List Char := '\'' :: (s ++ ['\''])

/-- Whether single quotes around a text, in front of what follows, hold the text as it is. -/
structure Held (rest s : List Char) : Prop where
  closes : Closes rest s
  kept : unescape s = s

theorem held_iff (hz : '\x00' ∉ s) (hn : '\n' ∉ s) :
    Held rest s ↔ unescape s = s ∧ Quotable s ∧ ('}' ∈ rest → ¬EndsInName s) :=
  ⟨fun h => ⟨h.kept, (closes_iff hz hn h.kept).1 h.closes⟩,
    fun h => ⟨(closes_iff hz hn h.1).2 h.2, h.1⟩⟩

/-- Characters that stand for themselves are held in front of anything. -/
theorem held_of_ordinary (h : ∀ c ∈ s, isOrdinary c = true) (rest : List Char) : Held rest s := by
  have hb : '\\' ∉ s := fun hm => absurd (h _ hm) (by decide)
  refine ⟨?_, ?_⟩
  · rw [Closes, closeIn_chars h (by simp), closeIn_quote, Option.map_some, Nat.add_comm]
  · have hnil : unescape [] = [] := by rw [unescape.eq_def]
    have hkept := unescape_chars hb []
    rwa [hnil, List.append_nil] at hkept

theorem Held.head (h : Held rest s) : ∀ c ∈ s.head?, c ≠ '\'' := by
  rintro c hc rfl
  obtain ⟨r, rfl⟩ := List.head?_eq_some_iff.1 hc
  exact not_closes_quote r h.closes

theorem openQuotes_bare (h : ∀ c ∈ s.head?, c ≠ '\'') (hr : Parted rest) :
    openQuotes [] '\'' (s ++ '\'' :: rest) = (plainQuotes '\'', 0) := by
  have htriple : (s ++ '\'' :: rest).take 2 ≠ ['\'', '\''] := by
    cases s with
    | nil =>
      have hne : ∀ c ∈ rest.head?, c ≠ '\'' := hr.head_ne (by decide)
      cases rest with
      | nil => simp
      | cons d rest => simpa using hne d rfl
    | cons d s =>
      have hd : d ≠ '\'' := h d rfl
      cases s <;> simp [hd]
  simp [openQuotes, htriple, plainQuotes]

/-- The token at a quote: the string, or all of the text if that is not closed. -/
theorem munch_bare (h : ∀ c ∈ s.head?, c ≠ '\'') (hr : Parted rest) :
    munch '\'' (s ++ '\'' :: rest) =
      ((closeIn true (s ++ '\'' :: rest)).map fun n => (TokenKind.string, n)).getD
        (.stray, (s ++ '\'' :: rest).length) := by
  have htoken := @stringToken?_mark [] '\'' (by simp) (by decide) (s ++ '\'' :: rest)
  rw [stringFrom, openQuotes_bare h hr, List.nil_append] at htoken
  rw [munch_eq (by decide), htoken]
  simp only [closeIn, List.length_nil, Nat.zero_add]
  cases stringLength 0 [.text (plainQuotes '\'') true] (s ++ '\'' :: rest) <;> rfl

theorem Held.munch (h : Held rest s) (hr : Parted rest) :
    munch '\'' (s ++ '\'' :: rest) = (.string, s.length + 1) := by
  have hcloses : closeIn true (s ++ '\'' :: rest) = some (s.length + 1) := h.closes
  rw [munch_bare h.head hr, hcloses]
  rfl

theorem Held.lexFrom (h : Held rest s) (hr : Parted rest) (gap : List Char) :
    lexFrom gap (bare s ++ rest) =
      (⟨gap, .string, bare s⟩ :: (lexFrom [] rest).1, (lexFrom [] rest).2) := by
  have hm : Source.munch '\'' (s ++ ['\''] ++ rest) = (.string, (s ++ ['\'']).length) := by
    rw [List.append_assoc, List.singleton_append, h.munch hr, List.length_append,
      List.length_singleton]
  exact lexFrom_token (by decide) hm (by decide) gap

end
end Pipewright.Source
