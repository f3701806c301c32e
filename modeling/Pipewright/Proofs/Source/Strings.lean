import Pipewright.Proofs.Source.Lexing

/-! String literals of the script language, of any quotes and escapes: each is one token. -/
namespace Pipewright.Source
open Pipewright.Text

/-- The ends of a line: a line feed, a carriage return, or both. -/
inductive LineEnd where
  | lf
  | cr
  | crlf
  deriving DecidableEq, Repr

def LineEnd.text : LineEnd → List Char
  | .lf => ['\n']
  | .cr => ['\r']
  | .crlf => ['\r', '\n']

/-- The letter and the quotes a string literal is written with. -/
structure StringStyle where
  lead : Option Char
  mark : Char
  triple : Bool
  lead_mem : ∀ c ∈ lead, c ∈ ['r', 'R', 'u', 'U']
  mark_mem : mark ∈ ['\'', '"']

namespace StringStyle

def raw (s : StringStyle) : Bool := s.lead.toList.any fun c => c = 'r' || c = 'R'

def closing (s : StringStyle) : List Char := List.replicate (if s.triple then 3 else 1) s.mark

def quotes (s : StringStyle) : Quotes := ⟨s.mark, s.triple, s.raw, false⟩

end StringStyle

/-- What a string literal consists of between its quotes. Escapes of digits and of hexadecimal
code points are told apart from those that are cut short, and from a backslash that only stands
for itself. -/
inductive StringPart where
  | char (c : Char)
  | line (e : LineEnd)
  | joined (e : LineEnd)
  | letter (m c : Char)
  | octal (ds : List Char)
  | code (m : Char) (ds : List Char)
  | cut (m : Char) (ds : List Char)
  | other (c : Char)
  deriving DecidableEq, Repr

/-- The number that digits denote. -/
def digitsValue (base : Nat) (ds : List Char) : Nat :=
  ds.foldl (fun n d => base * n + (digitValue? d).getD 0) 0

namespace StringPart

def text : StringPart → List Char
  | .char c => [c]
  | .line e => e.text
  | .joined e => '\\' :: e.text
  | .letter m _ => ['\\', m]
  | .octal ds => '\\' :: ds
  | .code m ds => '\\' :: m :: ds
  | .cut m ds => '\\' :: m :: ds
  | .other c => ['\\', c]

/-- Whether a part may stand in a literal of a style, in front of what follows up to the closing
quotes. In a raw literal a backslash only keeps the character behind it from closing it. -/
inductive Fits (s : StringStyle) (rest : List Char) : StringPart → Prop where
  | char {c : Char} (hc : c ∉ ['\\', '\x00', '\n', '\r'])
      (hm : c = s.mark → s.triple = true ∧ rest.take 2 ≠ [s.mark, s.mark]) : Fits s rest (.char c)
  | line {e : LineEnd} (ht : s.triple = true) (he : e = .cr → rest.head? ≠ some '\n') :
      Fits s rest (.line e)
  | joined {e : LineEnd} (he : e = .cr → rest.head? ≠ some '\n') : Fits s rest (.joined e)
  | letter {m c : Char} (hr : s.raw = false) (hm : (m, c) ∈ escapes) : Fits s rest (.letter m c)
  | octal {ds : List Char} (hr : s.raw = false) (hne : ds ≠ []) (hlen : ds.length ≤ 3)
      (hds : ∀ d ∈ ds, isDigitOf 8 d = true)
      (hrest : ds.length < 3 → ∀ d ∈ rest.head?, isDigitOf 8 d = false) : Fits s rest (.octal ds)
  | code {m : Char} {ds : List Char} (hr : s.raw = false) (hm : hexWidth? m = some ds.length)
      (hds : ∀ d ∈ ds, isHexDigit d = true) (hlt : digitsValue 16 ds < 0x110000) :
      Fits s rest (.code m ds)
  | cut {m : Char} {ds : List Char} {width : Nat} (hr : s.raw = false)
      (hm : hexWidth? m = some width) (hlen : ds.length < width)
      (hds : ∀ d ∈ ds, isHexDigit d = true) (hrest : ∀ d ∈ rest.head?, isHexDigit d = false) :
      Fits s rest (.cut m ds)
  | raw {c : Char} (hr : s.raw = true) (hc : c ∉ ['\x00', '\n', '\r']) : Fits s rest (.other c)
  | other {c : Char} (hr : s.raw = false) (hc : c ∉ ['\x00', '\n', '\r'])
      (hletter : ∀ e ∈ escapes, e.1 ≠ c) (hdigit : isDigitOf 8 c = false)
      (hcode : hexWidth? c = none) (hname : c = 'N' → rest.head? ≠ some '{') :
      Fits s rest (.other c)

end StringPart

def partsText (ps : List StringPart) : List Char := ps.flatMap StringPart.text

theorem partsText_cons (p : StringPart) (ps : List StringPart) :
    partsText (p :: ps) = p.text ++ partsText ps := rfl

/-- Whether parts, one behind the other, are what a literal of a style may consist of. -/
inductive StringStyle.Body (s : StringStyle) : List StringPart → Prop where
  | nil : s.Body []
  | cons {p : StringPart} {ps : List StringPart} (hp : p.Fits s (partsText ps ++ s.closing))
      (h : s.Body ps) : s.Body (p :: ps)

/-- A string literal that is no formatted and no bytes literal, without named characters. -/
structure StringLiteral where
  style : StringStyle
  parts : List StringPart
  body : style.Body parts

namespace StringLiteral

def inner (l : StringLiteral) : List Char := partsText l.parts

def text (l : StringLiteral) : List Char :=
  l.style.lead.toList ++ (l.style.closing ++ (l.inner ++ l.style.closing))

end StringLiteral

/-! Scanning the text between the quotes -/

/-- Characters that a scan may pass behind an escape without looking: the lexer takes up to three
digits, also for those that are no octal digits, and line ends behind a quote of a raw string. -/
def isPassed (c : Char) : Bool := isDigit c || c = '\n' || c = '\r'

/-- Whether a string closes after so many characters of a text, also if the scan starts with some
of the characters passed. -/
def StringStyle.Scans (s : StringStyle) (cs : List Char) (k : Nat) : Prop :=
  ∀ n fresh, n ≤ (cs.takeWhile isPassed).length →
    stringLength n [.text s.quotes fresh] cs = some k

section
variable {s : StringStyle} {c : Char} {cs w rest : List Char} {k : Nat}

theorem stringLength_pass (hw : '\x00' ∉ w) (n : Nat) (frames : List Frame) (cs : List Char) :
    stringLength (w.length + n) frames (w ++ cs) =
      (stringLength n frames cs).map (· + w.length) := by
  induction w with
  | nil => simp
  | cons c w ih =>
    rw [List.mem_cons, not_or] at hw
    rw [List.length_cons, Nat.add_right_comm, List.cons_append, stringLength,
      if_neg (Ne.symm hw.1), ih hw.2, Option.map_map]
    rfl

theorem StringStyle.scans_closing (s : StringStyle) : s.Scans s.closing s.closing.length := by
  intro n fresh hn
  obtain ⟨lead, mark, triple, hlead, hm⟩ := s
  simp only [List.mem_cons, List.not_mem_nil, or_false] at hm
  have hpass : isPassed mark = false := by rcases hm with rfl | rfl <;> rfl
  have hmark : mark ≠ '\\' ∧ mark ≠ '\x00' := by rcases hm with rfl | rfl <;> decide
  obtain rfl : n = 0 := by
    rw [StringStyle.closing] at hn
    cases triple <;> simpa [hpass, List.replicate] using hn
  cases triple <;>
    simp [StringStyle.closing, StringStyle.quotes, List.replicate, stringLength, stepFrame,
      stepText, hmark.1, hmark.2]

/-- A character that is neither a backslash nor closes the string nor ends a line too early. -/
theorem StringStyle.Scans.char (h : s.Scans cs k) (hc : c ≠ '\\') (hz : c ≠ '\x00')
    (hn : c = '\n' → s.triple = true)
    (hm : c = s.mark → s.triple = true ∧ cs.take 2 ≠ [s.mark, s.mark]) :
    s.Scans (c :: cs) (k + 1) := by
  intro n fresh hle
  cases n with
  | zero =>
    obtain ⟨fresh', hstep⟩ : ∃ fresh', stepFrame [.text s.quotes fresh] c cs =
        .go [.text s.quotes fresh'] 0 := by
      by_cases he : c = s.mark
      · obtain ⟨ht, htwo⟩ := hm he
        refine ⟨true, ?_⟩
        simp [stepFrame, stepText, StringStyle.quotes, he ▸ hc, he, ht, htwo]
      · refine ⟨false, ?_⟩
        by_cases hnl : c = '\n'
        · simp [stepFrame, stepText, StringStyle.quotes, hc, he, hn hnl]
        · simp [stepFrame, stepText, StringStyle.quotes, hc, he, hnl]
    rw [stringLength, if_neg hz, hstep]
    simp only [h 0 fresh' (Nat.zero_le _), Option.map_some]
  | succ n =>
    have hpass : n ≤ (cs.takeWhile isPassed).length := by
      by_cases hp : isPassed c
      · rw [List.takeWhile_cons_of_pos hp, List.length_cons] at hle
        omega
      · rw [List.takeWhile_cons_of_neg hp] at hle
        exact absurd hle (Nat.not_succ_le_zero n)
    rw [stringLength, if_neg hz, h n fresh hpass, Option.map_some]

theorem StringStyle.Scans.chars (h : s.Scans cs k)
    (hw : ∀ c ∈ w, c ∉ ['\\', '\x00', '\n', '\'', '"']) : s.Scans (w ++ cs) (k + w.length) := by
  induction w with
  | nil => exact h
  | cons c w ih =>
    obtain ⟨hc, hw⟩ := List.forall_mem_cons.1 hw
    have hne : c ≠ s.mark := by
      rintro rfl
      have hm := s.mark_mem
      simp only [List.mem_cons, List.not_mem_nil, or_false] at hm
      rcases hm with hm | hm <;> simp [hm] at hc
    simp only [List.mem_cons, List.not_mem_nil, or_false, not_or] at hc
    exact (ih hw).char hc.1 hc.2.1 (fun he => absurd he hc.2.2.1) fun he => absurd he hne

/-- The number of characters that the lexer takes behind a backslash. -/
def StringStyle.taken (s : StringStyle) (cs : List Char) : Nat :=
  if s.raw then rawEscapeLength s.mark cs else escapeLength cs

theorem StringStyle.taken_raw (hr : s.raw = true) (cs : List Char) :
    s.taken cs = rawEscapeLength s.mark cs := if_pos hr

theorem StringStyle.taken_plain (hr : s.raw = false) (cs : List Char) :
    s.taken cs = escapeLength cs := if_neg (by simp [hr])

/-- A backslash with all characters that are taken with it, and some that may be passed. -/
theorem StringStyle.Scans.escape (h : s.Scans cs k) (hw : '\x00' ∉ w) {n : Nat}
    (htaken : s.taken (w ++ cs) = w.length + n) (hn : n ≤ (cs.takeWhile isPassed).length) :
    s.Scans ('\\' :: (w ++ cs)) (k + (w.length + 1)) := by
  intro m fresh hm
  obtain rfl : m = 0 := Nat.le_zero.1 hm
  obtain ⟨fresh', hstep⟩ : ∃ fresh', stepFrame [.text s.quotes fresh] '\\' (w ++ cs) =
      .go [.text s.quotes fresh'] (w.length + n) := by
    rw [← htaken, taken]
    cases hr : s.raw with
    | true => exact ⟨fresh, by simp [stepFrame, stepText, StringStyle.quotes, hr]⟩
    | false => exact ⟨true, by simp [stepFrame, stepText, StringStyle.quotes, hr]⟩
  rw [stringLength, if_neg (by decide), hstep]
  simp only [stringLength_pass hw, h n fresh' hn, Option.map_some]
  rfl

/-! What the lexer takes behind a backslash -/

theorem escapeLength_digits {d : Char} {ds : List Char} (hd : isDigit d = true)
    (hds : ∀ c ∈ ds, isDigit c = true) (hlen : ds.length ≤ 2) (cs : List Char) :
    ∃ n, escapeLength (d :: ds ++ cs) = (d :: ds).length + n ∧
      n ≤ (cs.takeWhile isPassed).length := by
  have hnot : d ≠ 'u' ∧ d ≠ 'U' ∧ d ≠ 'x' :=
    of_isDigit (p := fun d => d ≠ 'u' ∧ d ≠ 'U' ∧ d ≠ 'x') hd (by decide)
  have htake : ((ds ++ cs).take 2).takeWhile isDigit =
      ds ++ (cs.take (2 - ds.length)).takeWhile isDigit := by
    rw [List.take_append, List.take_of_length_le hlen, List.takeWhile_append_of_pos hds]
  have hprefix : (cs.take (2 - ds.length)).takeWhile isDigit <+: cs :=
    (List.takeWhile_prefix _).trans (List.take_prefix _ _)
  have hpassed : ∀ c ∈ (cs.take (2 - ds.length)).takeWhile isDigit, isPassed c = true :=
    fun c hc => by simp [isPassed, List.mem_takeWhile_imp hc]
  refine ⟨((cs.take (2 - ds.length)).takeWhile isDigit).length, ?_, ?_⟩
  · simp only [List.cons_append, escapeLength, hnot, hd, htake, if_true, if_false,
      List.length_append, List.length_cons]
    omega
  · generalize (cs.take (2 - ds.length)).takeWhile isDigit = front at hprefix hpassed ⊢
    obtain ⟨tail, rfl⟩ := hprefix
    rw [List.takeWhile_append_of_pos hpassed, List.length_append]
    omega

theorem hexWidth?_cases {m : Char} {width : Nat} (h : hexWidth? m = some width) :
    m = 'x' ∧ width = 2 ∨ m = 'u' ∧ width = 4 ∨ m = 'U' ∧ width = 8 := by
  rw [hexWidth?] at h
  split at h
  · exact .inl ⟨‹_›, (Option.some.inj h).symm⟩
  split at h
  · exact .inr (.inl ⟨‹_›, (Option.some.inj h).symm⟩)
  split at h
  · exact .inr (.inr ⟨‹_›, (Option.some.inj h).symm⟩)
  · cases h

theorem escapeLength_hex {m : Char} {width : Nat} (hm : hexWidth? m = some width)
    {ds : List Char} (hds : ∀ d ∈ ds, isHexDigit d = true)
    (h : ds.length = width ∨ ds.length < width ∧ ∀ d ∈ cs.head?, isHexDigit d = false) :
    escapeLength (m :: (ds ++ cs)) = if ds.length = width then (m :: ds).length else 0 := by
  have htaken := hexDigits_taken hds h
  rw [List.length_cons]
  obtain ⟨rfl, rfl⟩ | ⟨rfl, rfl⟩ | ⟨rfl, rfl⟩ := hexWidth?_cases hm <;>
    simp +contextual [escapeLength, htaken]

theorem escapeLength_other (hc : c ∉ ['\x00', '\n', '\r']) (hletter : ∀ e ∈ escapes, e.1 ≠ c)
    (hcode : hexWidth? c = none) (hd : isDigit c = false)
    (hname : c = 'N' → cs.head? ≠ some '{') : escapeLength (c :: cs) = 0 := by
  have hwidth : c ≠ 'u' ∧ c ≠ 'U' ∧ c ≠ 'x' := by
    refine ⟨?_, ?_, ?_⟩ <;>
      · rintro rfl
        exact absurd hcode (by decide)
  have hline : c ≠ '\n' ∧ c ≠ '\r' := by
    simp only [List.mem_cons, List.not_mem_nil, or_false, not_or] at hc
    exact hc.2
  have hnone : ['\'', '"', 'a', 'b', 'f', 'n', 'r', 't', 'v', '\\'].contains c = false := by
    rw [← Bool.not_eq_true, List.contains_iff_mem]
    have hall : ∀ d ∈ ['\'', '"', 'a', 'b', 'f', 'n', 'r', 't', 'v', '\\'],
        d ∈ escapes.map Prod.fst := forall_mem_of_all (by decide)
    intro hmem
    obtain ⟨e, he, rfl⟩ := List.mem_map.1 (hall c hmem)
    exact hletter e he rfl
  simp only [escapeLength, hwidth, hd, hline, hnone, if_false, Bool.false_eq_true]
  split
  · rename_i hN
    split
    · exact absurd rfl (hname hN)
    · rfl
  · rfl

/-! One part -/

theorem isDigit_of_octal (h : isDigitOf 8 c = true) : isDigit c = true :=
  of_isHexDigit (p := fun c => isDigitOf 8 c = true → isDigit c = true)
    (isHexDigit_of_isDigitOf h) (by decide) h

/-- What is neither a hexadecimal digit nor the mark of a code point stands in no escape of them. -/
theorem not_mem_hexEscape {m : Char} {width : Nat} (hm : hexWidth? m = some width)
    {ds : List Char} (hds : ∀ d ∈ ds, isHexDigit d = true) (hc : isHexDigit c = false)
    (hmark : c ∉ ['x', 'u', 'U']) : c ∉ m :: ds := by
  rw [List.mem_cons, not_or]
  refine ⟨?_, fun hmem => by simp [hds c hmem] at hc⟩
  rintro rfl
  obtain ⟨rfl, -⟩ | ⟨rfl, -⟩ | ⟨rfl, -⟩ := hexWidth?_cases hm <;> simp at hmark

/-- A line end at the start of a text, if what follows does not make it longer. -/
theorem escapeLength_lineEnd {e : LineEnd} (he : e = .cr → cs.head? ≠ some '\n') :
    escapeLength (e.text ++ cs) = if e = .cr then 0 else e.text.length := by
  cases e with
  | lf => rfl
  | crlf => rfl
  | cr =>
    have hne := he rfl
    have hdigit : isDigit '\r' = false := rfl
    simp [escapeLength, LineEnd.text, hne, hdigit]

theorem rawEscapeLength_lineEnd {mark : Char} (hm : mark ∈ ['\'', '"']) {e : LineEnd}
    (he : e = .cr → cs.head? ≠ some '\n') :
    rawEscapeLength mark (e.text ++ cs) = e.text.length := by
  have hmark : mark ≠ '\n' ∧ mark ≠ '\r' :=
    forall_mem_of_all (p := fun c => c ≠ '\n' ∧ c ≠ '\r') (by decide) mark hm
  cases e with
  | lf => simp [rawEscapeLength, LineEnd.text, Ne.symm hmark.1]
  | crlf => simp [rawEscapeLength, LineEnd.text, Ne.symm hmark.2]
  | cr =>
    have hne := he rfl
    cases cs with
    | nil => simp [rawEscapeLength, LineEnd.text, Ne.symm hmark.2]
    | cons d cs =>
      have hd : d ≠ '\n' := by simpa using hne
      simp [rawEscapeLength, LineEnd.text, Ne.symm hmark.2, hd]

/-- Behind the backslash of a raw string, a quote and another backslash are taken, with a line end
after them. -/
theorem rawEscapeLength_other (mark : Char) (hc : c ∉ ['\x00', '\n', '\r']) (cs : List Char) :
    rawEscapeLength mark (c :: cs) = 0 ∧ c ≠ mark ∧ c ≠ '\\' ∨
      ∃ n, rawEscapeLength mark (c :: cs) = 1 + n ∧ n ≤ (cs.takeWhile isPassed).length := by
  simp only [List.mem_cons, List.not_mem_nil, or_false, not_or] at hc
  by_cases h : (c = mark || c = '\\') = true
  · right
    rw [rawEscapeLength]
    simp only [h, if_true, List.drop_one, List.tail_cons]
    split
    · exact ⟨2, rfl, by simp [isPassed]⟩
    · exact ⟨1, rfl, by simp [isPassed]⟩
    · exact ⟨1, rfl, by simp [isPassed]⟩
    · exact ⟨0, rfl, Nat.zero_le _⟩
  · left
    rw [rawEscapeLength]
    simp only [h, List.drop_zero, if_false, Bool.false_eq_true]
    refine ⟨?_, by simpa using h⟩
    split
    · rename_i he
      exact absurd (List.cons.inj he).1 hc.2.2
    · rename_i he
      exact absurd (List.cons.inj he).1 hc.2.2
    · rename_i he
      exact absurd (List.cons.inj he).1 hc.2.1
    · rfl

theorem StringStyle.Scans.lineEnd (h : s.Scans cs k) {e : LineEnd}
    (ht : e ≠ .cr → s.triple = true) : s.Scans (e.text ++ cs) (k + e.text.length) := by
  have hm := s.mark_mem
  have hne : ∀ c ∈ ['\n', '\r'], c ≠ s.mark := by
    rintro c hc rfl
    exact absurd hc (forall_mem_of_all (p := fun c => c ∉ ['\n', '\r']) (by decide) _ hm)
  have hreturn {k cs} (h : s.Scans cs k) : s.Scans ('\r' :: cs) (k + 1) :=
    h.char (by decide) (by decide) (fun he => absurd he (by decide)) fun he =>
      absurd he (hne '\r' (by decide))
  have hfeed {k cs} (h : s.Scans cs k) (ht : s.triple = true) : s.Scans ('\n' :: cs) (k + 1) :=
    h.char (by decide) (by decide) (fun _ => ht) fun he => absurd he (hne '\n' (by decide))
  cases e with
  | lf => exact hfeed h (ht (by decide))
  | cr => exact hreturn h
  | crlf => exact hreturn (hfeed h (ht (by decide)))

/-- A backslash that takes nothing with it leaves what follows to be scanned. -/
theorem StringStyle.Scans.backslash (h : s.Scans cs k) (htaken : s.taken cs = 0) :
    s.Scans ('\\' :: cs) (k + 1) :=
  StringStyle.Scans.escape (w := []) (n := 0) h (by simp) htaken (Nat.zero_le _)

theorem not_mem_zero_singleton (hc : c ∉ ['\x00', '\n', '\r']) : '\x00' ∉ [c] := fun hmem =>
  hc (List.mem_singleton.1 hmem ▸ List.mem_cons_self)

/-- Only a carriage return alone is not taken with the backslash in front of it. -/
theorem StringStyle.Scans.joined (h : s.Scans cs k) {e : LineEnd}
    (he : e = .cr → cs.head? ≠ some '\n') :
    s.Scans ('\\' :: (e.text ++ cs)) (k + (e.text.length + 1)) := by
  have hz : '\x00' ∉ e.text := by cases e <;> decide
  cases hr : s.raw with
  | true =>
    refine h.escape hz (n := 0) ?_ (Nat.zero_le _)
    rw [StringStyle.taken_raw hr, rawEscapeLength_lineEnd s.mark_mem he]
    rfl
  | false =>
    have hlength : s.taken (e.text ++ cs) = if e = .cr then 0 else e.text.length := by
      rw [StringStyle.taken_plain hr, escapeLength_lineEnd he]
    by_cases hcr : e = .cr
    · rw [if_pos hcr] at hlength
      exact (h.lineEnd fun hn => absurd hcr hn).backslash hlength
    · rw [if_neg hcr] at hlength
      exact h.escape hz (n := 0) hlength (Nat.zero_le _)

/-- Digits behind a backslash, of which the lexer takes up to three. -/
theorem StringStyle.Scans.digits (h : s.Scans cs k) (hr : s.raw = false) (hne : w ≠ [])
    (hlen : w.length ≤ 3) (hw : ∀ d ∈ w, isDigit d = true) :
    s.Scans ('\\' :: (w ++ cs)) (k + (w.length + 1)) := by
  have hz : '\x00' ∉ w := fun hmem => absurd (hw _ hmem) (by decide)
  obtain ⟨d, ds, rfl⟩ := List.exists_cons_of_ne_nil hne
  obtain ⟨hd, hds⟩ := List.forall_mem_cons.1 hw
  obtain ⟨n, hn, hpassed⟩ := escapeLength_digits hd hds (Nat.le_of_succ_le_succ hlen) cs
  refine h.escape hz ?_ hpassed
  rw [StringStyle.taken_plain hr, hn]

/-- A code point is taken with its backslash if it has all its digits. -/
theorem StringStyle.Scans.code (h : s.Scans cs k) (hr : s.raw = false) {m : Char} {width : Nat}
    (hm : hexWidth? m = some width) {ds : List Char} (hds : ∀ d ∈ ds, isHexDigit d = true)
    (hlen : ds.length = width ∨ ds.length < width ∧ ∀ d ∈ cs.head?, isHexDigit d = false) :
    s.Scans ('\\' :: (m :: ds ++ cs)) (k + ((m :: ds).length + 1)) := by
  have hlength : s.taken (m :: ds ++ cs) = if ds.length = width then (m :: ds).length else 0 := by
    rw [StringStyle.taken_plain hr, List.cons_append, escapeLength_hex hm hds hlen]
  have hplain : ∀ c ∈ m :: ds, c ∉ ['\\', '\x00', '\n', '\'', '"'] := by
    intro c hc hmem
    obtain ⟨hhex, hmark⟩ := forall_mem_of_all
      (p := fun c => isHexDigit c = false ∧ c ∉ ['x', 'u', 'U']) (by decide) c hmem
    exact not_mem_hexEscape hm hds hhex hmark hc
  by_cases hall : ds.length = width
  · rw [if_pos hall] at hlength
    exact h.escape (fun hz => hplain _ hz (by decide)) (n := 0) hlength (Nat.zero_le _)
  · rw [if_neg hall] at hlength
    exact (h.chars hplain).backslash hlength

/-- A backslash of a raw literal, with what stands behind it. -/
theorem StringStyle.Scans.raw (h : s.Scans cs k) (hr : s.raw = true)
    (hc : c ∉ ['\x00', '\n', '\r']) : s.Scans ('\\' :: c :: cs) (k + 2) := by
  obtain ⟨hlength, hm, hb⟩ | ⟨n, hlength, hpassed⟩ := rawEscapeLength_other s.mark hc cs
  · rw [← StringStyle.taken_raw hr] at hlength
    simp only [List.mem_cons, List.not_mem_nil, or_false, not_or] at hc
    have hscan := h.char hb hc.1 (fun he => absurd he hc.2.1) fun he => absurd he hm
    exact hscan.backslash hlength
  · rw [← StringStyle.taken_raw hr] at hlength
    exact h.escape (w := [c]) (not_mem_zero_singleton hc) hlength hpassed

/-- A backslash that stands for itself, with what stands behind it. -/
theorem StringStyle.Scans.other (h : s.Scans cs k) (hr : s.raw = false)
    (hc : c ∉ ['\x00', '\n', '\r']) (hletter : ∀ e ∈ escapes, e.1 ≠ c)
    (hcode : hexWidth? c = none) (hname : c = 'N' → cs.head? ≠ some '{') :
    s.Scans ('\\' :: c :: cs) (k + 2) := by
  by_cases hd : isDigit c = true
  · exact h.digits (w := [c]) hr (by simp) (by simp) (by simpa using hd)
  · have hlength : s.taken (c :: cs) = 0 := by
      rw [StringStyle.taken_plain hr]
      exact escapeLength_other hc hletter hcode (Bool.eq_false_iff.2 hd) hname
    have hplain : ∀ d ∈ [c], d ∉ ['\\', '\x00', '\n', '\'', '"'] := by
      intro d hmem
      obtain rfl := List.mem_singleton.1 hmem
      simp only [List.mem_cons, List.not_mem_nil, or_false, not_or] at hc ⊢
      exact ⟨fun he => hletter ('\\', '\\') (by decide) he.symm, hc.1, hc.2.1,
        fun he => hletter ('\'', '\'') (by decide) he.symm,
        fun he => hletter ('"', '"') (by decide) he.symm⟩
    exact (h.chars hplain).backslash hlength

theorem StringPart.Fits.scans {p : StringPart} (hp : p.Fits s cs) (h : s.Scans cs k) :
    s.Scans (p.text ++ cs) (k + p.text.length) := by
  cases hp with
  | @char c hc hm =>
    simp only [List.mem_cons, List.not_mem_nil, or_false, not_or] at hc
    exact h.char hc.1 hc.2.1 (fun he => absurd he hc.2.2.1) hm
  | line ht he => exact h.lineEnd fun _ => ht
  | joined he => exact h.joined he
  | @letter m c hr hm =>
    have hz : '\x00' ∉ [m] := by
      have hall : ∀ e ∈ escapes, '\x00' ∉ [e.1] := by decide
      exact hall _ hm
    refine h.escape (w := [m]) hz (n := 0) ?_ (Nat.zero_le _)
    rw [StringStyle.taken_plain hr, List.singleton_append, escapeLength_escapes hm]
    rfl
  | octal hr hne hlen hds _ => exact h.digits hr hne hlen fun d hd => isDigit_of_octal (hds d hd)
  | code hr hm hds _ => exact h.code hr hm hds (.inl rfl)
  | cut hr hm hlen hds hrest => exact h.code hr hm hds (.inr ⟨hlen, hrest⟩)
  | raw hr hc => exact h.raw hr hc
  | other hr hc hletter _ hcode hname => exact h.other hr hc hletter hcode hname

theorem StringStyle.Body.scans {ps : List StringPart} (h : s.Body ps) :
    s.Scans (partsText ps ++ s.closing) ((partsText ps).length + s.closing.length) := by
  induction h with
  | nil => simpa [partsText] using s.scans_closing
  | @cons p ps hp h ih =>
    have hscan := hp.scans ih
    have hlength : (partsText ps).length + s.closing.length + p.text.length =
        (partsText (p :: ps)).length + s.closing.length := by
      rw [partsText_cons, List.length_append]
      omega
    rwa [hlength, ← List.append_assoc, ← partsText_cons] at hscan

/-! The quotes -/

theorem StringStyle.closing_eq (s : StringStyle) : s.closing = s.mark :: s.closing.tail := by
  rw [closing]
  cases s.triple <;> rfl

/-- A literal in single quotes does not start with another one behind the first. -/
theorem StringStyle.Body.head {ps : List StringPart} (h : s.Body ps) (ht : s.triple = false) :
    ∀ c ∈ (partsText ps).head?, c ≠ s.mark := by
  have hmark : '\\' ≠ s.mark :=
    forall_mem_of_all (p := fun c => '\\' ≠ c) (by decide) _ s.mark_mem
  cases h with
  | nil => simp [partsText]
  | cons hp h =>
    cases hp with
    | char hc hm =>
      simp only [ht, Bool.false_eq_true, false_and, imp_false] at hm
      simpa [partsText, StringPart.text] using hm
    | line htriple => simp [ht] at htriple
    | _ => simpa [partsText, StringPart.text] using hmark

theorem openQuotes_body {ps : List StringPart} (h : s.Body ps) :
    openQuotes s.lead.toList s.mark (s.closing.tail ++ (partsText ps ++ s.closing)) =
      (s.quotes, s.closing.tail.length) := by
  have hback : s.mark ≠ '`' := forall_mem_of_all (p := fun c => c ≠ '`') (by decide) _ s.mark_mem
  have hformat : s.lead.toList.any (fun c => c = 'f' || c = 'F') = false := by
    rw [List.any_eq_false]
    intro c hc
    exact forall_mem_of_all (p := fun c => ¬(decide (c = 'f') || decide (c = 'F')) = true)
      (by decide) c (s.lead_mem c (Option.mem_toList.1 hc))
  have htriple : decide ((s.closing.tail ++ (partsText ps ++ s.closing)).take 2 =
      [s.mark, s.mark]) = s.triple := by
    cases ht : s.triple with
    | true => simp [StringStyle.closing, ht, List.replicate]
    | false =>
      have hhead := h.head ht
      cases hi : partsText ps with
      | nil => simp [StringStyle.closing, ht]
      | cons c cs =>
        have hne : c ≠ s.mark := hhead c (by rw [hi]; rfl)
        simp [StringStyle.closing, ht, hne]
  have hmore : (if s.triple = true then 2 else 0) = s.closing.tail.length := by
    rw [StringStyle.closing]
    cases s.triple <;> rfl
  simp [openQuotes, hback, hformat, htriple, hmore, StringStyle.quotes, StringStyle.raw]

end

namespace StringLiteral

theorem text_eq (l : StringLiteral) : l.text = l.style.lead.toList ++
    l.style.mark :: (l.style.closing.tail ++ (l.inner ++ l.style.closing)) := by
  rw [text, l.style.closing_eq]
  rfl

theorem stringToken?_text (l : StringLiteral) :
    stringToken? l.text = some (.string, l.text.length - 1) := by
  have hlead : ∀ c ∈ l.style.lead.toList, isLead c = true := fun c hc =>
    forall_mem_of_all (p := fun c => isLead c = true) (by decide) c
      (l.style.lead_mem c (Option.mem_toList.1 hc))
  have hmark : isQuoteMark l.style.mark = true :=
    forall_mem_of_all (p := fun c => isQuoteMark c = true) (by decide) _ l.style.mark_mem
  have hscan := l.body.scans 0 true (Nat.zero_le _)
  have hz : '\x00' ∉ l.style.closing.tail := by
    have hne : l.style.mark ≠ '\x00' :=
      forall_mem_of_all (p := fun c => c ≠ '\x00') (by decide) _ l.style.mark_mem
    intro hmem
    have := List.eq_of_mem_replicate (List.mem_of_mem_tail hmem)
    exact hne this.symm
  have hlength := stringLength_pass hz 0 [.text l.style.quotes true] (l.inner ++ l.style.closing)
  rw [Nat.add_zero, inner, hscan] at hlength
  rw [text_eq, inner, stringToken?_closed hlead hmark (openQuotes_body l.body) hlength]
  simp only [List.length_append, List.length_cons]
  refine congrArg (fun n => some (TokenKind.string, n)) ?_
  omega

theorem head_text (l : StringLiteral) :
    ∀ c ∈ l.text.head?, c ∈ ['r', 'R', 'u', 'U', '\'', '"'] := by
  rw [text_eq]
  cases h : l.style.lead with
  | none => simpa using List.mem_append_right ['r', 'R', 'u', 'U'] l.style.mark_mem
  | some c => simpa using List.mem_append_left ['\'', '"'] (l.style.lead_mem c h)

theorem getLast?_text (l : StringLiteral) : l.text.getLast? = some l.style.mark := by
  have hlast : l.style.closing.getLast? = some l.style.mark := by
    rw [StringStyle.closing]
    cases l.style.triple <;> rfl
  rw [text, List.getLast?_append, List.getLast?_append, List.getLast?_append, hlast]
  rfl

theorem munch_text (l : StringLiteral) {c : Char} {cs : List Char} (h : l.text = c :: cs) :
    isGap c = false ∧ munch c cs = (.string, cs.length) := by
  have hstart : isGap c = false ∧ startsText c = true :=
    forall_mem_of_all (p := fun c => isGap c = false ∧ startsText c = true) (by decide) c
      (l.head_text c (by rw [h]; rfl))
  have htoken := l.stringToken?_text
  rw [h] at htoken
  refine ⟨hstart.1, ?_⟩
  rw [munch_eq hstart.2, htoken]
  rfl

theorem text_ne_nil (l : StringLiteral) : l.text ≠ [] := by
  rw [text_eq]
  simp

/-- A string literal is one token. -/
theorem lex_text (l : StringLiteral) : lex l.text = [⟨[], .string, l.text⟩] := by
  obtain ⟨c, cs, h⟩ := List.exists_cons_of_ne_nil l.text_ne_nil
  obtain ⟨hgap, hmunch⟩ := l.munch_text h
  have hmunch' : munch c (cs ++ []) = (.string, cs.length) := by rw [List.append_nil, hmunch]
  have htoken := lexFrom_token hgap hmunch' (by decide) []
  rw [List.append_nil, lexFrom_nil] at htoken
  rw [lex, h, htoken]

end StringLiteral
end Pipewright.Source
