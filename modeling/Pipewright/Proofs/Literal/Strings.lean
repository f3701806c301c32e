import Pipewright.Proofs.Literal.RoundTrip
import Pipewright.Proofs.Source.Strings

/-! The values of string literals, and what reading makes of them. -/
namespace Pipewright.Source
open Pipewright.Text

namespace StringPart

/-- The code points a part stands for. A line end is a line feed, however it is written, and goes
with the backslash in front of it. -/
def value (raw : Bool) : StringPart → List Nat
  | .char c => [c.toNat]
  | .line _ => ['\n'.toNat]
  | .joined _ => if raw then ['\\'.toNat, '\n'.toNat] else []
  | .letter _ c => [c.toNat]
  | .octal ds => [digitsValue 8 ds]
  | .code _ ds => [digitsValue 16 ds]
  | .cut m ds => ('\\' :: m :: ds).map Char.toNat
  | .other c => ['\\', c].map Char.toNat

/-- What a part is read as. -/
def shown (raw : Bool) : StringPart → List Char
  | .joined e => if e = .lf ∧ raw = false then [] else '\\' :: e.text
  | .letter _ c => [c]
  | .octal ds => if ds.head? = some '0' then '\x00' :: ds.tail else '\\' :: ds
  | .code m ds => ((charOf? (digitsValue 16 ds)).map fun c => [c]).getD ('\\' :: m :: ds)
  | p => p.text

/-- Whether reading keeps what a part stands for: no octal escape but a single zero is resolved,
no text holds a surrogate, and carriage returns stay in the text. -/
def Kept : StringPart → Prop
  | .line e | .joined e => e = .lf
  | .octal ds => ds = ['0']
  | .code _ ds => (digitsValue 16 ds).isValidChar
  | _ => True

end StringPart

namespace StringLiteral

def value (l : StringLiteral) : List Nat := l.parts.flatMap (StringPart.value l.style.raw)

def shown (l : StringLiteral) : List Char := l.parts.flatMap (StringPart.shown l.style.raw)

end StringLiteral

/-! Escapes of digits -/

theorem numberFrom?_eq {base : Nat} {ds : List Char} (h : ∀ d ∈ ds, isDigitOf base d = true)
    (n : Nat) : numberFrom? base n ds =
      some (ds.foldl (fun n d => base * n + (digitValue? d).getD 0) n) := by
  induction ds generalizing n with
  | nil => rfl
  | cons d ds ih =>
    obtain ⟨hd, hds⟩ := List.forall_mem_cons.1 h
    rw [isDigitOf] at hd
    cases hv : digitValue? d with
    | none => simp [hv] at hd
    | some v =>
      have hlt : v < base := by simpa [hv] using hd
      simp only [numberFrom?, hv, hlt, if_true, ih hds, List.foldl_cons, Option.getD_some]

theorem number?_eq {base : Nat} {ds : List Char} (hne : ds ≠ [])
    (h : ∀ d ∈ ds, isDigitOf base d = true) : number? base ds = some (digitsValue base ds) := by
  rw [number?, if_neg (by simpa using hne), numberFrom?_eq h, digitsValue]

theorem isDigitOf_sixteen {d : Char} (h : isHexDigit d = true) : isDigitOf 16 d = true :=
  of_isHexDigit (p := fun d => isDigitOf 16 d = true) h (by decide)

theorem hexEscape_eq {m : Char} {ds : List Char} (hm : hexWidth? m = some ds.length)
    (hds : ∀ d ∈ ds, isHexDigit d = true) :
    hexEscape m ds.length ds = StringPart.shown false (.code m ds) := by
  have hne : ds ≠ [] := by
    rintro rfl
    obtain ⟨-, h⟩ | ⟨-, h⟩ | ⟨-, h⟩ := hexWidth?_cases hm <;> simp at h
  rw [hexEscape, number?_eq hne fun d hd => isDigitOf_sixteen (hds d hd), Option.bind_some,
    StringPart.shown]
  cases charOf? (digitsValue 16 ds) with
  | none => rfl
  | some c => exact if_pos rfl

theorem hexEscape_short {m : Char} {width : Nat} {ds : List Char} (h : ds.length ≠ width) :
    hexEscape m width ds = '\\' :: m :: ds := by
  rw [hexEscape]
  split
  · exact if_neg h
  · rfl

theorem plainEscape_other {c : Char} (hc : c ≠ '\n') (hzero : c ≠ '0')
    (hletter : ∀ e ∈ escapes, e.1 ≠ c) : plainEscape c = ['\\', c] := by
  have h : ∀ m ∈ escapes.map Prod.fst, c ≠ m := by
    intro m hm he
    obtain ⟨e, hmem, rfl⟩ := List.mem_map.1 hm
    exact hletter e hmem he.symm
  simp only [escapes, List.map_cons, List.map_nil, List.mem_cons, List.not_mem_nil, or_false,
    forall_eq_or_imp, forall_eq] at h
  simp [plainEscape, hc, hzero, h]

/-- Of an octal escape only a zero in front is resolved. -/
theorem unescape_octal {ds : List Char} (hne : ds ≠ []) (hds : ∀ d ∈ ds, isDigitOf 8 d = true)
    (rest : List Char) :
    unescape ('\\' :: (ds ++ rest)) = StringPart.shown false (.octal ds) ++ unescape rest := by
  obtain ⟨d, ds, rfl⟩ := List.exists_cons_of_ne_nil hne
  obtain ⟨hd, hds⟩ := List.forall_mem_cons.1 hds
  have hcode : hexWidth? d = none :=
    of_isDigit (p := fun d => hexWidth? d = none) (isDigit_of_octal hd) (by decide)
  have hb : '\\' ∉ ds := fun hmem => absurd (hds _ hmem) (by decide)
  have hplain := unescape_plain hcode (ds ++ rest)
  rw [unescape_chars hb] at hplain
  by_cases hzero : d = '0'
  · subst hzero
    exact hplain
  · have hletter : d ≠ '\n' ∧ ∀ e ∈ escapes, e.1 ≠ d :=
      of_isDigit (p := fun d => d ≠ '\n' ∧ ∀ e ∈ escapes, e.1 ≠ d) (isDigit_of_octal hd)
        (by decide)
    rw [plainEscape_other hletter.1 hzero hletter.2] at hplain
    rw [StringPart.shown, List.head?_cons, if_neg (by simpa using hzero)]
    exact hplain

/-! Reading -/

section
variable {s : StringStyle} {p : StringPart} {ps : List StringPart} {rest : List Char}

theorem StringPart.Fits.unescape (hp : p.Fits s (rest ++ s.closing)) (hr : s.raw = false) :
    unescape (p.text ++ rest) = p.shown false ++ unescape rest := by
  cases hp with
  | char hc =>
    exact unescape_cons (fun he => hc (he ▸ List.mem_cons_self)) rest
  | @line e =>
    have hb : '\\' ∉ e.text := by cases e <;> decide
    exact unescape_chars hb rest
  | @joined e =>
    cases e with
    | lf => exact unescape_plain rfl rest
    | cr => exact unescape_plain rfl rest
    | crlf =>
      have hplain := unescape_plain (c := '\r') rfl ('\n' :: rest)
      have hfeed : unescape ('\n' :: rest) = '\n' :: unescape rest := unescape_cons (by decide) rest
      rwa [hfeed] at hplain
  | letter _ hm =>
    have hplain := unescape_plain (hexWidth?_escapes _ hm) rest
    rwa [plainEscape_escapes _ hm] at hplain
  | octal _ hne _ hds => exact unescape_octal hne hds rest
  | @code m ds _ hm hds _ =>
    have hhex : unescape ('\\' :: m :: (ds ++ rest)) = _ := unescape_hex hm hds (.inl rfl)
    rwa [hexEscape_eq hm hds] at hhex
  | cut _ hm hlen hds hrest =>
    have hhead : ∀ d ∈ rest.head?, isHexDigit d = false := fun d hd => hrest d (by
      rw [List.head?_append, Option.mem_def.1 hd]
      rfl)
    have hhex := unescape_hex hm hds (.inr ⟨hlen, hhead⟩)
    rwa [hexEscape_short (Nat.ne_of_lt hlen)] at hhex
  | raw hraw => simp [hr] at hraw
  | @other c _ hc hletter hdigit hcode =>
    have hzero : c ≠ '0' := by
      rintro rfl
      exact absurd hdigit (by decide)
    have hplain := unescape_plain hcode rest
    rwa [plainEscape_other (fun he => hc (by simp [he])) hzero hletter] at hplain

theorem StringStyle.Body.unescape (h : s.Body ps) (hr : s.raw = false) :
    unescape (partsText ps) = ps.flatMap (StringPart.shown false) := by
  induction h with
  | nil => simp [partsText, Text.unescape]
  | cons hp _ ih => rw [partsText_cons, hp.unescape hr, ih, List.flatMap_cons]

/-- A raw text is read as it is written. -/
theorem StringPart.Fits.shown_raw (hp : p.Fits s rest) (hr : s.raw = true) :
    p.shown true = p.text := by
  cases hp with
  | letter h | octal h | code h | cut h => simp [hr] at h
  | joined => exact if_neg (by simp)
  | _ => rfl

theorem StringStyle.Body.shown_raw (h : s.Body ps) (hr : s.raw = true) :
    ps.flatMap (StringPart.shown true) = partsText ps := by
  induction h with
  | nil => rfl
  | cons hp _ ih => rw [partsText_cons, List.flatMap_cons, hp.shown_raw hr, ih]

end

namespace StringLiteral

/-- Three quotes stand in front only of a literal in triple quotes. -/
theorem triple_of_eq (l : StringLiteral) {m : Char} {r : List Char}
    (h : l.style.closing ++ (l.inner ++ l.style.closing) = m :: m :: m :: r) :
    l.style.triple = true := by
  rw [← Bool.not_eq_false]
  intro ht
  have hfirst := l.body.head ht
  rw [← inner] at hfirst
  rw [StringStyle.closing, ht] at h
  obtain ⟨hm, h⟩ := List.cons.inj h
  cases hi : l.inner with
  | nil => simp [hi] at h
  | cons c cs =>
    rw [hi] at h hfirst
    exact hfirst c rfl ((List.cons.inj h).1.trans hm.symm)

theorem splitString_text (l : StringLiteral) :
    Literal.splitString l.text = (l.style.lead.toList, l.inner) := by
  have hletter : ∀ c ∈ l.style.lead.toList, isAsciiLetter c = true := fun c hc =>
    forall_mem_of_all (p := fun c => isAsciiLetter c = true) (by decide) c
      (l.style.lead_mem c (Option.mem_toList.1 hc))
  have hmark : isAsciiLetter l.style.mark = false :=
    forall_mem_of_all (p := fun c => isAsciiLetter c = false) (by decide) _ l.style.mark_mem
  have hhead : ∀ c ∈ (l.style.closing ++ (l.inner ++ l.style.closing)).head?,
      isAsciiLetter c = false := by
    rw [l.style.closing_eq]
    simpa using hmark
  have hcut : ∀ n, n = l.style.closing.length →
      ((l.style.closing ++ (l.inner ++ l.style.closing)).drop n).take
        ((l.style.closing ++ (l.inner ++ l.style.closing)).length - 2 * n) = l.inner := by
    rintro n rfl
    have hlength : (l.style.closing ++ (l.inner ++ l.style.closing)).length -
        2 * l.style.closing.length = l.inner.length := by
      simp only [List.length_append]
      omega
    rw [List.drop_left, hlength, List.take_left]
  have hwidth : l.style.closing.length = if l.style.triple then 3 else 1 := by
    rw [StringStyle.closing, List.length_replicate]
  rw [Literal.splitString, text]
  simp only [takeWhile_append hletter hhead, dropWhile_append hletter hhead]
  refine congrArg _ (hcut _ ?_)
  rw [hwidth]
  split
  · rename_i r h
    rw [if_pos (l.triple_of_eq h)]
  · rename_i r h
    rw [if_pos (l.triple_of_eq h)]
  · rename_i hdouble hsingle
    refine (if_neg fun ht => ?_).symm
    have hm := l.style.mark_mem
    simp only [List.mem_cons, List.not_mem_nil, or_false] at hm
    rcases hm with hm | hm
    · exact hsingle _ (by rw [StringStyle.closing, ht, hm]; rfl)
    · exact hdouble _ (by rw [StringStyle.closing, ht, hm]; rfl)

theorem stringChars?_text (l : StringLiteral) : Literal.stringChars? l.text = some l.shown := by
  have hlead : (l.style.lead.toList.map lower).contains 'f' = false ∧
      (l.style.lead.toList.map lower).contains 'r' = l.style.raw := by
    rw [StringStyle.raw]
    cases h : l.style.lead with
    | none => exact ⟨rfl, rfl⟩
    | some c =>
      exact forall_mem_of_all (p := fun c => ([c].map lower).contains 'f' = false ∧
        ([c].map lower).contains 'r' = [c].any fun c => c = 'r' || c = 'R') (by decide) c
        (l.style.lead_mem c h)
  rw [Literal.stringChars?, splitString_text]
  simp only [hlead, Bool.false_and, Bool.false_eq_true, if_false]
  rw [shown]
  cases hr : l.style.raw with
  | true => rw [if_pos rfl, l.body.shown_raw hr, inner]
  | false => rw [if_neg Bool.false_ne_true, inner, l.body.unescape hr]

/-- A string literal is read as a text, part by part. -/
theorem read_eq (l : StringLiteral) :
    Literal.read (String.ofList l.text) = .str (String.ofList l.shown) := by
  have htrim : trim l.text = l.text := by
    refine trim_eq_self (fun c hc => ?_) fun c hc => ?_
    · exact forall_mem_of_all (p := fun c => isBlank c = false) (by decide) c (l.head_text c hc)
    · rw [l.getLast?_text] at hc
      exact forall_mem_of_all (p := fun c => isBlank c = false) (by decide) c
        (Option.mem_some.1 hc ▸ l.style.mark_mem)
  have htokens : Literal.ofTokens? [⟨[], .string, l.text⟩] =
      some (.str (String.ofList l.shown)) := by
    simp [Literal.ofTokens?, Literal.readValue, Literal.takeStrings, Literal.joinStrings?,
      stringChars?_text]
  have hread := Literal.read_of_lex htrim l.lex_text (by simp [Literal.isSpacer])
    (by simp [Literal.dropEnd, Token.isMark]) (by simp [Literal.exprText, spell])
  rw [hread, htokens, Option.getD_some]

end StringLiteral

/-! Values -/

section
variable {s : StringStyle} {p : StringPart} {ps : List StringPart} {rest : List Char}

theorem charOf?_eq_some {n : Nat} {c : Char} (h : charOf? n = some c) :
    c.toNat = n ∧ n.isValidChar := by
  by_cases hn : n.isValidChar
  · rw [charOf?, dif_pos hn] at h
    rw [← Option.some.inj h]
    exact ⟨rfl, hn⟩
  · rw [charOf?, dif_neg hn] at h
    cases h

/-- What is read is nowhere shorter than the value, and the value only for parts that are kept. -/
theorem StringPart.Fits.shown_value (hp : p.Fits s rest) :
    (p.value s.raw).length ≤ (p.shown s.raw).length ∧
      ((p.shown s.raw).map Char.toNat = p.value s.raw ↔ p.Kept) := by
  cases hp with
  | @line e => cases e <;> simp [StringPart.value, shown, text, LineEnd.text, Kept]
  | @joined e =>
    cases s.raw <;> cases e <;> simp [StringPart.value, shown, LineEnd.text, Kept]
  | @octal ds _ hne =>
    obtain ⟨d, ds, rfl⟩ := List.exists_cons_of_ne_nil hne
    by_cases hzero : d = '0'
    · subst hzero
      cases ds with
      | nil =>
        have hvalue : digitsValue 8 ['0'] = 0 := rfl
        simp [StringPart.value, shown, Kept, hvalue]
      | cons => simp [StringPart.value, shown, Kept]
    · simp [StringPart.value, shown, Kept, hzero]
  | @code m ds =>
    cases hc : charOf? (digitsValue 16 ds) with
    | none =>
      have hnot : ¬(digitsValue 16 ds).isValidChar := fun hn => by
        rw [charOf?, dif_pos hn] at hc
        cases hc
      simp [StringPart.value, shown, Kept, hc, hnot]
    | some c =>
      obtain ⟨hn, hvalid⟩ := charOf?_eq_some hc
      simp [StringPart.value, shown, Kept, hc, hn, hvalid]
  | _ => simp [StringPart.value, shown, text, Kept]

theorem StringStyle.Body.shown_value (h : s.Body ps) :
    (ps.flatMap (StringPart.value s.raw)).length ≤ (ps.flatMap (StringPart.shown s.raw)).length ∧
      ((ps.flatMap (StringPart.shown s.raw)).map Char.toNat =
        ps.flatMap (StringPart.value s.raw) ↔ ∀ p ∈ ps, p.Kept) := by
  induction h with
  | nil => simp
  | @cons p ps hp _ ih =>
    obtain ⟨hle, hiff⟩ := hp.shown_value
    obtain ⟨hles, hiffs⟩ := ih
    rw [List.flatMap_cons, List.flatMap_cons, List.map_append, List.forall_mem_cons, ← hiff,
      ← hiffs, List.length_append, List.length_append]
    refine ⟨Nat.add_le_add hle hles, fun h => ?_, fun h => by rw [h.1, h.2]⟩
    -- As no part is shorter than its value, parts and values end at the same places.
    have hlength := congrArg List.length h
    rw [List.length_append, List.length_append, List.length_map, List.length_map] at hlength
    exact List.append_inj h (by rw [List.length_map]; omega)

end

/-- A string literal is read as a text. The text is the literal's value just if the literal holds
no octal escape other than that of a single zero, no surrogate and no carriage return as the end of
a line; for each part of it, `shown` says what stands in its place. -/
theorem StringLiteral.read_spelling (l : StringLiteral) :
    Literal.read (String.ofList l.text) = .str (String.ofList l.shown) ∧
      (l.shown.map Char.toNat = l.value ↔ ∀ p ∈ l.parts, p.Kept) :=
  ⟨l.read_eq, l.body.shown_value.2⟩

/-- A letter given by its octal code. -/
def octalLetter : StringLiteral where
  style := ⟨none, '\'', false, by simp, by simp⟩
  parts := [.octal ['1', '0', '1']]
  body := .cons (.octal rfl (by simp) (by simp) (forall_mem_of_all (by decide)) (by simp)) .nil

example : octalLetter.text = "'\\101'".toList ∧ octalLetter.value = ['A'.toNat] ∧
    octalLetter.shown = "\\101".toList := ⟨rfl, rfl, rfl⟩

end Pipewright.Source
