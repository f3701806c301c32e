import Pipewright.Proofs.Text.Numerals
import Pipewright.Text.Quoted

/-! Text between quotes is unescaped to what it is written for. -/
namespace Pipewright.Text

/-! One escape, in front of any text -/

section
variable {cs ds rest : List Char}

/-- Of digits up to a width, those that are there are taken. -/
theorem hexDigits_taken {width : Nat} (hds : ∀ d ∈ ds, isHexDigit d = true)
    (h : ds.length = width ∨ ds.length < width ∧ ∀ d ∈ rest.head?, isHexDigit d = false) :
    ((ds ++ rest).take width).takeWhile isHexDigit = ds := by
  obtain rfl | ⟨hlt, hrest⟩ := h
  · rw [List.take_left, List.takeWhile_eq_self_iff.2 hds]
  · rw [List.take_append, List.take_of_length_le (Nat.le_of_lt hlt)]
    refine takeWhile_append hds fun d hd => hrest d ?_
    cases rest with
    | nil => simp at hd
    | cons c rest =>
      obtain ⟨n, hn⟩ := Nat.exists_eq_add_of_lt hlt
      rw [show width - ds.length = n + 1 by omega] at hd
      exact hd

theorem unescape_cons {c : Char} (hc : c ≠ '\\') (rest : List Char) :
    unescape (c :: rest) = c :: unescape rest := by
  rw [unescape.eq_def]
  split
  · rename_i he
    cases he
  · rename_i he
    cases he
    exact absurd rfl hc
  · rename_i he
    cases he
    rfl

theorem unescape_chars (h : '\\' ∉ cs) (rest : List Char) :
    unescape (cs ++ rest) = cs ++ unescape rest := by
  induction cs with
  | nil => rfl
  | cons c cs ih =>
    rw [List.mem_cons, not_or] at h
    rw [List.cons_append, unescape_cons (Ne.symm h.1), ih h.2, List.cons_append]

theorem unescape_plain {c : Char} (h : hexWidth? c = none) (rest : List Char) :
    unescape ('\\' :: c :: rest) = plainEscape c ++ unescape rest := by
  rw [unescape, h]

theorem unescape_hex {m : Char} {width : Nat} (hm : hexWidth? m = some width)
    (hds : ∀ d ∈ ds, isHexDigit d = true)
    (h : ds.length = width ∨ ds.length < width ∧ ∀ d ∈ rest.head?, isHexDigit d = false) :
    unescape ('\\' :: m :: (ds ++ rest)) = hexEscape m width ds ++ unescape rest := by
  rw [unescape, hm]
  simp only [hexDigits_taken hds h, List.drop_left]

end

/-! Texts between quotes -/

/-- The escapes of one letter, with what they stand for. -/
def escapes : List (Char × Char) :=
  [('\\', '\\'), ('\'', '\''), ('"', '"'), ('n', '\n'), ('t', '\t'), ('r', '\r'), ('a', '\x07'),
    ('b', '\x08'), ('f', '\x0c'), ('v', '\x0b')]

/-- What can be written between two quotes of one kind, and the text it stands for. -/
inductive Written (mark : Char) : List Char → List Char → Prop where
  | nil : Written mark [] []
  | char {c : Char} {w cs : List Char} (hc : c ∉ [mark, '\\', '\n', '\r'])
      (h : Written mark w cs) : Written mark (c :: w) (c :: cs)
  | escape {m c : Char} {w cs : List Char} (hm : (m, c) ∈ escapes) (h : Written mark w cs) :
      Written mark ('\\' :: m :: w) (c :: cs)

theorem hexWidth?_escapes : ∀ e ∈ escapes, hexWidth? e.1 = none := by decide

theorem plainEscape_escapes : ∀ e ∈ escapes, plainEscape e.1 = [e.2] := by decide

theorem Written.unescape {mark : Char} {w cs : List Char} (h : Written mark w cs) :
    unescape w = cs := by
  induction h with
  | nil => simp [Text.unescape]
  | @char c w cs hc _ ih =>
    have hb : c ≠ '\\' := fun he => hc (he ▸ by simp)
    rw [unescape_cons hb, ih]
  | escape hm _ ih =>
    rw [unescape_plain (hexWidth?_escapes _ hm), plainEscape_escapes _ hm, ih]
    rfl

/-- What is between quotes does not start with another one of them. -/
theorem Written.head {mark : Char} {w cs : List Char} (hm : mark = '\'' ∨ mark = '"')
    (h : Written mark w cs) :
    ∀ c ∈ w.head?, c ≠ mark := by
  cases h with
  | nil => simp
  | char hc => simpa using fun he => hc (by simp [he])
  | escape => rcases hm with rfl | rfl <;> simp

theorem Written.newline_not_mem {mark : Char} {w cs : List Char} (h : Written mark w cs) :
    '\n' ∉ w := by
  induction h with
  | nil => exact List.not_mem_nil
  | char hc _ ih => exact List.not_mem_cons_of_ne_of_not_mem (fun he => hc (by simp [← he])) ih
  | escape hm _ ih =>
    have hall : ∀ e ∈ escapes, '\n' ∉ ['\\', e.1] := by decide
    exact List.not_mem_append (hall _ hm) ih

/-- Between single quotes, a character is written as itself or as its escape. -/
theorem escapeQuoted_cases (c : Char) :
    (escapeQuoted c = [c] ∧ c ∉ ['\'', '\\', '\n', '\r']) ∨
      ∃ m, (m, c) ∈ escapes ∧ escapeQuoted c = ['\\', m] := by
  by_cases hb : c = '\\'
  · exact .inr ⟨'\\', by simp [escapes, hb], by simp [escapeQuoted, hb]⟩
  by_cases hq : c = '\''
  · exact .inr ⟨'\'', by simp [escapes, hq], by simp [escapeQuoted, hq]⟩
  by_cases hn : c = '\n'
  · exact .inr ⟨'n', by simp [escapes, hn], by simp [escapeQuoted, hn]⟩
  by_cases ht : c = '\t'
  · exact .inr ⟨'t', by simp [escapes, ht], by simp [escapeQuoted, ht]⟩
  by_cases hr : c = '\r'
  · exact .inr ⟨'r', by simp [escapes, hr], by simp [escapeQuoted, hr]⟩
  · exact .inl ⟨by simp [escapeQuoted, hb, hq, hn, ht, hr], by simp [hb, hq, hn, hr]⟩

/-- Every text can be written between single quotes. -/
theorem written_escapeAll (cs : List Char) : Written '\'' (escapeAll cs) cs := by
  induction cs with
  | nil => exact .nil
  | cons c cs ih =>
    obtain ⟨he, hc⟩ | ⟨m, hm, he⟩ := escapeQuoted_cases c
    · rw [escapeAll, he]
      exact .char hc ih
    · rw [escapeAll, he]
      exact .escape hm ih

theorem not_mem_escapeAll {cs : List Char} (h : '\x00' ∉ cs) : '\x00' ∉ escapeAll cs := by
  induction cs with
  | nil => exact List.not_mem_nil
  | cons c cs ih =>
    rw [List.mem_cons, not_or] at h
    rw [escapeAll, List.mem_append, not_or]
    refine ⟨?_, ih h.2⟩
    obtain ⟨he, -⟩ | ⟨m, hm, he⟩ := escapeQuoted_cases c
    · simpa [he] using h.1
    · have hall : ∀ e ∈ escapes, '\x00' ∉ ['\\', e.1] := by decide
      exact he ▸ hall _ hm

end Pipewright.Text
