import Mathlib.Data.List.Forall2
import Pipewright.Proofs.Text.Numerals
import Pipewright.Proofs.Text.Pieces
import Pipewright.Text.Blank

/-! Texts without blanks at their ends. -/
namespace Pipewright.Text

theorem trim_eq_self {cs : List Char} (hh : ∀ c ∈ cs.head?, isBlank c = false)
    (hl : ∀ c ∈ cs.getLast?, isBlank c = false) : trim cs = cs := by
  rw [trim, trimStart, dropWhile_of_head hh, trimEnd, dropWhile_of_head (by simpa using hl),
    List.reverse_reverse]

theorem trim_of_all {cs : List Char} (h : ∀ c ∈ cs, isBlank c = false) : trim cs = cs :=
  trim_eq_self (fun c hc => h c (List.mem_of_mem_head? hc))
    fun c hc => h c (List.mem_of_mem_getLast? hc)

theorem trim_of_enclosed {a b : Char} (ha : isBlank a = false) (hb : isBlank b = false)
    (cs : List Char) : trim (a :: (cs ++ [b])) = a :: (cs ++ [b]) :=
  trim_eq_self (by simpa using ha) (by simpa [List.getLast?_cons] using hb)

variable {cs bs : List Char}

/-! What stands at the ends -/

theorem trimStart_suffix (cs : List Char) : trimStart cs <:+ cs := List.dropWhile_suffix _

theorem trimEnd_isPrefix (cs : List Char) : trimEnd cs <+: cs := by
  rw [trimEnd, ← List.reverse_suffix, List.reverse_reverse]
  exact List.dropWhile_suffix _

theorem head_of_trimmed (h : trim cs = cs) : ∀ c ∈ cs.head?, isBlank c = false := by
  have hle : cs.length ≤ (trimStart cs).length := by
    rw [← congrArg List.length h]
    exact (trimEnd_isPrefix _).length_le
  have hstart : trimStart cs = cs := (trimStart_suffix cs).eq_of_length_le hle
  intro c hc
  have hnot := List.head?_dropWhile_not isBlank cs
  rw [show cs.dropWhile isBlank = cs from hstart, Option.mem_def.1 hc] at hnot
  exact hnot

theorem getLast?_trimEnd (V : List Char) : ∀ x ∈ (trimEnd V).getLast?, isBlank x = false := by
  intro x hx
  have hnot := List.head?_dropWhile_not isBlank V.reverse
  rw [trimEnd, List.getLast?_reverse] at hx
  rwa [Option.mem_def.1 hx] at hnot

theorem last_of_trimmed (h : trim cs = cs) : ∀ c ∈ cs.getLast?, isBlank c = false := by
  intro c hc
  have hnot := List.head?_dropWhile_not isBlank (trimStart cs).reverse
  rw [← h, trim, trimEnd, List.getLast?_reverse] at hc
  rw [Option.mem_def.1 hc] at hnot
  exact hnot

theorem trimStart_blanks (hb : ∀ c ∈ bs, isBlank c) (cs : List Char) :
    trimStart (bs ++ cs) = trimStart cs :=
  List.dropWhile_append_of_pos hb

theorem trimEnd_blanks (hb : ∀ c ∈ bs, isBlank c) (cs : List Char) :
    trimEnd (cs ++ bs) = trimEnd cs := by
  rw [trimEnd, List.reverse_append, List.dropWhile_append_of_pos fun c hc =>
    hb c (List.mem_reverse.1 hc)]
  rfl

theorem trimEnd_shown {x : Char} (hx : isBlank x = false) (V R : List Char) :
    trimEnd (V ++ x :: R) = V ++ x :: trimEnd R := by
  rw [trimEnd, List.reverse_append, List.reverse_cons, List.append_assoc, List.dropWhile_append]
  split
  · rename_i hempty
    rw [trimEnd, List.isEmpty_iff.1 hempty, List.singleton_append,
      List.dropWhile_cons_of_neg (by simp [hx])]
    simp
  · rw [trimEnd]
    simp

theorem trimEnd_eq_self (hl : ∀ c ∈ cs.getLast?, isBlank c = false) : trimEnd cs = cs := by
  rw [trimEnd, dropWhile_of_head (by simpa using hl), List.reverse_reverse]

theorem trim_blanks (hb : ∀ c ∈ bs, isBlank c) (cs : List Char) : trim (cs ++ bs) = trim cs := by
  by_cases hall : ∀ c ∈ cs, isBlank c
  · have happend : ∀ c ∈ cs ++ bs, isBlank c := List.forall_mem_append.2 ⟨hall, hb⟩
    rw [trim, trim, trimStart, trimStart, List.dropWhile_eq_nil_iff.2 happend,
      List.dropWhile_eq_nil_iff.2 hall]
  · have hne : trimStart cs ≠ [] := fun he => hall (List.dropWhile_eq_nil_iff.1 he)
    have happend : trimStart (cs ++ bs) = trimStart cs ++ bs := by
      have hkept : ¬(cs.dropWhile isBlank).isEmpty := fun he => hne (List.isEmpty_iff.1 he)
      rw [trimStart, List.dropWhile_append, if_neg hkept]
      rfl
    rw [trim, happend, trimEnd_blanks hb]
    rfl

theorem trim_between {ds : List Char} (hb : ∀ c ∈ bs, isBlank c) (hd : ∀ c ∈ ds, isBlank c)
    (cs : List Char) : trim (bs ++ (cs ++ ds)) = trim cs := by
  rw [← List.append_assoc, trim_blanks hd, trim, trimStart_blanks hb]
  rfl

theorem trim_trimEnd (cs : List Char) : trim (trimEnd cs) = trim cs := by
  have hblank : ∀ c ∈ (cs.reverse.takeWhile isBlank).reverse, isBlank c := fun c hc =>
    List.mem_takeWhile_imp (List.mem_reverse.1 hc)
  have hcs : trimEnd cs ++ (cs.reverse.takeWhile isBlank).reverse = cs := by
    rw [trimEnd, ← List.reverse_append, List.takeWhile_append_dropWhile, List.reverse_reverse]
  conv_rhs => rw [← hcs, trim_blanks hblank]

/-- A text behind blanks that ends as one without blanks at its ends. -/
theorem trim_of_ends (hb : ∀ c ∈ bs, isBlank c) (hh : ∀ c ∈ cs.head?, isBlank c = false)
    (hl : ∀ c ∈ cs.getLast?, isBlank c = false) : trim (bs ++ cs) = cs := by
  rw [trim, trimStart_blanks hb, trimStart, dropWhile_of_head hh, trimEnd_eq_self hl]

theorem forall_head_append {p : Char → Prop} (hne : cs ≠ []) (h : ∀ c ∈ cs.head?, p c)
    (rest : List Char) : ∀ c ∈ (cs ++ rest).head?, p c := by
  rw [List.head?_append_of_ne_nil cs hne]
  exact h

theorem trimStart_ne_nil (h : ∃ c ∈ cs.getLast?, isBlank c = false) : trimStart cs ≠ [] := by
  intro hnil
  obtain ⟨c, hc, hblank⟩ := h
  rw [List.dropWhile_eq_nil_iff.1 hnil c (List.mem_of_getLast? hc)] at hblank
  cases hblank

/-- A text that ends in no blank is trimmed at its start. -/
theorem trim_trimStart (h : ∃ c ∈ cs.getLast?, isBlank c = false) :
    trim (trimStart cs) = trimStart cs := by
  obtain ⟨front, hfront⟩ := trimStart_suffix cs
  refine trim_eq_self (fun c hc => ?_) fun c hc => ?_
  · have hnot := List.head?_dropWhile_not isBlank cs
    rw [show cs.dropWhile isBlank = trimStart cs from rfl, Option.mem_def.1 hc] at hnot
    exact hnot
  · obtain ⟨d, hd, hblank⟩ := h
    rw [← hfront, List.getLast?_append_of_ne_nil front (List.ne_nil_of_mem
      (List.mem_of_getLast? hc))] at hd
    rw [Option.mem_unique hc hd]
    exact hblank

end Pipewright.Text
