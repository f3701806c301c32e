import Pipewright.Proofs.Text.Splitting
import Pipewright.Proofs.Text.Trimming

/-! The lines of texts given line by line. -/
namespace Pipewright.Text

/-- Lines that all end. -/
def ended (ls : List (List Char)) : List Char := ls.flatMap (· ++ ['\n'])

theorem ended_cons (l : List Char) (ls : List (List Char)) :
    ended (l :: ls) = l ++ '\n' :: ended ls := by
  rw [ended, List.flatMap_cons, List.append_assoc, List.singleton_append]
  rfl

theorem ended_append (ls ms : List (List Char)) : ended (ls ++ ms) = ended ls ++ ended ms :=
  List.flatMap_append

/-! Lines -/

section
variable {c : Char} {l r cs : List Char} {ls : List (List Char)}

theorem lines_cons (hc : c ≠ '\n') (hr : c = '\r' → r.head? ≠ some '\n') :
    lines (c :: r) = match lines r with
      | [] => [[c]]
      | l :: ls => (c :: l) :: ls := by
  rw [lines.eq_def]
  split
  · rename_i h
    cases h
  · rename_i h
    exact absurd (List.cons.inj h).1 hc
  · rename_i h
    obtain ⟨rfl, rfl⟩ := List.cons.inj h
    exact absurd rfl (hr rfl)
  · rename_i h
    obtain ⟨rfl, rfl⟩ := List.cons.inj h
    rfl

/-- The first line of a text, if it ends in a newline alone. -/
theorem lines_line (hl : '\n' ∉ l) (hr : l.getLast? ≠ some '\r') (r : List Char) :
    lines (l ++ '\n' :: r) = l :: lines r := by
  induction l with
  | nil => rfl
  | cons c l ih =>
    rw [List.mem_cons, not_or] at hl
    have hlast : l.getLast? ≠ some '\r' := by
      cases l with
      | nil => simp
      | cons d l => rwa [List.getLast?_cons_cons] at hr
    have hnext : c = '\r' → (l ++ '\n' :: r).head? ≠ some '\n' := by
      rintro rfl
      cases l with
      | nil => exact absurd rfl hr
      | cons d l => simpa using fun he : d = '\n' => hl.2 (he ▸ List.mem_cons_self)
    rw [List.cons_append, lines_cons (Ne.symm hl.1) hnext, ih hl.2 hlast]

theorem lines_last (hl : '\n' ∉ l) (hne : l ≠ []) : lines l = [l] := by
  induction l with
  | nil => exact absurd rfl hne
  | cons c l ih =>
    rw [List.mem_cons, not_or] at hl
    have hnext : c = '\r' → l.head? ≠ some '\n' := fun _ he => hl.2 (List.mem_of_head? he)
    rw [lines_cons (Ne.symm hl.1) hnext]
    cases l with
    | nil => rfl
    | cons d l => rw [ih hl.2 (List.cons_ne_nil d l)]

/-- The lines of lines that end, and of one more that does not. -/
theorem lines_ended (hls : ∀ l ∈ ls, '\n' ∉ l ∧ l.getLast? ≠ some '\r') (hl : '\n' ∉ l) :
    lines (ended ls ++ l) = ls ++ if l = [] then [] else [l] := by
  induction ls with
  | nil =>
    split
    · rename_i h
      simp [ended, h, lines]
    · rename_i h
      exact lines_last hl h
  | cons m ls ih =>
    obtain ⟨hm, hls⟩ := List.forall_mem_cons.1 hls
    rw [ended_cons, List.append_assoc, List.cons_append, lines_line hm.1 hm.2, List.cons_append]
    exact congrArg (m :: ·) (ih hls)

/-- The first line of a text, if a carriage return belongs to its end. -/
theorem lines_return (hl : '\n' ∉ l) (r : List Char) :
    lines (l ++ '\r' :: '\n' :: r) = l :: lines r := by
  induction l with
  | nil => rfl
  | cons c l ih =>
    rw [List.mem_cons, not_or] at hl
    have hnext : c = '\r' → (l ++ '\r' :: '\n' :: r).head? ≠ some '\n' := by
      intro _ he
      cases l with
      | nil => cases he
      | cons d l => exact hl.2 (Option.some.inj he ▸ List.mem_cons_self)
    rw [List.cons_append, lines_cons (Ne.symm hl.1) hnext, ih hl.2]

/-- The lines of a text as they stand in it: a carriage return may follow each. -/
theorem lines_cut (hls : ∀ l ∈ ls, '\n' ∉ l) (hl : '\n' ∉ l) :
    List.Forall₂ (fun shown l => l = shown ∨ l = shown ++ ['\r']) (lines (ended ls ++ l))
      (ls ++ if l = [] then [] else [l]) := by
  induction ls with
  | nil =>
    split
    · rename_i h
      simp [ended, h, lines]
    · rename_i h
      have hlast : lines (ended [] ++ l) = [l] := lines_last hl h
      rw [hlast]
      exact .cons (.inl rfl) .nil
  | cons m ls ih =>
    obtain ⟨hm, hrest⟩ := List.forall_mem_cons.1 hls
    rw [ended_cons, List.append_assoc, List.cons_append, List.cons_append]
    by_cases hreturn : m.getLast? = some '\r'
    · obtain ⟨shown, rfl⟩ := List.getLast?_eq_some_iff.1 hreturn
      have hshown : '\n' ∉ shown := fun h => hm (List.mem_append_left _ h)
      rw [List.append_assoc, List.singleton_append, lines_return hshown]
      exact .cons (.inr rfl) (ih hrest)
    · rw [lines_line hm hreturn]
      exact .cons (.inl rfl) (ih hrest)

/-- Lines agree with what stands between newlines in all that a carriage return at their ends does
not change. -/
theorem map_cut {α : Type} {f : List Char → α} (hreturn : ∀ l, f (l ++ ['\r']) = f l)
    {ms : List (List Char)}
    (h : List.Forall₂ (fun shown l => l = shown ∨ l = shown ++ ['\r']) ms ls) :
    ms.map f = ls.map f := by
  induction h with
  | nil => rfl
  | cons hm _ ih =>
    rw [List.map_cons, List.map_cons, ih]
    obtain rfl | rfl := hm
    · rfl
    · rw [hreturn]

/-- What is read from lines is read from their text, if a carriage return at an end and an empty
line make no difference. -/
theorem filterMap_lines {α : Type} {f : List Char → Option α} (hnil : f [] = none)
    (hreturn : ∀ l, f (l ++ ['\r']) = f l) (hls : ∀ l ∈ ls, '\n' ∉ l) (hl : '\n' ∉ l) :
    (lines (ended ls ++ l)).filterMap f = (ls ++ [l]).filterMap f := by
  have hmap := congrArg (List.filterMap id) (map_cut hreturn (lines_cut hls hl))
  rw [List.filterMap_map, List.filterMap_map, Function.id_comp] at hmap
  rw [hmap, List.filterMap_append, List.filterMap_append]
  split
  · rename_i h
    rw [h, List.filterMap_cons_none hnil]
  · rfl

/-- Every text is made of lines that end, and of a last one that does not. -/
theorem exists_ended (cs : List Char) :
    ∃ ls l, splitAt '\n' cs = ls ++ [l] ∧ cs = ended ls ++ l := by
  induction cs with
  | nil => exact ⟨[], [], rfl, rfl⟩
  | cons c cs ih =>
    obtain ⟨ls, l, hsplit, rfl⟩ := ih
    by_cases hc : c = '\n'
    · exact ⟨[] :: ls, l, by rw [splitAt, if_pos hc, hsplit]; rfl, by rw [hc]; rfl⟩
    · rw [splitAt, if_neg hc, hsplit]
      cases ls with
      | nil => exact ⟨[], c :: l, rfl, rfl⟩
      | cons m ls => exact ⟨(c :: m) :: ls, l, rfl, rfl⟩

theorem ended_splitAt (cs : List Char) : ended (splitAt '\n' cs) = cs ++ ['\n'] := by
  obtain ⟨ls, l, hsplit, hcs⟩ := exists_ended cs
  rw [hsplit, ended_append, ended_cons, hcs, List.append_assoc]
  rfl

/-- Lines that end have nothing behind the last of them. -/
theorem splitAt_ended (h : ∀ l ∈ ls, '\n' ∉ l) : splitAt '\n' (ended ls) = ls ++ [[]] := by
  induction ls with
  | nil => rfl
  | cons l ls ih =>
    obtain ⟨hl, hls⟩ := List.forall_mem_cons.1 h
    rw [ended_cons, splitAt_append_sep, splitAt_of_not_mem hl, ih hls]
    rfl

/-- Lines are what stands between newlines, but for a carriage return at their ends. -/
theorem lines_splitAt (h : cs ≠ []) (hl : cs.getLast? ≠ some '\n') :
    List.Forall₂ (fun l m => m = l ∨ m = l ++ ['\r']) (lines cs) (splitAt '\n' cs) := by
  obtain ⟨ls, l, hsplit, hcs⟩ := exists_ended cs
  obtain ⟨hls, hlast⟩ := List.forall_mem_append.1
    (hsplit ▸ fun m (hm : m ∈ splitAt '\n' cs) => not_mem_of_mem_splitAt hm)
  have hne : l ≠ [] := by
    rintro rfl
    cases hrev : ls.reverse with
    | nil => exact h (by rw [hcs, List.reverse_eq_nil_iff.1 hrev]; rfl)
    | cons m ms =>
      have hend : ls = ms.reverse ++ [m] := by rw [← List.reverse_reverse ls, hrev, List.reverse_cons]
      exact hl (by simp [hcs, hend, ended])
  have hcut := lines_cut hls (hlast l (List.mem_singleton_self l))
  rwa [if_neg hne, ← hcs, ← hsplit] at hcut

/-- Without margins, the lines of a text that does not end in a newline are those between its
newlines. -/
theorem trim_lines (h : cs ≠ []) (hl : cs.getLast? ≠ some '\n') :
    (lines cs).map trim = (splitAt '\n' cs).map trim := by
  have hreturn : ∀ c ∈ ['\r'], isBlank c := forall_mem_of_all (by decide)
  exact map_cut (trim_blanks hreturn) (lines_splitAt h hl)

/-- Where texts of lines start alike, so do their first lines. -/
theorem line_isPrefix {a b : List Char} (ha : '\n' ∉ a) (hb : '\n' ∉ b)
    (h : a ++ '\n' :: r <+: b ++ '\n' :: cs) : a = b ∧ r <+: cs := by
  obtain ⟨more, rfl⟩ : a <+: b :=
    isPrefix_of_append_cons ha ((List.prefix_append a ('\n' :: r)).trans h)
  rw [List.append_assoc, List.prefix_append_right_inj] at h
  cases more with
  | nil => exact ⟨(List.append_nil a).symm, (List.cons_prefix_cons.1 h).2⟩
  | cons c more =>
    obtain rfl : '\n' = c := (List.cons_prefix_cons.1 h).1
    exact absurd (List.mem_append_right a List.mem_cons_self) hb

/-- A text that lines start with is made of the first of them, and of a part of the next. -/
theorem ended_isPrefix {ms : List (List Char)} (hls : ∀ m ∈ ls, '\n' ∉ m) (hms : ∀ m ∈ ms, '\n' ∉ m)
    (hl : '\n' ∉ l) (h : ended ls ++ l <+: ended ms) :
    ∃ rest, ms = ls ++ rest ∧ (∀ m ∈ rest.head?, l <+: m) ∧ (rest = [] → l = []) := by
  induction ls generalizing ms with
  | nil =>
    refine ⟨ms, rfl, fun m hm => ?_, fun hnil => ?_⟩
    · cases ms with
      | nil => cases hm
      | cons n ms =>
        obtain rfl := Option.some.inj hm
        rw [ended_cons] at h
        exact isPrefix_of_append_cons hl h
    · rw [hnil] at h
      exact List.prefix_nil.1 h
  | cons a ls ih =>
    obtain ⟨ha, hls⟩ := List.forall_mem_cons.1 hls
    rw [ended_cons, List.append_assoc, List.cons_append] at h
    cases ms with
    | nil => exact absurd (List.prefix_nil.1 h) (by simp)
    | cons b ms =>
      obtain ⟨hb, hms'⟩ := List.forall_mem_cons.1 hms
      rw [ended_cons] at h
      obtain ⟨rfl, hrest⟩ := line_isPrefix ha hb h
      obtain ⟨rest, rfl, hnext, hlast⟩ := ih hls hms' hrest
      exact ⟨rest, rfl, hnext, hlast⟩

/-- A text that starts like another one is made of the first lines of that one, and of a part of
the next. -/
theorem exists_ended_of_isPrefix {front : List Char} (h : front <+: cs ++ ['\n']) :
    ∃ ls l rest, splitAt '\n' front = ls ++ [l] ∧ front = ended ls ++ l ∧
      splitAt '\n' cs = ls ++ rest ∧ (∀ m ∈ rest.head?, l <+: m) ∧ (rest = [] → l = []) := by
  obtain ⟨ls, l, hls, rfl⟩ := exists_ended front
  have hfree : ∀ m ∈ ls ++ [l], '\n' ∉ m := fun m hm => not_mem_of_mem_splitAt (hls ▸ hm)
  obtain ⟨hfree, hl⟩ := List.forall_mem_append.1 hfree
  rw [← ended_splitAt] at h
  obtain ⟨rest, hrest⟩ := ended_isPrefix hfree (fun m hm => not_mem_of_mem_splitAt hm)
    (hl l (List.mem_singleton_self l)) h
  exact ⟨ls, l, rest, hls, rfl, hrest⟩

theorem ended_line_isPrefix (above : List (List Char)) (l : List Char) (below : List (List Char)) :
    ended above ++ l <+: ended (above ++ l :: below) := by
  rw [ended_append, ended_cons, List.prefix_append_right_inj]
  exact List.prefix_append l _

theorem not_mem_of_mem_lines (h : l ∈ lines cs) : '\n' ∉ l := by
  induction cs using lines.induct generalizing l with
  | case1 => cases h
  | case2 r ih =>
    obtain rfl | h := List.mem_cons.1 h
    · exact List.not_mem_nil
    · exact ih h
  | case3 r ih =>
    obtain rfl | h := List.mem_cons.1 h
    · exact List.not_mem_nil
    · exact ih h
  | case4 c r hc hcr hlines ih =>
    rw [lines, hlines] at h
    · obtain rfl := List.mem_singleton.1 h
      exact fun hm => hc (List.mem_singleton.1 hm).symm
    · exact hc
    · exact hcr
  | case5 c r hc hcr m ms hlines ih =>
    rw [lines, hlines] at h
    · rw [hlines] at ih
      obtain rfl | h := List.mem_cons.1 h
      · exact List.not_mem_cons_of_ne_of_not_mem (Ne.symm hc) (ih List.mem_cons_self)
      · exact ih (List.mem_cons_of_mem m h)
    · exact hc
    · exact hcr

theorem lines_ne_nil (h : cs ≠ []) : lines cs ≠ [] := by
  rw [lines.eq_def]
  split
  · exact absurd rfl h
  · simp
  · simp
  · split <;> simp

theorem lines_eq_nil_iff : lines cs = [] ↔ cs = [] :=
  ⟨not_imp_not.1 lines_ne_nil, fun h => h ▸ rfl⟩

end

end Pipewright.Text
