import Mathlib.Data.List.Basic
import Pipewright.Text.Lines

/-! Texts cut at a separator. -/
namespace Pipewright.Text

theorem splitAt_ne_nil (sep : Char) (cs : List Char) : splitAt sep cs ≠ [] := by
  cases cs with
  | nil => simp [splitAt]
  | cons c cs =>
    rw [splitAt]
    split
    · simp
    · split <;> simp

theorem splitAt_append_sep (sep : Char) (cs ds : List Char) :
    splitAt sep (cs ++ sep :: ds) = splitAt sep cs ++ splitAt sep ds := by
  induction cs with
  | nil => simp [splitAt]
  | cons c cs ih =>
    by_cases hc : c = sep
    · simp [splitAt, hc, ih]
    · cases hs : splitAt sep cs with
      | nil => exact absurd hs (splitAt_ne_nil sep cs)
      | cons l ls => simp [splitAt, hc, ih, hs]

theorem splitAt_of_not_mem {sep : Char} {cs : List Char} (h : sep ∉ cs) :
    splitAt sep cs = [cs] := by
  induction cs with
  | nil => rfl
  | cons c cs ih =>
    have hc : c ≠ sep := fun he => h (he ▸ List.mem_cons_self)
    have htail := ih fun hm => h (List.mem_cons_of_mem c hm)
    simp [splitAt, hc, htail]

theorem not_mem_of_mem_splitAt {sep : Char} {cs l : List Char} (h : l ∈ splitAt sep cs) :
    sep ∉ l := by
  induction cs generalizing l with
  | nil => simp_all [splitAt]
  | cons c cs ih =>
    rw [splitAt] at h
    split at h
    · cases h with
      | head => exact List.not_mem_nil
      | tail _ h => exact ih h
    · rename_i hc
      cases hs : splitAt sep cs with
      | nil => exact absurd hs (splitAt_ne_nil sep cs)
      | cons m ms =>
        rw [hs] at h ih
        cases h with
        | head => exact List.not_mem_cons_of_ne_of_not_mem (Ne.symm hc) (ih List.mem_cons_self)
        | tail _ h => exact ih (List.mem_cons_of_mem m h)

/-- The pieces of a text that goes on differ from those of the text in the last one only. -/
theorem splitAt_append (sep : Char) (cs : List Char) :
    ∃ init last, ∀ n : List Char, sep ∉ n → splitAt sep (cs ++ n) = init ++ [last ++ n] := by
  induction cs with
  | nil => exact ⟨[], [], fun n hn => splitAt_of_not_mem hn⟩
  | cons c cs ih =>
    obtain ⟨init, last, h⟩ := ih
    by_cases hc : c = sep
    · exact ⟨[] :: init, last, fun n hn => by simp [splitAt, hc, h n hn]⟩
    · cases init with
      | nil => exact ⟨[], c :: last, fun n hn => by simp [splitAt, hc, h n hn]⟩
      | cons i is => exact ⟨(c :: i) :: is, last, fun n hn => by simp [splitAt, hc, h n hn]⟩

/-! Pieces with a separator between neighbours -/

theorem joinWith_eq_intercalate (sep : List Char) (ls : List (List Char)) :
    joinWith sep ls = sep.intercalate ls := by
  induction ls with
  | nil => rfl
  | cons l ls ih =>
    cases ls with
    | nil => simp [joinWith, List.intercalate]
    | cons m ls => rw [joinWith, ih, List.intercalate_cons_cons]

theorem joinWith_append {ls ms : List (List Char)} (sep : List Char) (hls : ls ≠ [])
    (hms : ms ≠ []) : joinWith sep (ls ++ ms) = joinWith sep ls ++ (sep ++ joinWith sep ms) := by
  obtain ⟨m, ms, rfl⟩ := List.exists_cons_of_ne_nil hms
  induction ls with
  | nil => exact absurd rfl hls
  | cons l ls ih =>
    cases ls with
    | nil => simp [joinWith]
    | cons k ls => simp [joinWith, ← ih (List.cons_ne_nil k ls)]

theorem splitAt_joinWith {sep : Char} {ls : List (List Char)} (hne : ls ≠ [])
    (h : ∀ l ∈ ls, sep ∉ l) : splitAt sep (joinWith [sep] ls) = ls := by
  obtain ⟨l, ls, rfl⟩ := List.exists_cons_of_ne_nil hne
  induction ls generalizing l with
  | nil => exact splitAt_of_not_mem (h l List.mem_cons_self)
  | cons m ls ih =>
    obtain ⟨hl, hls⟩ := List.forall_mem_cons.1 h
    rw [joinWith, List.append_assoc, List.singleton_append, splitAt_append_sep,
      splitAt_of_not_mem hl, ih m (List.cons_ne_nil m ls) hls]
    rfl

theorem joinWith_splitAt (sep : Char) (cs : List Char) :
    joinWith [sep] (splitAt sep cs) = cs := by
  induction cs with
  | nil => rfl
  | cons c cs ih =>
    cases hs : splitAt sep cs with
    | nil => exact absurd hs (splitAt_ne_nil sep cs)
    | cons l ls =>
      rw [hs] at ih
      by_cases hc : c = sep
      · simp [splitAt, hc, hs, joinWith, ih]
      · cases ls <;> simp_all [splitAt, joinWith]

theorem isPrefix_of_splitAt {sep : Char} {cs l : List Char} {ls : List (List Char)}
    (h : splitAt sep cs = l :: ls) : l <+: cs := by
  have hjoined := joinWith_splitAt sep cs
  rw [h] at hjoined
  cases ls with
  | nil => exact hjoined ▸ List.prefix_rfl
  | cons m ls =>
    rw [joinWith, List.append_assoc] at hjoined
    exact hjoined ▸ List.prefix_append l _

theorem infix_joinWith (sep : List Char) {l : List Char} {ls : List (List Char)} (h : l ∈ ls) :
    l <:+: joinWith sep ls := by
  induction ls with
  | nil => cases h
  | cons m ls ih =>
    cases ls with
    | nil => exact List.mem_singleton.1 h ▸ List.infix_rfl
    | cons n ls =>
      obtain rfl | h := List.mem_cons.1 h
      · rw [joinWith, List.append_assoc]
        exact (List.prefix_append _ _).isInfix
      · exact (ih h).trans (List.suffix_append _ _).isInfix

theorem not_mem_joinWith {c : Char} {sep : List Char} {ls : List (List Char)} (hsep : c ∉ sep)
    (h : ∀ l ∈ ls, c ∉ l) : c ∉ joinWith sep ls := by
  induction ls with
  | nil => exact List.not_mem_nil
  | cons l ls ih =>
    obtain ⟨hl, hls⟩ := List.forall_mem_cons.1 h
    cases ls with
    | nil => exact hl
    | cons m ls =>
      rw [joinWith, List.mem_append, List.mem_append, not_or, not_or]
      exact ⟨⟨hl, hsep⟩, ih hls⟩

section
variable {sep l : List Char} {ls : List (List Char)} {f : List Char → List Char}

theorem length_joinWith_map_le (hf : ∀ l, (f l).length ≤ l.length) (sep : List Char)
    (ls : List (List Char)) : (joinWith sep (ls.map f)).length ≤ (joinWith sep ls).length := by
  induction ls with
  | nil => exact Nat.le_refl 0
  | cons l ls ih =>
    cases ls with
    | nil => exact hf l
    | cons m ls =>
      have hl := hf l
      simp only [List.map_cons, joinWith, List.length_append] at ih ⊢
      omega

/-- Where no piece gets longer, the text stays the same just if all pieces do. -/
theorem joinWith_map_eq_iff (hf : ∀ l, (f l).length ≤ l.length) :
    joinWith sep (ls.map f) = joinWith sep ls ↔ ∀ l ∈ ls, f l = l := by
  refine ⟨fun h => ?_, fun h => by rw [List.map_congr_left h, List.map_id']⟩
  induction ls with
  | nil => exact List.forall_mem_nil _
  | cons l ls ih =>
    rw [List.forall_mem_cons]
    cases ls with
    | nil => exact ⟨h, List.forall_mem_nil _⟩
    | cons m ls =>
      rw [List.map_cons, List.map_cons, joinWith, joinWith, List.append_assoc, List.append_assoc] at h
      have hl := hf l
      have hrest := length_joinWith_map_le hf sep (m :: ls)
      have hlength := congrArg List.length h
      simp only [List.length_append] at hlength
      rw [List.map_cons] at hrest
      obtain ⟨hfirst, hrest⟩ := List.append_inj h (by omega)
      exact ⟨hfirst, ih (List.append_cancel_left hrest)⟩

theorem joinWith_cons_map_eq_iff (hf : ∀ l, (f l).length ≤ l.length) :
    joinWith sep (l :: ls.map f) = joinWith sep (l :: ls) ↔ ∀ m ∈ ls, f m = m := by
  cases ls with
  | nil => exact iff_of_true rfl (List.forall_mem_nil _)
  | cons m ls =>
    rw [← joinWith_map_eq_iff hf, List.map_cons, joinWith, joinWith, List.append_cancel_left_eq]

end

/-! Texts behind a given start -/

theorem afterLead?_append (lead cs : List Char) : afterLead? lead (lead ++ cs) = some cs := by
  induction lead with
  | nil => rfl
  | cons l lead ih => rw [List.cons_append, afterLead?, if_pos rfl, ih]

theorem eq_of_afterLead? {lead cs r : List Char} (h : afterLead? lead cs = some r) :
    cs = lead ++ r := by
  induction lead generalizing cs with
  | nil =>
    cases h
    rfl
  | cons l lead ih =>
    cases cs with
    | nil => cases h
    | cons c cs =>
      rw [afterLead?] at h
      split at h
      · rename_i hc
        rw [hc, ih h]
        rfl
      · cases h

end Pipewright.Text

namespace Pipewright

theorem toList_joined (sep : String) (ss : List String) :
    (joined sep ss).toList = Text.joinWith sep.toList (ss.map String.toList) := by
  rw [joined, String.toList_intercalate, Text.joinWith_eq_intercalate]

theorem toList_joined_empty (ss : List String) :
    (joined "" ss).toList = ss.flatMap String.toList := by
  rw [joined, String.toList_intercalate, String.toList_empty]
  induction ss with
  | nil => rfl
  | cons s ss ih => cases ss <;> simp_all

theorem joined_empty_cons (s : String) (ss : List String) :
    joined "" (s :: ss) = s ++ joined "" ss :=
  String.toList_injective (by rw [String.toList_append, toList_joined_empty, toList_joined_empty,
    List.flatMap_cons])

end Pipewright
