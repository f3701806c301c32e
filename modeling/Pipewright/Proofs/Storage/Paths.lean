import Pipewright.Proofs.Text.Pieces
import Pipewright.Storage.Path

/-! The steps of joined paths. -/
namespace Pipewright

namespace Path
variable {base p m n : String}

theorem isAbsolute_iff : isAbsolute p = true ↔ ['/'] <+: p.toList :=
  String.startsWith_string_iff

/-- Joined to one path, other paths stand behind one and the same text. -/
theorem join_eq_append (base : String) :
    ∃ b, ∀ p, isAbsolute p = false → join base p = b ++ p := by
  by_cases h : base.isEmpty || base.endsWith "/"
  · exact ⟨base, fun p hp => by simp_all [join]⟩
  · exact ⟨base ++ "/", fun p hp => by simp_all [join]⟩

theorem join_inj (hm : isAbsolute m = false) (hn : isAbsolute n = false) :
    join base m = join base n ↔ m = n := by
  obtain ⟨b, hb⟩ := join_eq_append base
  rw [hb m hm, hb n hn]
  exact String.append_right_inj b

theorem isAbsolute_join_of_not (hp : isAbsolute p = false) :
    isAbsolute (join base p) = isAbsolute base := by
  by_cases hempty : base = ""
  · subst hempty
    have hnone : isAbsolute "" = false := by decide
    simp [join, hp, hnone]
  · obtain ⟨c, cs, hc⟩ := List.exists_cons_of_ne_nil
      (show base.toList ≠ [] by simpa using hempty)
    have hhead : ∀ s : String, isAbsolute (base ++ s) = isAbsolute base := by
      intro s
      rw [Bool.eq_iff_iff, isAbsolute_iff, isAbsolute_iff, String.toList_append, hc]
      simp
    rw [join, if_neg (by simp [hp])]
    split
    · exact hhead p
    · rw [String.append_assoc, hhead]

theorem isAbsolute_join (hbase : isAbsolute base = true) : isAbsolute (join base p) = true := by
  cases hp : isAbsolute p with
  | true => simp [join, hp]
  | false => rw [isAbsolute_join_of_not hp, hbase]

theorem pieces_join (base : String) (hp : isAbsolute p = false) : ∃ init,
    pieces '/' (join base p) = init ++ pieces '/' p ∧
      init.filter (fun part => !isIdle part) = steps base := by
  rw [join, if_neg (by simp [hp])]
  by_cases hempty : base = ""
  · subst hempty
    exact ⟨[], by simp, by decide⟩
  by_cases hends : base.endsWith "/"
  · obtain ⟨b, hb⟩ : ['/'] <:+ base.toList := by
      rw [String.endsWith_eq_endsWith_toSlice, String.Slice.endsWith_string_iff] at hends
      simpa using hends
    have hbase : base.toList = b ++ '/' :: [] := hb.symm
    refine ⟨(Text.splitAt '/' b).map String.ofList, ?_, ?_⟩
    · simp [hends, pieces, hbase, Text.splitAt_append_sep]
    · simp [steps, pieces, hbase, Text.splitAt_append_sep, Text.splitAt, isIdle]
  · refine ⟨pieces '/' base, ?_, rfl⟩
    simp [hempty, hends, pieces, Text.splitAt_append_sep]

/-- The steps of a path below another one follow the steps of that one. -/
theorem steps_join (hp : isAbsolute p = false) : steps (join base p) = steps base ++ steps p := by
  obtain ⟨init, hpieces, hinit⟩ := pieces_join base hp
  rw [steps, hpieces, List.filter_append, hinit]
  rfl

/-- A single name: no path of several parts and no dots. -/
def IsPlain (n : String) : Prop := '/' ∉ n.toList ∧ n ≠ "" ∧ n ≠ "." ∧ n ≠ ".."

instance : Decidable (IsPlain n) := inferInstanceAs (Decidable (_ ∧ _ ∧ _ ∧ _))

theorem pieces_plain (h : IsPlain n) : pieces '/' n = [n] := by
  simp [pieces, Text.splitAt_of_not_mem h.1]

theorem isIdle_plain (h : IsPlain n) : isIdle n = false := by
  simp [isIdle, h.2.1, h.2.2.1]

theorem steps_plain (h : IsPlain n) : steps n = [n] := by
  simp [steps, pieces_plain h, isIdle_plain h]

theorem isAbsolute_plain (h : IsPlain n) : isAbsolute n = false := by
  rw [Bool.eq_false_iff, ne_eq, isAbsolute_iff]
  rintro ⟨r, hr⟩
  exact h.1 (hr ▸ List.mem_cons_self)

theorem fileName?_join (h : IsPlain n) : fileName? (join base n) = some n := by
  obtain ⟨init, hpieces, -⟩ := pieces_join base (isAbsolute_plain h)
  have hlast : (activeParts (join base n)).getLast? = some n := by
    rw [activeParts, hpieces, pieces_plain h]
    cases init with
    | nil => rfl
    | cons i is =>
      have hdrop : dropIdle (i :: is ++ [n]) = i :: is ++ [n] := by
        simp [dropIdle, isIdle_plain h]
      rw [hdrop, List.getLast?_append]
      rfl
  simp [fileName?, hlast, isIdle_plain h, h.2.2.2]

/-- A path right inside a directory. -/
structure IsInside (dir name p : String) : Prop where
  plain : '/' ∉ name.toList
  steps : steps p = Path.steps dir ++ [name]
  fileName : fileName? p = some name
  absolute : isAbsolute p = isAbsolute dir

theorem isInside_join (base : String) (h : IsPlain n) : IsInside base n (join base n) := by
  have hplain := isAbsolute_plain h
  refine ⟨h.1, ?_, fileName?_join h, isAbsolute_join_of_not hplain⟩
  rw [steps_join hplain, steps_plain h]

end Path
end Pipewright
