import Mathlib.Data.List.Basic
import Pipewright.Proofs.Text.Numerals

/-! Texts made of labels, each with what stands behind it: where the labels of one text hold no mark
and what stands behind each label starts with a mark, the text tells the labels. -/
namespace Pipewright.Text
variable {α : Type*} {p : Char → Bool} {a b tail : α → List Char} {rows : List α}

theorem countP_labelled (p : Char → Bool) (a tail : α → List Char) (rows : List α) :
    (rows.flatMap fun r => a r ++ tail r).countP p =
      (rows.flatMap a).countP p + (rows.flatMap tail).countP p := by
  induction rows with
  | nil => rfl
  | cons r rows ih =>
    simp only [List.flatMap_cons, List.countP_append, ih]
    omega

/-- Labels without marks on both sides are told one by one. -/
theorem labels_eq_of_unmarked (ha : ∀ r ∈ rows, ∀ c ∈ a r, p c = false)
    (hb : ∀ r ∈ rows, ∀ c ∈ b r, p c = false) (htail : ∀ r ∈ rows, ∃ c ∈ (tail r).head?, p c = true)
    (h : (rows.flatMap fun r => a r ++ tail r) = rows.flatMap fun r => b r ++ tail r) :
    ∀ r ∈ rows, a r = b r := by
  induction rows with
  | nil => exact List.forall_mem_nil _
  | cons r rows ih =>
    obtain ⟨ha, harows⟩ := List.forall_mem_cons.1 ha
    obtain ⟨hb, hbrows⟩ := List.forall_mem_cons.1 hb
    obtain ⟨⟨c, hc, hmark⟩, htail⟩ := List.forall_mem_cons.1 htail
    simp only [List.flatMap_cons, List.append_assoc] at h
    have hends : ∀ rest, ∀ d ∈ (tail r ++ rest).head?, (!p d) = false := fun rest d hd => by
      rw [List.head?_append, Option.mem_def.1 hc] at hd
      obtain rfl := Option.some.inj hd
      rw [hmark]
      rfl
    have hhead : a r = b r := by
      have hleft := takeWhile_append (fun d hd => by rw [ha d hd]; rfl)
        (hends (rows.flatMap fun r => a r ++ tail r))
      have hright := takeWhile_append (fun d hd => by rw [hb d hd]; rfl)
        (hends (rows.flatMap fun r => b r ++ tail r))
      exact hleft.symm.trans ((congrArg _ h).trans hright)
    rw [hhead, List.append_cancel_left_eq, List.append_cancel_left_eq] at h
    exact List.forall_mem_cons.2 ⟨hhead, ih harows hbrows htail h⟩

/-- Labels are told by a text even if those of the other text may hold marks: both texts hold
equally many, so that there are none. -/
theorem labels_eq (ha : ∀ r ∈ rows, ∀ c ∈ a r, p c = false)
    (htail : ∀ r ∈ rows, ∃ c ∈ (tail r).head?, p c = true)
    (h : (rows.flatMap fun r => a r ++ tail r) = rows.flatMap fun r => b r ++ tail r) :
    ∀ r ∈ rows, a r = b r := by
  have hcount : (rows.flatMap a).countP p = (rows.flatMap b).countP p := by
    have hboth := congrArg (List.countP p) h
    rwa [countP_labelled, countP_labelled, Nat.add_right_cancel_iff] at hboth
  have hnone : (rows.flatMap a).countP p = 0 := by
    refine List.countP_eq_zero.2 fun c hc => ?_
    obtain ⟨r, hr, hc⟩ := List.mem_flatMap.1 hc
    simp [ha r hr c hc]
  rw [hnone, eq_comm, List.countP_eq_zero] at hcount
  refine labels_eq_of_unmarked ha (fun r hr c hc => ?_) htail h
  simpa using hcount c (List.mem_flatMap.2 ⟨r, hr, hc⟩)

end Pipewright.Text
