import Mathlib.Data.List.TakeWhile
import Pipewright.Proofs.CommandLine.Frames

/-! Words after which an option waits for another word, and what a plain word gives to the options
that do not wait. -/
namespace Pipewright.CommandLine

section
variable {spec : Spec} {st t : State} {o : Opt} {word : String} {words : List String}

theorem parse_pair (spec : Spec) (flag word : String) : parse spec [flag, word] =
    step spec State.initial flag >>= fun st => step spec st word >>= settle := by
  simp [parse]

/-! Options that wait for a word -/

/-- Letters of which the first is no switch end there, or their option has its word. -/
theorem cluster_cons_ok {c : Char} {r : List Char}
    (h : cluster spec st (c :: r) = .ok t) :
    ∃ o, spec.short? c = some o ∧
      ((o.takesValue = true ∧ ∀ p ∈ t.pending, r = [] ∧ p.1 = o) ∨
        o.takesValue = false ∧ ∃ u, complete st o [] = .ok u ∧ cluster spec u r = .ok t) := by
  rw [cluster] at h
  split at h
  · cases h
  · rename_i o ho
    refine ⟨o, ho, ?_⟩
    split at h
    · rename_i hv
      refine .inl ⟨hv, ?_⟩
      split at h
      · obtain ⟨g, rfl⟩ := await_frame h
        simp
      · obtain ⟨g, rfl⟩ := complete_frame h
        simp
      · obtain ⟨g, rfl⟩ := complete_frame h
        simp
    · rename_i hv
      obtain ⟨u, hu, ht⟩ := bind_ok h
      exact .inr ⟨by simpa using hv, u, hu, ht⟩

theorem pending_positional (h : positional spec st word = .ok t) : t.pending = none := by
  rw [positional] at h
  split at h
  · obtain ⟨u, hu, ht⟩ := bind_ok h
    obtain ⟨g, rfl⟩ := settle_frame hu
    cases ht
    rfl
  · split at h
    · obtain ⟨u, hu, ht⟩ := bind_ok h
      obtain ⟨g, rfl⟩ := settle_frame hu
      cases ht
      rfl
    · cases h

theorem pending_plain (hp : st.pending = none) (h : plain spec st word = .ok t) :
    t.pending = none := by
  have hpositional : plain spec st word = positional spec st word := by
    rw [plain, hp]
    cases st.accepts <;> rfl
  exact pending_positional (hpositional ▸ h)

theorem long_waits {name : List Char} (hp : st.pending = none)
    (h : long spec st word name = .ok t) {p : Opt × List String} (hwait : p ∈ t.pending) :
    '=' ∉ name ∧ spec.long? (String.ofList name) = some p.1 := by
  have hnone : t.pending ≠ none := by
    rw [Option.mem_def.1 hwait]
    exact Option.some_ne_none p
  have hsign : name.dropWhile (· ≠ '=') = [] → ∀ c ∈ name, decide (c ≠ '=') = true :=
    List.dropWhile_eq_nil_iff.1
  simp only [long] at h
  split at h
  · rename_i o ho
    cases hd : name.dropWhile (· ≠ '=') with
    | nil =>
      have hall := hsign hd
      rw [List.takeWhile_eq_self_iff.2 hall] at ho
      rw [hd] at h
      refine ⟨fun hm => of_decide_eq_true (hall '=' hm) rfl, ?_⟩
      cases hv : o.takesValue with
      | true =>
        simp only [hv] at h
        obtain ⟨g, rfl⟩ := await_frame h
        cases hwait
        exact ho
      | false =>
        simp only [hv] at h
        obtain ⟨g, rfl⟩ := complete_frame h
        exact absurd rfl hnone
    | cons c v =>
      rw [hd] at h
      cases hv : o.takesValue with
      | true =>
        simp only [hv] at h
        obtain ⟨g, rfl⟩ := complete_frame h
        exact absurd rfl hnone
      | false =>
        simp only [hv] at h
        cases h
  · split at h
    · exact absurd (pending_plain hp h) hnone
    · cases h

/-- A word after which an option waits is a long name or ends in a letter. -/
theorem step_waits (ht : st.trailing = false) (hp : st.pending = none)
    (h : step spec st word = .ok t) {p : Opt × List String} (hwait : p ∈ t.pending) :
    (∃ name, word.toList = '-' :: '-' :: name ∧ name ≠ [] ∧ '=' ∉ name ∧
        spec.long? (String.ofList name) = some p.1) ∨
      ∃ c r, c ≠ '-' ∧ word.toList = '-' :: c :: r ∧ cluster spec st (c :: r) = .ok t := by
  have hnone : t.pending ≠ none := by
    rw [Option.mem_def.1 hwait]
    exact Option.some_ne_none p
  rw [step, if_neg (by simp [ht])] at h
  split at h
  · cases h
    exact absurd hp hnone
  · rename_i name hne hw
    obtain ⟨hsign, ho⟩ := long_waits hp h hwait
    exact .inl ⟨name, hw, hne, hsign, ho⟩
  · rename_i c r _ hc hw
    split at h
    · exact absurd (pending_plain hp h) hnone
    · exact .inr ⟨c, r, hc, hw, h⟩
  · exact absurd (pending_plain hp h) hnone

/-! What other ids are given -/

theorem get?_addGiven_of_ne {id other : String} (h : other ≠ id) (vs : List String) (g : Given) :
    Entries.get? other (addGiven id vs g) = Entries.get? other g :=
  Entries.get?_put_of_ne h _ g

theorem values?_take {id : String} (hid : o.id ≠ id) (h : take st o words = .ok t) :
    t.values? id = st.values? id := by
  rw [take] at h
  split at h
  · cases h
  · cases h
  · cases h
    exact get?_addGiven_of_ne hid.symm _ _
  · split at h
    · cases h
    · split at h
      · cases h
      · split at h
        · cases h
        · cases h
          exact get?_addGiven_of_ne hid.symm _ _
  · split at h
    · cases h
    · cases h
      exact get?_addGiven_of_ne hid.symm _ _

theorem values?_settle {id : String} (hp : ∀ p ∈ st.pending, p.1.id ≠ id)
    (h : settle st = .ok t) : t.values? id = st.values? id := by
  rw [settle] at h
  split at h
  · cases h
    rfl
  · rename_i o ws hw
    have htake := values?_take (hp (o, ws) hw) h
    exact htake

theorem values?_positional {id : String} (hp : ∀ p ∈ st.pending, p.1.id ≠ id)
    (hid : id ∉ spec.positionals) (h : positional spec st word = .ok t) :
    t.values? id = st.values? id := by
  rw [positional] at h
  split at h
  · rename_i position hposition
    obtain ⟨u, hu, ht⟩ := bind_ok h
    have hne : id ≠ position := fun he => hid (he ▸ List.mem_of_getElem? hposition)
    cases ht
    exact (get?_addGiven_of_ne hne _ _).trans (values?_settle hp hu)
  · split at h
    · obtain ⟨u, hu, ht⟩ := bind_ok h
      have hsettle := values?_settle hp hu
      cases ht
      exact hsettle
    · cases h

/-- A plain word at the end gives nothing to an id that neither waits for it nor is positional. -/
theorem values?_plain_last {id : String} (hw : isPlainWord word)
    (hp : ∀ p ∈ st.pending, p.1.id ≠ id) (hid : id ∉ spec.positionals)
    (h : (step spec st word >>= settle) = .ok t) : t.values? id = st.values? id := by
  obtain ⟨u, hu, hs⟩ := bind_ok h
  have hpositional : positional spec st word = .ok u → t.values? id = st.values? id := by
    intro hu
    refine (values?_settle ?_ hs).trans (values?_positional hp hid hu)
    simp [pending_positional hu]
  cases ht : st.trailing with
  | true =>
    rw [step, if_pos ht] at hu
    exact hpositional hu
  | false =>
    rw [step_plain hw ht, plain] at hu
    split at hu
    · rename_i o ws ha hpend
      have hne : o.id ≠ id := hp (o, ws) hpend
      have hsettle : t.values? id = u.values? id := by
        refine values?_settle (fun p hm => ?_) hs
        cases hu
        cases hm
        exact hne
      cases hu
      exact hsettle
    · exact hpositional hu

end

end Pipewright.CommandLine
