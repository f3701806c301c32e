import Pipewright.Proofs.CommandLine.Reading

/-! What a word of a command line leaves as it is. -/
namespace Pipewright.CommandLine

section
variable {spec : Spec} {st t : State} {o : Opt} {word : String} {words : List String}

theorem settle_frame (h : settle st = .ok t) :
    ∃ g, t = { st with given := g, pending := none } := by
  rw [settle] at h
  split at h
  · rename_i hp
    cases h
    exact ⟨st.given, by rw [← hp]⟩
  · exact take_frame h

theorem complete_frame (h : complete st o words = .ok t) :
    ∃ g, t = { st with given := g, pending := none, accepts := false } := by
  obtain ⟨u, hu, ht⟩ := bind_ok h
  obtain ⟨g, rfl⟩ := settle_frame hu
  exact take_frame ht

theorem await_frame (h : await st o = .ok t) :
    ∃ g, t = { st with given := g, pending := some (o, []), accepts := true } := by
  obtain ⟨u, hu, ht⟩ := bind_ok h
  obtain ⟨g, rfl⟩ := settle_frame hu
  cases ht
  exact ⟨g, rfl⟩

/-! The rest -/

theorem rest_settle (h : settle st = .ok t) : t.rest = st.rest := by
  obtain ⟨g, rfl⟩ := settle_frame h
  rfl

theorem rest_complete (h : complete st o words = .ok t) : t.rest = st.rest := by
  obtain ⟨g, rfl⟩ := complete_frame h
  rfl

theorem rest_await (h : await st o = .ok t) : t.rest = st.rest := by
  obtain ⟨g, rfl⟩ := await_frame h
  rfl

/-- Letters are options throughout. -/
theorem rest_cluster {cs : List Char} (h : cluster spec st cs = .ok t) : t.rest = st.rest := by
  induction cs generalizing st with
  | nil =>
    cases h
    rfl
  | cons c cs ih =>
    rw [cluster] at h
    split at h
    · cases h
    · split at h
      · split at h
        · exact rest_await h
        · exact rest_complete h
        · exact rest_complete h
      · obtain ⟨u, hu, ht⟩ := bind_ok h
        exact (ih ht).trans (rest_complete hu)

theorem rest_long {body : List Char}
    (ho : (spec.long? (String.ofList (body.takeWhile (· ≠ '=')))).isSome)
    (h : long spec st word body = .ok t) : t.rest = st.rest := by
  obtain ⟨o, ho⟩ := Option.isSome_iff_exists.1 ho
  simp only [long, ho] at h
  split at h
  · exact rest_complete h
  · exact rest_await h
  · cases h
  · exact rest_complete h

theorem length_rest_positional (h : positional spec st word = .ok t) :
    t.rest.length ≤ st.rest.length + 1 := by
  rw [positional] at h
  split at h
  · obtain ⟨u, hu, ht⟩ := bind_ok h
    cases ht
    simp [rest_settle hu]
  · split at h
    · obtain ⟨u, hu, ht⟩ := bind_ok h
      cases ht
      simp [rest_settle hu]
    · cases h

theorem length_rest_plain (h : plain spec st word = .ok t) :
    t.rest.length ≤ st.rest.length + 1 := by
  rw [plain] at h
  split at h
  · cases h
    exact Nat.le_succ _
  · exact length_rest_positional h

/-- A word adds at most itself to the rest. -/
theorem length_rest_step (h : step spec st word = .ok t) :
    t.rest.length ≤ st.rest.length + 1 := by
  have hkept : t.rest = st.rest → t.rest.length ≤ st.rest.length + 1 := fun he =>
    he ▸ Nat.le_succ _
  rw [step] at h
  split at h
  · exact length_rest_positional h
  · split at h
    · cases h
      exact Nat.le_succ _
    · rename_i body _ _
      cases ho : spec.long? (String.ofList (body.takeWhile (· ≠ '='))) with
      | some o => exact hkept (rest_long (by rw [ho]; rfl) h)
      | none =>
        simp only [long, ho] at h
        split at h
        · exact length_rest_plain h
        · cases h
    · split at h
      · exact length_rest_plain h
      · exact hkept (rest_cluster h)
    · exact length_rest_plain h

theorem length_rest_run (h : words.foldlM (step spec) st = .ok t) :
    t.rest.length ≤ st.rest.length + words.length := by
  induction words generalizing st with
  | nil =>
    cases h
    exact Nat.le_refl _
  | cons w ws ih =>
    rw [List.foldlM_cons] at h
    obtain ⟨u, hu, ht⟩ := bind_ok h
    have hword := length_rest_step hu
    have hrun := ih ht
    rw [List.length_cons]
    omega

/-! Words in the place of the rest -/

/-- Whether a word is spelled like options of a command: a long name, with or without a value,
letters that all are options, or the mark that ends options. -/
def Spec.claims (spec : Spec) (word : String) : Bool :=
  match word.toList with
  | ['-', '-'] => true
  | '-' :: '-' :: body =>
    spec.options.any fun o => o.longs.contains (String.ofList (body.takeWhile (· ≠ '=')))
  | '-' :: c :: r => (c :: r).all fun d => spec.options.any fun o => o.short = some d
  | _ => false

theorem long?_isSome (spec : Spec) (name : String) :
    (spec.long? name).isSome = spec.options.any fun o => o.longs.contains name := by
  rw [Spec.long?, Bool.eq_iff_iff, List.find?_isSome, List.any_eq_true]

theorem short?_isSome (spec : Spec) (c : Char) :
    (spec.short? c).isSome = spec.options.any fun o => o.short = some c := by
  rw [Spec.short?, Bool.eq_iff_iff, List.find?_isSome, List.any_eq_true]

theorem claims_of_letters {c : Char} {r : List Char} (hc : c ≠ '-')
    (hw : word.toList = '-' :: c :: r) :
    spec.claims word = (c :: r).all fun d => spec.options.any fun o => o.short = some d := by
  rw [Spec.claims, hw]
  split <;> simp_all

theorem any_isNone (spec : Spec) (cs : List Char) :
    (cs.any fun d => (spec.short? d).isNone) =
      !cs.all fun d => spec.options.any fun o => o.short = some d := by
  simp only [← short?_isSome, List.not_all_eq_any_not, Option.not_isSome]

/-- Where the rest may start, a word that is not claimed goes on as a plain one. -/
theorem step_of_not_claims (ht : st.trailing = false) (hr : atRest spec st = true)
    (h : spec.claims word = false) : step spec st word = plain spec st word := by
  rw [step, if_neg (by simp [ht])]
  split
  · rename_i hw
    rw [Spec.claims, hw] at h
    cases h
  · rename_i body hne hw
    rw [Spec.claims, hw] at h
    simp only [← long?_isSome, Option.isSome_eq_false_iff, Option.isNone_iff_eq_none] at h
    rw [long, h]
    simp only [hr, if_true]
  · rename_i c r _ hc hw
    rw [claims_of_letters hc hw] at h
    rw [hr, any_isNone, h]
    rfl
  · rfl

/-- A claimed word is no part of the rest. -/
theorem rest_of_claims (ht : st.trailing = false) (h : spec.claims word = true)
    (hs : step spec st word = .ok t) : t.rest = st.rest := by
  rw [step, if_neg (by simp [ht])] at hs
  split at hs
  · cases hs
    rfl
  · rename_i body hne hw
    rw [Spec.claims, hw] at h
    exact rest_long (by simpa only [long?_isSome] using h) hs
  · rename_i c r _ hc hw
    rw [claims_of_letters hc hw] at h
    rw [any_isNone, h, Bool.not_true, Bool.and_false, if_neg Bool.false_ne_true] at hs
    exact rest_cluster hs
  · rw [Spec.claims] at h
    split at h <;> simp_all

/-- Words that all come to be the rest start with none that is claimed. -/
theorem not_claims_of_rest (ht : st.trailing = false) (hr : st.rest = [])
    (h : (words.foldlM (step spec) st >>= settle) = .ok t) (he : t.rest = words) :
    ∀ w ∈ words.head?, spec.claims w = false := by
  intro w hw
  cases words with
  | nil => cases hw
  | cons v vs =>
    cases hw
    rw [← Bool.not_eq_true]
    intro hc
    obtain ⟨u, hrun, hs⟩ := bind_ok h
    rw [List.foldlM_cons] at hrun
    obtain ⟨s, hstep, hrun⟩ := bind_ok hrun
    -- The first word is lost, and each of the others adds one word at most.
    have hlost : s.rest = [] := (rest_of_claims ht hc hstep).trans hr
    have hlength := length_rest_run hrun
    rw [← rest_settle hs, he, hlost, List.length_cons, List.length_nil, Nat.zero_add] at hlength
    exact Nat.not_succ_le_self _ hlength

theorem claims_of_isPlainWord (h : isPlainWord word) : spec.claims word = false := by
  obtain ⟨c, r, hl, hc⟩ := exists_of_isPlainWord h
  rw [Spec.claims, hl]
  split <;> simp_all

end

end Pipewright.CommandLine
