import Pipewright.Proofs.Binding.Views

/-! Which of several arguments for one result receives it. -/
namespace Pipewright.Binding

/-- The arguments of a command line that name a file for a result, counted from zero. -/
def rivals (b : Binding) (k : Nat) : List Argument :=
  b.fileArguments.filter fun a => a.role = .output (k + 1)

/-- Whether the result of an argument goes to its destination. -/
def Receives (b : Binding) (a : Argument) : Prop :=
  ∀ k, a.role = .output (k + 1) → b.outputs[k]? = some (some a.dest)

section
variable {f : Signature} {os : Overrides} {a : Argument} {k : Nat}

/-- The last argument for a slot decides what the slot holds. -/
theorem getElem?_foldl_set_last (as : List Argument) {slots : List (Option String)}
    (hk : k < slots.length) :
    (as.foldl (fun slots a => slots.set (resultIndex a - 1) (some a.dest)) slots)[k]? =
      ((as.filter fun a => resultIndex a - 1 = k).getLast?.map fun a => some a.dest).or
        slots[k]? := by
  induction as using List.reverseRecOn with
  | nil => rfl
  | append_singleton as a ih =>
    have hlen := length_foldl_set as slots
    rw [List.foldl_append, List.filter_append]
    by_cases ha : resultIndex a - 1 = k
    · simp [ha, hlen, hk]
    · simp [ha, ih]

theorem exists_role (ha : a ∈ (ofSignature f os).fileArguments) :
    ∃ k < (ofSignature f os).outputs.length, a.role = .output (k + 1) := by
  rw [fileArguments_ofSignature] at ha
  rw [ofSignature, length_outputDests]
  exact role_of_fileArgument ha

theorem resultIndex_eq_iff (ha : a ∈ (ofSignature f os).fileArguments) :
    resultIndex a - 1 = k ↔ a.role = .output (k + 1) := by
  obtain ⟨j, -, hj⟩ := exists_role ha
  simp [resultIndex, hj]

/-- Each result goes to the last argument for it. -/
theorem outputs_eq_last (hk : k < (ofSignature f os).outputs.length) :
    (ofSignature f os).outputs[k]? =
      some (((ofSignature f os).rivals k).getLast?.map Argument.dest) := by
  have hcount : k < resultCount f os := by
    rwa [ofSignature, length_outputDests] at hk
  have hrivals : (ofSignature f os).rivals k =
      (outputArguments f os).filter fun a => resultIndex a - 1 = k := by
    rw [rivals, ← fileArguments_ofSignature]
    exact List.filter_congr fun a ha => by rw [decide_eq_decide, resultIndex_eq_iff ha]
  have hlength : k < (List.replicate (resultCount f os) (none : Option String)).length := by
    simpa using hcount
  have hlast := getElem?_foldl_set_last (outputArguments f os) hlength
  rw [hrivals]
  refine hlast.trans ?_
  cases ((outputArguments f os).filter fun a => resultIndex a - 1 = k).getLast? <;> simp [hcount]

theorem lt_length_outputs (ha : a ∈ (ofSignature f os).fileArguments)
    (hr : a.role = .output (k + 1)) : k < (ofSignature f os).outputs.length := by
  obtain ⟨j, hj, hrole⟩ := exists_role ha
  have hjk : j = k := by simpa [hrole] using hr
  exact hjk ▸ hj

theorem mem_rivals {b : Binding} : a ∈ b.rivals k ↔
    a ∈ b.fileArguments ∧ a.role = .output (k + 1) := by
  simp [rivals]

/-- An argument receives its result just if the last one for the result has its destination. -/
theorem outputs_eq_last_iff (ha : a ∈ (ofSignature f os).fileArguments)
    (hr : a.role = .output (k + 1)) : (ofSignature f os).outputs[k]? = some (some a.dest) ↔
      ∀ c ∈ ((ofSignature f os).rivals k).getLast?, c.dest = a.dest := by
  rw [outputs_eq_last (lt_length_outputs ha hr), Option.some_inj]
  have hne : (ofSignature f os).rivals k ≠ [] := List.ne_nil_of_mem (mem_rivals.2 ⟨ha, hr⟩)
  rw [List.getLast?_eq_some_getLast hne]
  simp

/-- Whether a setting makes an argument that names a file for a result. -/
def NamesFile (f : Signature) (e : String × Override) : Prop :=
  IsForeign f e ∧ e.2.output ≠ 0 ∧ e.2.flags ≠ []

theorem mem_fileArguments : a ∈ (ofSignature f os).fileArguments ↔
    ∃ e ∈ os, NamesFile f e ∧ a = outputArgument e.1 e.2 := by
  rw [fileArguments_ofSignature, mem_outputArguments]
  simp only [NamesFile, and_assoc]

/-- All receive their results if those for one result agree, and only then. -/
theorem forall_receives_iff :
    (∀ a ∈ (ofSignature f os).fileArguments, (ofSignature f os).Receives a) ↔
      ∀ a ∈ (ofSignature f os).fileArguments, ∀ c ∈ (ofSignature f os).fileArguments,
        a.role = c.role → a.dest = c.dest := by
  constructor
  · intro h a ha c hc hr
    obtain ⟨k, -, hk⟩ := exists_role ha
    have hslot := (h a ha k hk).symm.trans (h c hc k (hr ▸ hk))
    simpa using hslot
  · intro h a ha k hk
    refine (outputs_eq_last_iff ha hk).2 fun c hc => ?_
    obtain ⟨hm, hrole⟩ := mem_rivals.1 (List.mem_of_getLast? hc)
    exact h c hm a ha (hrole.trans hk.symm)

end

/-- An argument that names a file for a result receives it just if the last argument for the
result, in the order of their names, has the same destination. So all receive their results just
if no two settings name different destinations for one result. -/
theorem receives_result_iff (f : Signature) (os : Overrides) :
    (∀ a ∈ (ofSignature f os).fileArguments, ∃ k, a.role = .output (k + 1) ∧
      ((ofSignature f os).outputs[k]? = some (some a.dest) ↔
        ∀ c ∈ ((ofSignature f os).rivals k).getLast?, c.dest = a.dest)) ∧
      ((∀ a ∈ (ofSignature f os).fileArguments, (ofSignature f os).Receives a) ↔
        ∀ e ∈ os, ∀ d ∈ os, NamesFile f e → NamesFile f d → e.2.output = d.2.output →
          (outputArgument e.1 e.2).dest = (outputArgument d.1 d.2).dest) := by
  refine ⟨fun a ha => ?_, forall_receives_iff.trans ?_⟩
  · obtain ⟨k, -, hk⟩ := exists_role ha
    exact ⟨k, hk, outputs_eq_last_iff ha hk⟩
  · constructor
    · intro h e he d hd hef hdf ho
      exact h _ (mem_fileArguments.2 ⟨e, he, hef, rfl⟩) _ (mem_fileArguments.2 ⟨d, hd, hdf, rfl⟩)
        (congrArg Role.output ho)
    · intro h a ha c hc hr
      obtain ⟨e, he, hef, rfl⟩ := mem_fileArguments.1 ha
      obtain ⟨d, hd, hdf, rfl⟩ := mem_fileArguments.1 hc
      exact h e he d hd hef hdf (Role.output.inj hr)

/-- Two arguments for the only result. -/
def rivalSettings : Overrides :=
  [("best", { Override.none with output := 1, flags := ["--best"] }),
    ("worst", { Override.none with output := 1, flags := ["--worst"] })]

/-- The first of two arguments for one result is accepted and never written. -/
theorem rival_unserved :
    (ofSignature sampledSignature rivalSettings).fileArguments.map (fun a => (a.dest, a.role)) =
        [("best", .output 1), ("worst", .output 1)] ∧
      (ofSignature sampledSignature rivalSettings).outputs = [some "worst"] ∧
      warnings sampledSignature rivalSettings = [] ∧
      ¬∀ a ∈ (ofSignature sampledSignature rivalSettings).fileArguments,
        (ofSignature sampledSignature rivalSettings).Receives a := by
  have houtputs : (ofSignature sampledSignature rivalSettings).outputs = [some "worst"] := by
    decide +kernel
  have hbest : outputArgument "best" { Override.none with output := 1, flags := ["--best"] } ∈
      (ofSignature sampledSignature rivalSettings).fileArguments :=
    mem_fileArguments.2 ⟨_, List.mem_cons_self, ⟨⟨by decide, by decide⟩, by decide, by decide⟩, rfl⟩
  refine ⟨by decide +kernel, houtputs, by decide, fun h => ?_⟩
  have hslot := h _ hbest 0 rfl
  rw [houtputs] at hslot
  exact absurd hslot (by decide +kernel)

end Pipewright.Binding
