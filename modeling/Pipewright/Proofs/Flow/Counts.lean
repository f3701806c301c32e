import Mathlib.Data.List.Basic
import Pipewright.Flow.Basic
import Pipewright.Proofs.Entries

/-! Which stages count as writers and as readers of a channel, and which channels are told to be
without a writer. -/
namespace Pipewright.Flow
variable {stages : List Stage} {c : String} {i : Nat}

/-- The stages that count as readers of a channel. -/
def readers (stages : List Stage) (c : String) : List Nat :=
  (Entries.get? c (consumers stages)).getD []

theorem mem_producers :
    i ∈ producers stages c ↔ ∃ s, stages[i]? = some s ∧ c ∈ s.outchannels := by
  simp only [producers, List.mem_flatMap, List.mem_map, List.mem_filter, decide_eq_true_eq]
  constructor
  · rintro ⟨⟨s, j⟩, hs, d, ⟨hd, rfl⟩, rfl⟩
    exact ⟨s, List.mk_mem_zipIdx_iff_getElem?.1 hs, hd⟩
  · rintro ⟨s, hs, hc⟩
    exact ⟨(s, i), List.mk_mem_zipIdx_iff_getElem?.2 hs, c, ⟨hc, rfl⟩, rfl⟩

/-! Readers -/

/-- The names that stages list as inputs, in order, with the positions of the stages. -/
def readings (stages : List Stage) : List (String × Nat) :=
  stages.zipIdx.flatMap fun s => s.1.inchannels.map fun c => (c, s.2)

theorem consumers_eq (stages : List Stage) :
    consumers stages = (readings stages).foldl (fun cs r => addConsumer cs r.1 r.2) [] := by
  rw [consumers, readings, List.foldl_flatMap]
  simp only [List.foldl_map]

theorem nodup_consumers (stages : List Stage) : ((consumers stages).map Prod.fst).Nodup := by
  rw [consumers_eq]
  exact Entries.nodup_names_foldl_put _ _

/-- Channels stand in the order in which they are first read. -/
theorem names_consumers (stages : List Stage) :
    (consumers stages).map Prod.fst = (stages.flatMap Stage.inchannels).eraseDups := by
  have hnames : (readings stages).map Prod.fst = stages.flatMap Stage.inchannels := by
    conv_rhs => rw [← List.zipIdx_map_fst 0 stages, List.flatMap_map]
    simp [readings, List.map_flatMap, Function.comp_def]
  rw [consumers_eq, ← hnames]
  exact Entries.names_foldl_put _ _

theorem readers_eq (stages : List Stage) (c : String) :
    readers stages c = ((readings stages).filter fun r => r.1 = c).map Prod.snd := by
  rw [readers, consumers_eq]
  induction readings stages using List.reverseRecOn with
  | nil => rfl
  | append_singleton rs r ih =>
    rw [List.foldl_append, List.filter_append, List.map_append, ← ih]
    by_cases hr : r.1 = c
    · simp [addConsumer, hr, Entries.get?_put_self]
    · simp [addConsumer, hr, Entries.get?_put_of_ne (Ne.symm hr)]

theorem mem_readers : i ∈ readers stages c ↔ ∃ s, stages[i]? = some s ∧ c ∈ s.inchannels := by
  simp only [readers_eq, readings, List.mem_map, List.mem_filter, List.mem_flatMap,
    decide_eq_true_eq]
  constructor
  · rintro ⟨r, ⟨⟨⟨s, j⟩, hs, d, hd, rfl⟩, rfl⟩, rfl⟩
    exact ⟨s, List.mk_mem_zipIdx_iff_getElem?.1 hs, hd⟩
  · rintro ⟨s, hs, hc⟩
    exact ⟨(c, i), ⟨⟨(s, i), List.mk_mem_zipIdx_iff_getElem?.2 hs, c, hc, rfl⟩, rfl⟩, rfl⟩

theorem mem_consumers {rs : List Nat} (h : (c, rs) ∈ consumers stages) :
    readers stages c = rs := by
  have hget : Entries.get? c (consumers stages) = some rs :=
    Entries.get?_of_mem (nodup_consumers stages) h
  rw [readers, hget]
  rfl

theorem exists_consumers (h : i ∈ readers stages c) :
    ∃ rs, (c, rs) ∈ consumers stages ∧ i ∈ rs := by
  rw [readers] at h
  cases hg : Entries.get? c (consumers stages) with
  | none => simp [hg] at h
  | some rs =>
    rw [hg] at h
    exact ⟨rs, Entries.mem_of_get? hg, h⟩

/-! Findings -/

/-- A channel is made outside of all stages by a statement, or as a pipeline parameter. -/
theorem mem_external : c ∈ external stages ↔ ∃ s ∈ stages,
    (∃ st ∈ s.pretreat, c ∈ assignedChannels st.text) ∨
      ∃ ch ∈ s.channels, ch.fromParams ∧ c ∈ ch.name.toList := by
  simp only [external, List.mem_flatMap, List.mem_append, List.mem_filter, and_assoc]

theorem notProduced_mem_channelFindings {d name : String} {rs : List Nat} :
    .notProduced c name ∈ channelFindings stages d rs ↔
      c = d ∧ (∃ r ∈ rs, nameOf stages r = name) ∧ producers stages d = [] ∧
        d ∉ external stages := by
  rw [channelFindings, List.mem_append]
  have hmany : Finding.notProduced c name ∉
      (if 1 < rs.length then [Finding.manyConsumers d (rs.map (nameOf stages))] else []) := by
    split <;> simp
  rw [or_iff_right hmany]
  by_cases hp : producers stages d = []
  · by_cases he : d ∈ external stages
    · simp [hp, he]
    · simp only [hp, List.isEmpty_nil, Bool.true_and, List.contains_eq_mem, he, decide_false,
        Bool.not_false, if_true, List.mem_map, Finding.notProduced.injEq, not_false_eq_true,
        and_true]
      constructor
      · rintro ⟨r, hr, rfl, rfl⟩
        exact ⟨rfl, r, hr, rfl⟩
      · rintro ⟨rfl, r, hr, rfl⟩
        exact ⟨r, hr, rfl, rfl⟩
  · simp [hp]

/-- A channel is told to be without a writer just if some stage lists it as an input, none as an
output, and it is not made outside of the stages. -/
theorem notProduced_mem_findings {name : String} :
    .notProduced c name ∈ findings stages ↔
      (∃ i ∈ readers stages c, nameOf stages i = name) ∧ producers stages c = [] ∧
        c ∉ external stages := by
  have hcycles : Finding.notProduced c name ∉ cycleFindings stages := by
    simp [cycleFindings]
  rw [findings, List.mem_append, or_iff_left hcycles, List.mem_flatMap]
  constructor
  · rintro ⟨⟨d, rs⟩, hm, hf⟩
    obtain ⟨rfl, hr, hrest⟩ := notProduced_mem_channelFindings.1 hf
    rw [mem_consumers hm]
    exact ⟨hr, hrest⟩
  · rintro ⟨⟨i, hi, hn⟩, hrest⟩
    obtain ⟨rs, hm, hrs⟩ := exists_consumers hi
    exact ⟨(c, rs), hm, notProduced_mem_channelFindings.2 ⟨rfl, ⟨i, hrs, hn⟩, hrest⟩⟩

end Pipewright.Flow
