import Pipewright.Proofs.Flow.Counts
import Pipewright.Proofs.Flow.Loops

/-! What is found to be wrong with a flow, against the channels that its stages list and the paths
along them. -/
namespace Pipewright

namespace Finding

/-- Tells of the channel that several stages read it. -/
def isCrowdOf (c : String) : Finding → Bool
  | .manyConsumers d _ => d = c
  | _ => false

/-- Tells of the channel that nothing makes it. -/
def isLackOf (c : String) : Finding → Bool
  | .notProduced d _ => d = c
  | _ => false

def isCycle : Finding → Bool
  | .cycle _ => true
  | _ => false

end Finding

namespace Flow
variable {stages : List Stage} {c : String} {i j : Nat}

/-- The names of the stages that list a channel as an input, once for each time, in the order of
the stages. -/
def readingNames (stages : List Stage) (c : String) : List String :=
  stages.flatMap fun s => (s.inchannels.filter (· = c)).map fun _ => s.name

/-- A stage writes to the channel, a statement makes it, or it is a pipeline parameter. -/
def Made (stages : List Stage) (c : String) : Prop :=
  ∃ s ∈ stages, c ∈ s.outchannels ∨ (∃ st ∈ s.pretreat, c ∈ assignedChannels st.text) ∨
    ∃ ch ∈ s.channels, ch.fromParams ∧ c ∈ ch.name.toList

instance : Decidable (Made stages c) :=
  inferInstanceAs (Decidable (∃ s ∈ stages, _ ∨ _ ∨ _))

/-- Some channel is listed as an output of the first stage and as an input of the second. -/
def Feeds (stages : List Stage) (i j : Nat) : Prop :=
  ∃ s t c, stages[i]? = some s ∧ stages[j]? = some t ∧ c ∈ s.outchannels ∧ c ∈ t.inchannels

/-- There is a path of one or more steps. -/
def Reaches (stages : List Stage) : Nat → Nat → Prop := Relation.TransGen (Feeds stages)

/-- There are paths both ways; no step is needed from a stage to itself. -/
def Mutual (stages : List Stage) (i j : Nat) : Prop :=
  Relation.ReflTransGen (Feeds stages) i j ∧ Relation.ReflTransGen (Feeds stages) j i

/-- A class of stages that reach each other, as the list of their positions, on which some path
leads back to where it starts. -/
structure IsLoop (stages : List Stage) (K : List Nat) : Prop where
  sorted : K.Pairwise (· < ·)
  whole : ∃ i < stages.length, ∀ j, j ∈ K ↔ j < stages.length ∧ Mutual stages i j
  returns : ∃ i ∈ K, Reaches stages i i

/-- A finding that tells of the stages at some positions by their names in order. -/
def TellsOf (stages : List Stage) (K : List Nat) (f : Finding) : Prop :=
  ∃ names, f = .cycle names ∧ names.Perm (K.map (nameOf stages)) ∧ names.Pairwise (· ≤ ·)

def crowding (stages : List Stage) (c : String) : List Finding :=
  if 2 ≤ (readingNames stages c).length then [.manyConsumers c (readingNames stages c)] else []

def lacking (stages : List Stage) (c : String) : List Finding :=
  if Made stages c then [] else (readingNames stages c).map (.notProduced c)

/-- Exactly what is wrong with a flow is found, each thing as often as it occurs. -/
structure Exact (stages : List Stage) (fs : List Finding) : Prop where
  crowded : ∀ c, fs.filter (Finding.isCrowdOf c) = crowding stages c
  unmade : ∀ c, fs.filter (Finding.isLackOf c) = lacking stages c
  looped : ∃ loops : List (List Nat), loops.Nodup ∧ (∀ K, K ∈ loops ↔ IsLoop stages K) ∧
    (∀ i, (∃ K ∈ loops, i ∈ K) ↔ Reaches stages i i) ∧
    List.Forall₂ (TellsOf stages) loops (fs.filter Finding.isCycle)
  ordered : fs = ((stages.flatMap Stage.inchannels).eraseDups.flatMap fun c =>
    crowding stages c ++ lacking stages c) ++ fs.filter Finding.isCycle

/-! Channels -/

theorem map_nameOf_readers (stages : List Stage) (c : String) :
    (readers stages c).map (nameOf stages) = readingNames stages c := by
  have hname : ∀ s ∈ stages.zipIdx, nameOf stages s.2 = s.1.name := by
    rintro ⟨s, i⟩ hs
    rw [nameOf, List.mk_mem_zipIdx_iff_getElem?.1 hs]
    rfl
  rw [readingNames]
  conv_rhs => rw [← List.zipIdx_map_fst 0 stages, List.flatMap_map]
  rw [readers_eq, readings, List.filter_flatMap, List.map_flatMap, List.map_flatMap]
  refine List.flatMap_congr fun s hs => ?_
  rw [List.filter_map, List.map_map, List.map_map]
  exact List.map_congr_left fun d _ => hname s hs

theorem made_iff : Made stages c ↔ producers stages c ≠ [] ∨ c ∈ external stages := by
  simp only [mem_external, ne_eq, List.eq_nil_iff_forall_not_mem, not_forall, not_not,
    mem_producers, Made]
  constructor
  · rintro ⟨s, hs, hout | hrest⟩
    · obtain ⟨i, hi⟩ := List.mem_iff_getElem?.1 hs
      exact .inl ⟨i, s, hi, hout⟩
    · exact .inr ⟨s, hs, hrest⟩
  · rintro (⟨i, s, hi, hout⟩ | ⟨s, hs, hrest⟩)
    · exact ⟨s, List.mem_of_getElem? hi, .inl hout⟩
    · exact ⟨s, hs, .inr hrest⟩

theorem channelFindings_readers (stages : List Stage) (c : String) :
    channelFindings stages c (readers stages c) = crowding stages c ++ lacking stages c := by
  have hlength : (readingNames stages c).length = (readers stages c).length := by
    rw [← map_nameOf_readers, List.length_map]
  have hmade : ((producers stages c).isEmpty && !(external stages).contains c) = true ↔
      ¬Made stages c := by
    simp [made_iff]
  have hmap : (readers stages c).map (fun r => Finding.notProduced c (nameOf stages r)) =
      (readingNames stages c).map (.notProduced c) := by
    rw [← map_nameOf_readers, List.map_map]
    rfl
  rw [channelFindings, crowding, lacking, hlength, map_nameOf_readers, hmap]
  congr 1
  by_cases hm : Made stages c
  · rw [if_pos hm, if_neg fun h => hmade.1 h hm]
  · rw [if_neg hm, if_pos (hmade.2 hm)]

theorem findings_eq (stages : List Stage) : findings stages =
    ((stages.flatMap Stage.inchannels).eraseDups.flatMap fun c =>
      crowding stages c ++ lacking stages c) ++ cycleFindings stages := by
  rw [findings, ← names_consumers, List.flatMap_map]
  congr 1
  refine List.flatMap_congr fun e he => ?_
  rw [← channelFindings_readers, mem_consumers he]

theorem mem_readChannels : c ∈ (stages.flatMap Stage.inchannels).eraseDups ↔
    readingNames stages c ≠ [] := by
  simp only [List.mem_eraseDups, ne_eq, List.eq_nil_iff_forall_not_mem, not_forall, not_not,
    readingNames, List.mem_flatMap, List.mem_map, List.mem_filter, decide_eq_true_eq]
  constructor
  · rintro ⟨s, hs, hc⟩
    exact ⟨s.name, s, hs, c, ⟨hc, rfl⟩, rfl⟩
  · rintro ⟨n, s, hs, d, ⟨hd, rfl⟩, -⟩
    exact ⟨s, hs, hd⟩

theorem flatMap_ite_key {cs : List String} {told : List Finding} (hd : cs.Nodup) :
    (cs.flatMap fun d => if d = c then told else []) = if c ∈ cs then told else [] := by
  induction cs with
  | nil => rfl
  | cons d cs ih =>
    obtain ⟨hdcs, hd⟩ := List.nodup_cons.1 hd
    rw [List.flatMap_cons, ih hd]
    by_cases hdc : d = c
    · subst hdc
      simp [hdcs]
    · simp [hdc, Ne.symm hdc]

/-- Of what is told about distinct channels, a kind of finding about one of them is what is told
about that one. -/
theorem filter_flatMap_key {cs : List String} {f : String → List Finding} {p : Finding → Bool}
    {told : List Finding} (hd : cs.Nodup) (hf : ∀ d, (f d).filter p = if d = c then told else [])
    (hnone : c ∉ cs → told = []) : (cs.flatMap f).filter p = told := by
  rw [List.filter_flatMap]
  simp only [hf]
  rw [flatMap_ite_key hd]
  split
  · rfl
  · rename_i hc
    exact (hnone hc).symm

theorem filter_crowding (c d : String) : (crowding stages d ++ lacking stages d).filter
    (Finding.isCrowdOf c) = if d = c then crowding stages c else [] := by
  have hlack : (lacking stages d).filter (Finding.isCrowdOf c) = [] := by
    rw [lacking]
    split <;> simp [Finding.isCrowdOf]
  rw [List.filter_append, hlack, List.append_nil, crowding]
  by_cases hd : d = c
  · subst hd
    split <;> simp_all [crowding, Finding.isCrowdOf]
  · split <;> simp [Finding.isCrowdOf, hd]

theorem filter_lacking (c d : String) : (crowding stages d ++ lacking stages d).filter
    (Finding.isLackOf c) = if d = c then lacking stages c else [] := by
  have hcrowd : (crowding stages d).filter (Finding.isLackOf c) = [] := by
    rw [crowding]
    split <;> simp [Finding.isLackOf]
  rw [List.filter_append, hcrowd, List.nil_append, lacking]
  by_cases hd : d = c
  · subst hd
    split <;> simp_all [lacking, Finding.isLackOf]
  · split <;> simp [Finding.isLackOf, hd]

/-! Cycles -/

theorem mem_links : (i, j) ∈ links stages ↔ Feeds stages i j := by
  have hentry : (i, j) ∈ links stages ↔ ∃ c, i ∈ producers stages c ∧ j ∈ readers stages c := by
    simp only [links, List.mem_flatMap, List.mem_map, Prod.mk.injEq]
    constructor
    · rintro ⟨⟨c, rs⟩, hm, p, hp, r, hr, rfl, rfl⟩
      exact ⟨c, hp, (mem_consumers hm).symm ▸ hr⟩
    · rintro ⟨c, hi, hj⟩
      obtain ⟨rs, hm, hr⟩ := exists_consumers hj
      exact ⟨(c, rs), hm, i, hi, j, hr, rfl, rfl⟩
  rw [hentry]
  simp only [mem_producers, mem_readers, Feeds]
  constructor
  · rintro ⟨c, ⟨s, hs, hout⟩, t, ht, hin⟩
    exact ⟨s, t, c, hs, ht, hout, hin⟩
  · rintro ⟨s, t, c, hs, ht, hout, hin⟩
    exact ⟨c, ⟨s, hs, hout⟩, t, ht, hin⟩

theorem leadsTo_links : Links.LeadsTo (links stages) i j ↔ Reaches stages i j := by
  have hstep : (fun p q => (p, q) ∈ links stages) = Feeds stages := by
    funext p q
    exact propext mem_links
  rw [Links.LeadsTo, Reaches, hstep]

theorem lt_length_of_mem_links : ∀ l ∈ links stages, l.1 < stages.length := by
  rintro ⟨p, q⟩ hl
  obtain ⟨s, t, c, hs, -⟩ := mem_links.1 hl
  exact (List.getElem?_eq_some_iff.1 hs).1

/-- On a path that leads back, stages that reach each other do so by paths of one or more steps. -/
theorem mutual_iff_of_reaches (h : Reaches stages i i) : Mutual stages i j ↔
    Reaches stages i j ∧ Reaches stages j i := by
  constructor
  · rintro ⟨hij, hji⟩
    exact ⟨h.trans_left hij, Relation.TransGen.trans_right hji h⟩
  · rintro ⟨hij, hji⟩
    exact ⟨hij.to_reflTransGen, hji.to_reflTransGen⟩

theorem lt_length_of_reaches (h : Reaches stages i j) : i < stages.length :=
  Links.lt_of_leadsTo lt_length_of_mem_links (leadsTo_links.2 h)

theorem mem_loops_iff {K : List Nat} :
    K ∈ Links.loops stages.length (links stages) ↔ IsLoop stages K := by
  simp only [Links.mem_loops lt_length_of_mem_links, leadsTo_links]
  constructor
  · rintro ⟨hsorted, i, hi, hK⟩
    obtain ⟨hii, -⟩ := (hK i).1 hi
    refine ⟨hsorted, ⟨i, lt_length_of_reaches hii, fun j => ?_⟩, i, hi, hii⟩
    rw [hK j, mutual_iff_of_reaches hii]
    exact ⟨fun h => ⟨lt_length_of_reaches h.2, h⟩, And.right⟩
  · rintro ⟨hsorted, ⟨p, -, hK⟩, i, hi, hii⟩
    -- The class is that of any of its members, so of the one that a path leads back to.
    obtain ⟨-, hpi, hip⟩ := (hK i).1 hi
    refine ⟨hsorted, i, hi, fun j => ?_⟩
    rw [hK j, ← mutual_iff_of_reaches hii]
    constructor
    · rintro ⟨-, hpj, hjp⟩
      exact ⟨hip.trans hpj, hjp.trans hpi⟩
    · intro h
      have hji := ((mutual_iff_of_reaches hii).1 h).2
      exact ⟨lt_length_of_reaches hji, hpi.trans h.1, h.2.trans hip⟩

theorem exists_loop_iff :
    (∃ K ∈ Links.loops stages.length (links stages), i ∈ K) ↔ Reaches stages i i := by
  constructor
  · rintro ⟨K, hK, hi⟩
    obtain ⟨-, p, -, hall⟩ := (Links.mem_loops lt_length_of_mem_links).1 hK
    obtain ⟨hpi, hip⟩ := (hall i).1 hi
    exact leadsTo_links.1 (hip.trans hpi)
  · intro h
    let K := (List.range stages.length).filter fun j => @decide (Mutual stages i j)
      (Classical.propDecidable _)
    have hmem : ∀ j, j ∈ K ↔ j < stages.length ∧ Mutual stages i j := by
      simp [K]
    have hi : i ∈ K := (hmem i).2 ⟨lt_length_of_reaches h, .refl, .refl⟩
    exact ⟨K, mem_loops_iff.2 ⟨List.pairwise_lt_range.filter _,
      ⟨i, lt_length_of_reaches h, hmem⟩, i, hi, h⟩, hi⟩

theorem tellsOf_sorted (stages : List Stage) (K : List Nat) : TellsOf stages K
    (.cycle ((K.map (nameOf stages)).mergeSort fun a b => decide (a ≤ b))) := by
  refine ⟨_, rfl, List.mergeSort_perm _ _, ?_⟩
  have htrans : ∀ a b c : String, decide (a ≤ b) = true → decide (b ≤ c) = true →
      decide (a ≤ c) = true := by
    intro a b c hab hbc
    exact decide_eq_true (String.le_trans (of_decide_eq_true hab) (of_decide_eq_true hbc))
  have htotal : ∀ a b : String, (decide (a ≤ b) || decide (b ≤ a)) = true := by
    intro a b
    simpa using String.le_total a b
  exact (List.pairwise_mergeSort htrans htotal _).imp of_decide_eq_true

/-- The findings tell exactly of the channels that are read more than once, of the readings of
channels that nothing makes, and of the classes of stages on paths that lead back. -/
theorem findings_exact (stages : List Stage) : Exact stages (findings stages) := by
  have hd : (stages.flatMap Stage.inchannels).eraseDups.Nodup := Entries.nodup_eraseDups _
  have hunread : ∀ {c}, c ∉ (stages.flatMap Stage.inchannels).eraseDups →
      readingNames stages c = [] := fun h => not_not.1 fun hne => h (mem_readChannels.2 hne)
  have hcycles : (findings stages).filter Finding.isCycle = cycleFindings stages := by
    have hchannel : ∀ c, (crowding stages c ++ lacking stages c).filter Finding.isCycle = [] := by
      intro c
      rw [crowding, lacking]
      split <;> split <;> simp [Finding.isCycle]
    rw [findings_eq, List.filter_append, List.filter_flatMap,
      List.flatMap_eq_nil_iff.2 fun c _ => hchannel c]
    simp [cycleFindings, Finding.isCycle]
  constructor
  · intro c
    rw [findings_eq, List.filter_append, filter_flatMap_key hd (filter_crowding c)
      fun h => by simp [crowding, hunread h]]
    simp [cycleFindings, Finding.isCrowdOf]
  · intro c
    rw [findings_eq, List.filter_append, filter_flatMap_key hd (filter_lacking c)
      fun h => by simp [lacking, hunread h]]
    simp [cycleFindings, Finding.isLackOf]
  · refine ⟨Links.loops stages.length (links stages), Links.nodup_loops _ _, fun K => mem_loops_iff,
      fun i => exists_loop_iff, ?_⟩
    rw [hcycles, cycleFindings, List.forall₂_map_right_iff, List.forall₂_same]
    exact fun K _ => tellsOf_sorted stages K
  · rw [hcycles]
    exact findings_eq stages

/-- A stage that reads what it writes is a loop by itself. -/
example : findings [{ Stage.simple "mix" "a.py" with inchannels := ["x"], outchannels := ["x"] },
    { Stage.simple "plot" "b.py" with inchannels := ["y"] }] =
    [.notProduced "y" "plot", .cycle ["mix"]] := by
  decide +kernel

end Flow
end Pipewright
