import Pipewright.Proofs.Wiring.Coverage
import Pipewright.Proofs.Wiring.Refusals

/-! The order in which channels are declared: it decides where lines and words stand, but not which
there are, nor what a parameter gets. -/
namespace Pipewright.Wiring

/-- Two lists with the same stretches of their own, each behind stretches with the same members. -/
def Rearranged {α : Type*} (own₁ own₂ xs ys : List α) : Prop :=
  ∃ as as' bs bs', as.Perm as' ∧ bs.Perm bs' ∧ xs = as ++ own₁ ++ (bs ++ own₂) ∧
    ys = as' ++ own₁ ++ (bs' ++ own₂)

/-- The flags of parameters that no channel feeds. -/
def ownFlags (q : WiringRequest) (params : List String) : List FlagWord :=
  (params.map ownEntry).flatMap (flagWords q.binding)

/-- The pipeline parameters that no channel reads. -/
def ownParams (q : WiringRequest) (params : List String) : List (String × Literal) :=
  params.map fun p => (p, fallbackValue q p)

/-- Two wirings of a process that differ in the order of its channels only. -/
structure Reordered (q : WiringRequest) (w w' : Wiring) : Prop where
  positionals : positionalWords q.binding w = positionalWords q.binding w'
  flags : w.flags.Perm w'.flags
  inputs : w.inputs.Perm w'.inputs
  outputs : w.outputs.Perm w'.outputs
  trailing : w.trailing.Perm w'.trailing
  params : w.pipelineParams.Perm w'.pipelineParams
  /-- What stands for parameters without a channel keeps its order. -/
  ownFlags : Rearranged (ownFlags q (leftInputs q)) (ownFlags q (leftOutputs q)) w.flags w'.flags
  ownInputs : Rearranged ((leftInputs q).map fallbackLine) ((leftOutputs q).map fallbackLine)
    w.inputs w'.inputs
  ownOutputs : Rearranged [] ((leftOutputs q).map fallbackOutput) w.outputs w'.outputs
  ownParams : Rearranged (ownParams q (leftInputs q)) (ownParams q (leftOutputs q))
    w.pipelineParams w'.pipelineParams

section
variable {α β : Type*} {own₁ own₂ xs ys : List α}

theorem Rearranged.perm (h : Rearranged own₁ own₂ xs ys) : xs.Perm ys := by
  obtain ⟨as, as', bs, bs', ha, hb, rfl, rfl⟩ := h
  exact (ha.append_right own₁).append (hb.append_right own₂)

theorem Rearranged.flatMap (h : Rearranged own₁ own₂ xs ys) (f : α → List β) :
    Rearranged (own₁.flatMap f) (own₂.flatMap f) (xs.flatMap f) (ys.flatMap f) := by
  obtain ⟨as, as', bs, bs', ha, hb, rfl, rfl⟩ := h
  refine ⟨as.flatMap f, as'.flatMap f, bs.flatMap f, bs'.flatMap f, ha.flatMap_right f,
    hb.flatMap_right f, ?_, ?_⟩ <;> simp only [List.flatMap_append]

theorem eq_of_perm_of_length (h : xs.Perm ys) (hl : xs.length ≤ 1) : xs = ys := by
  match xs with
  | [] => exact (List.nil_perm.1 h).symm
  | [x] => exact List.singleton_perm.1 h

end

section
variable {q : WiringRequest} {cs : List Channel} {b : Binding} {param : String}
  {es : List (String × String)}

/-! The word of a positional argument -/

theorem get?_place {ps ps' : List (String × String)}
    (h : Entries.get? param ps = Entries.get? param ps') (e : String × String) :
    Entries.get? param (place b ps e) = Entries.get? param (place b ps' e) := by
  by_cases hb : binds param e
  · simp only [binds, Bool.and_eq_true, decide_eq_true_eq] at hb
    obtain ⟨-, rfl⟩ := hb
    simp only [place]
    split
    · rw [Entries.get?_put_self, Entries.get?_put_self]
    · exact h
  · rw [get?_place_of_not_binds hb, get?_place_of_not_binds hb, h]

/-- Only what binds a parameter decides its word. -/
theorem get?_foldl_place_filter (param : String) (es : List (String × String))
    {ps ps' : List (String × String)} (h : Entries.get? param ps = Entries.get? param ps') :
    Entries.get? param (es.foldl (place b) ps) =
      Entries.get? param ((es.filter (binds param)).foldl (place b) ps') := by
  induction es generalizing ps ps' with
  | nil => exact h
  | cons e es ih =>
    by_cases hb : binds param e
    · rw [List.filter_cons_of_pos hb]
      exact ih (get?_place h e)
    · rw [List.filter_cons_of_neg hb]
      exact ih ((get?_place_of_not_binds hb ps).trans h)

/-! The channels in another order -/

variable (h : cs.Perm q.channels)

include h in
theorem inputChannels_perm : (inputChannels q).Perm (inputChannels { q with channels := cs }) :=
  (h.filter _).symm

include h in
theorem outputChannels_perm :
    (outputChannels q).Perm (outputChannels { q with channels := cs }) :=
  (h.filter _).symm

theorem unclaimed_perm {cs cs' : List Channel} (h : cs.Perm cs') (params : List String) :
    unclaimed cs params = unclaimed cs' params := by
  refine List.filter_congr fun p _ => ?_
  rw [Bool.eq_iff_iff]
  simp [h.mem_iff]

include h in
theorem leftInputs_perm : leftInputs { q with channels := cs } = leftInputs q :=
  (unclaimed_perm (inputChannels_perm h) _).symm

include h in
theorem leftOutputs_perm : leftOutputs { q with channels := cs } = leftOutputs q :=
  (unclaimed_perm (outputChannels_perm h) _).symm

include h in
theorem wired_perm : (wired q).Perm (wired { q with channels := cs }) :=
  ((inputChannels_perm h).filter _).append ((outputChannels_perm h).filter _)

include h in
theorem inputEntries_perm : ((live (inputChannels q)).flatMap entriesOf).Perm
    ((live (inputChannels { q with channels := cs })).flatMap entriesOf) :=
  ((inputChannels_perm h).filter _).flatMap_right entriesOf

include h in
theorem outputEntries_perm : ((live (outputChannels q)).flatMap entriesOf).Perm
    ((live (outputChannels { q with channels := cs })).flatMap entriesOf) :=
  ((outputChannels_perm h).filter _).flatMap_right entriesOf

include h in
theorem passed_rearranged :
    Rearranged ((leftInputs q).map ownEntry) ((leftOutputs q).map ownEntry) (passed q)
      (passed { q with channels := cs }) := by
  refine ⟨_, _, _, _, inputEntries_perm h, outputEntries_perm h, rfl, ?_⟩
  rw [passed, leftInputs_perm h, leftOutputs_perm h]

include h in
/-- What binds a parameter stands in the same order: each side binds it once at most. -/
theorem filter_passed_perm {w : Wiring} (hw : wire q = .ok w) (param : String) :
    (passed q).filter (binds param) = (passed { q with channels := cs }).filter (binds param) := by
  have hbound := (wire_ok hw).2.2
  rw [wire_bound hw, List.nodup_append] at hbound
  have hins := eq_of_perm_of_length ((inputEntries_perm h).filter (binds param))
    (length_filter_binds hbound.1 param)
  have houts := eq_of_perm_of_length ((outputEntries_perm h).filter (binds param))
    (length_filter_binds hbound.2.1 param)
  rw [passed, passed, leftInputs_perm h, leftOutputs_perm h]
  simp only [List.filter_append, hins, houts]

include h in
theorem positionalWords_perm {w w' : Wiring} (hw : wire q = .ok w)
    (hw' : wire { q with channels := cs } = .ok w') :
    positionalWords q.binding w = positionalWords q.binding w' := by
  refine List.filterMap_congr fun a _ => ?_
  rw [wire_positionals hw, wire_positionals hw', get?_foldl_place_filter a.param (passed q) rfl,
    filter_passed_perm h hw a.param]
  exact (get?_foldl_place_filter a.param _ rfl).symm

/-- The order of the channels decides neither whether a process is wired nor what its parameters
get: positional words stay as they are, and all else keeps its members, with what stands for
parameters without a channel in its order. -/
theorem wire_reordered (h : cs.Perm q.channels) :
    ((∃ w, wire q = .ok w) ↔ ∃ w, wire { q with channels := cs } = .ok w) ∧
      ∀ w w', wire q = .ok w → wire { q with channels := cs } = .ok w' → Reordered q w w' := by
  constructor
  · have hwired := wired_perm h
    rw [wire_succeeds_iff, wire_succeeds_iff, (hwired.flatMap_right plainNames).nodup_iff]
    simp only [hwired.mem_iff]
  intro w w' hw hw'
  have hpassed := passed_rearranged h
  have hlive₁ := (inputChannels_perm h).filter fun c => !c.isSkipped
  have hlive₂ := (outputChannels_perm h).filter fun c => !c.isSkipped
  have hflags : Rearranged (ownFlags q (leftInputs q)) (ownFlags q (leftOutputs q))
      w.flags w'.flags := by
    rw [wire_flags hw, wire_flags hw']
    exact hpassed.flatMap (flagWords q.binding)
  have hinputs : Rearranged ((leftInputs q).map fallbackLine) ((leftOutputs q).map fallbackLine)
      w.inputs w'.inputs := by
    refine ⟨_, _, [], [], hlive₁.map lineOf, .nil, ?_, ?_⟩
    · rw [wire_inputs hw, ← List.append_assoc]
      rfl
    · rw [wire_inputs hw', leftInputs_perm h, leftOutputs_perm h, ← List.append_assoc]
      rfl
  have houtputs : Rearranged [] ((leftOutputs q).map fallbackOutput) w.outputs w'.outputs := by
    refine ⟨[], [], _, _, .nil, hlive₂.map routeOf, wire_outputs hw, ?_⟩
    rw [wire_outputs hw', leftOutputs_perm h]
    rfl
  have hparams : Rearranged (ownParams q (leftInputs q)) (ownParams q (leftOutputs q))
      w.pipelineParams w'.pipelineParams := by
    refine ⟨_, _, [], [], hlive₁.flatMap_right (paramsOf q), .nil, ?_, ?_⟩
    · rw [wire_params hw, ← List.append_assoc]
      rfl
    · rw [wire_params hw', leftInputs_perm h, leftOutputs_perm h, ← List.append_assoc]
      rfl
  refine ⟨positionalWords_perm h hw hw', hflags.perm, hinputs.perm, houtputs.perm, ?_,
    hparams.perm, hflags, hinputs, houtputs, hparams⟩
  rw [wire_trailing hw, wire_trailing hw']
  exact (hpassed.perm.filter _).map _

end

/-- A process with two inputs from channels and one without. -/
def sampledRequest : WiringRequest where
  process := "count"
  binding := Binding.ofSignature
    ⟨"process", [positionalParam "table", positionalParam "sample",
      ⟨"limit", .keywordOnly, none, some (.int 1)⟩], none, none, "", "", 0⟩ []
  channels := [.simple "samples" "val" "s" (some "sample"),
    .simple "tables" "file" "t" (some "table"), .simple "plots" "file" "'p.png'" none]
  inchannels := ["tables", "samples"]
  outchannels := ["plots"]
  params := []
  capture := none

theorem wire_reordered_sampled :
    sampledRequest.channels.reverse.Perm sampledRequest.channels ∧
      ∃ w w', wire sampledRequest = .ok w ∧
        wire { sampledRequest with channels := sampledRequest.channels.reverse } = .ok w' ∧
        w.inputs ≠ w'.inputs ∧ positionalWords sampledRequest.binding w' = ["$t", "$s"] ∧
        Reordered sampledRequest w w' := by
  have hperm := List.reverse_perm sampledRequest.channels
  exact ⟨hperm, _, _, rfl, rfl, by decide, by decide,
    (wire_reordered hperm).2 _ _ rfl rfl⟩

end Pipewright.Wiring
