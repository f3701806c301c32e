import Pipewright.Proofs.Wiring.Coverage

/-! When an argument that channels name is passed by their entries alone, whichever side they are
on. Each side keeps its own list of what is left to the pipeline parameters, so it takes a channel
on every side that lists the argument. -/
namespace Pipewright.Wiring

/-- The entries of all channels that are wired. -/
def channelEntries (q : WiringRequest) : List (String × String) :=
  (live (inputChannels q)).flatMap entriesOf ++ (live (outputChannels q)).flatMap entriesOf

/-- Whether an argument gets what the entries of channels pass to it, and nothing else. -/
structure PassedOnce (q : WiringRequest) (w : Wiring) (a : Argument) : Prop where
  undeclared : fallbacks q w a.param = ⟨[], [], []⟩
  /-- An entry without a star gives the only word for the argument. -/
  plain : ∀ e ∈ channelEntries q, binds a.param e →
    wordsFor q.binding w a.param = wordsFor q.binding (emit q.binding empty e.1 e.2) a.param ∧
      (wordsFor q.binding w a.param).length = 1
  /-- Entries with stars give no word of its own. -/
  starred : (∀ e ∈ channelEntries q, ¬binds a.param e) → wordsFor q.binding w a.param = []

/-- Whether a channel names a parameter on each side that lists it. -/
def Claimed (q : WiringRequest) (param : String) : Prop :=
  (param ∈ q.binding.flagTable.inputs.map Prod.fst →
      ∃ c ∈ inputChannels q, param ∈ c.paramNames) ∧
    (param ∈ q.binding.flagTable.outputs.map Prod.fst →
      ∃ c ∈ outputChannels q, param ∈ c.paramNames)

section
variable {q : WiringRequest} {w : Wiring} {a : Argument} {param : String}

theorem claimed_iff : Claimed q param ↔ param ∉ leftInputs q ++ leftOutputs q := by
  have hside : ∀ (cs : List Channel) (ps : List String),
      param ∉ unclaimed cs ps ↔ (param ∈ ps → ∃ c ∈ cs, param ∈ c.paramNames) := by
    intro cs ps
    rw [mem_unclaimed, not_and]
    push Not
    rfl
  rw [List.mem_append, not_or, leftInputs, leftOutputs, hside, hside, Claimed]

/-- An argument is listed on its own side only. -/
theorem claimed_iff_of_coherent (hc : q.binding.Coherent)
    (hd : (q.binding.arguments.map Argument.param).Nodup) (ha : a ∈ q.binding.arguments) :
    Claimed q a.param ↔ ∃ c ∈ chosen q a, a.param ∈ c.paramNames := by
  rw [claimed_iff, List.mem_append, mem_leftInputs hc hd ha, mem_leftOutputs hc hd ha,
    ← or_and_right]
  push Not
  simp [em]

theorem filter_passed_of_claimed (h : Claimed q param) :
    (passed q).filter (binds param) = (channelEntries q).filter (binds param) := by
  rw [claimed_iff, List.mem_append, not_or] at h
  rw [passed, channelEntries]
  simp only [List.filter_append, filter_ownEntry, filter_eq_nil_of_not_mem h.1,
    filter_eq_nil_of_not_mem h.2]
  simp

/-- Channels on both sides together bind an argument at most once. -/
theorem filter_channelEntries (h : wire q = .ok w) {e : String × String}
    (he : e ∈ channelEntries q) (hb : binds param e) :
    (channelEntries q).filter (binds param) = [e] := by
  have hn := (wire_ok h).2.2
  have hnames : w.bound = boundNames (channelEntries q) := by
    rw [wire_bound h]
    simp [boundNames, channelEntries]
  have hle := length_filter_binds (hnames ▸ hn) param
  have hm : e ∈ (channelEntries q).filter (binds param) := List.mem_filter.2 ⟨he, hb⟩
  obtain ⟨d, hd⟩ := List.length_eq_one_iff.1
    (Nat.le_antisymm hle (List.length_pos_of_mem hm))
  rw [hd] at hm ⊢
  rw [List.mem_singleton.1 hm]

theorem get?_place_of_binds {b : Binding} {e : String × String} (he : binds param e)
    {ps : List (String × String)} (hps : Entries.get? param ps = none) :
    Entries.get? param (place b ps e) = Entries.get? param (place b [] e) := by
  simp only [binds, Bool.and_eq_true, decide_eq_true_eq] at he
  obtain ⟨-, rfl⟩ := he
  simp only [place]
  split
  · rw [Entries.get?_put_self, Entries.get?_put_self]
  · exact hps

/-- What is passed on for other parameters adds no word for this one. -/
theorem wordsFor_of_single {b : Binding} {es : List (String × String)} {e : String × String}
    (hf : w.flags = es.flatMap (flagWords b)) (hp : w.positionals = es.foldl (place b) [])
    (h : es.filter (binds param) = [e]) :
    wordsFor b w param = wordsFor b (emit b empty e.1 e.2) param := by
  -- Neither what comes before the entry nor what comes after it is for the parameter.
  obtain ⟨l₁, l₂, rfl, h₁, he, h₂⟩ := List.filter_eq_cons_iff.1 h
  have h₂ : ∀ e ∈ l₂, ¬binds param e := List.filter_eq_nil_iff.1 h₂
  have hflags : w.flags.filter (fun f => f.param = param) =
      (flagWords b e).filter fun f => f.param = param := by
    rw [hf, List.flatMap_append, List.flatMap_cons, List.filter_append, List.filter_append,
      filter_flagWords h₁, filter_flagWords h₂, List.nil_append, List.append_nil]
  have hplace : Entries.get? param w.positionals = Entries.get? param (place b [] e) := by
    rw [hp, List.foldl_append, List.foldl_cons, get?_foldl_place h₂,
      get?_place_of_binds he (get?_foldl_place h₁ [])]
  rw [wordsFor, wordsFor, hflags, emit_eq_add]
  have hplaces : ∀ a ∈ b.arguments.filter (fun a => a.param = param),
      Entries.get? a.param w.positionals = Entries.get? a.param (place b [] e) := by
    intro a ha
    rw [of_decide_eq_true (List.mem_filter.1 ha).2, hplace]
  rw [List.filterMap_congr hplaces]
  simp [add, empty]

/-- An entry that binds an argument gives one word for it. -/
theorem length_wordsFor_emit {b : Binding} (hd : (b.arguments.map Argument.param).Nodup)
    (ha : a ∈ b.arguments) {e : String × String} (he : binds a.param e) :
    (wordsFor b (emit b empty e.1 e.2) a.param).length = 1 := by
  simp only [binds, Bool.and_eq_true, Bool.not_eq_true', decide_eq_true_eq] at he
  obtain ⟨hs, hp⟩ := he
  rw [hp] at hs ⊢
  have hargs := Entries.filter_key hd ha
  cases hg : b.flagTable.get? a.param with
  | none => simp [wordsFor, emit, empty, hs, hg, hargs, Entries.get?]
  | some flag =>
    by_cases hflag : flag = ""
    · subst hflag
      simp [wordsFor, emit, empty, hs, hg, hargs, Entries.get?_put_self]
    · simp [wordsFor, emit, empty, hs, hg, hargs, Entries.get?]

theorem passedOnce_of_claimed (hd : (q.binding.arguments.map Argument.param).Nodup)
    (ha : a ∈ q.binding.arguments) (h : wire q = .ok w) (hclaimed : Claimed q a.param) :
    PassedOnce q w a := by
  have hfilter := filter_passed_of_claimed hclaimed
  refine ⟨?_, fun e he hb => ?_, fun hu => ?_⟩
  · have hleft := claimed_iff.1 hclaimed
    have hout : a.param ∉ leftOutputs q := fun hm => hleft (List.mem_append_right _ hm)
    rw [fallbacks_eq h, filter_eq_nil_of_not_mem hleft, filter_eq_nil_of_not_mem hout]
    rfl
  · have hwords := wordsFor_of_single (wire_flags h) (wire_positionals h)
      (hfilter.trans (filter_channelEntries h he hb))
    exact ⟨hwords, hwords ▸ length_wordsFor_emit hd ha hb⟩
  · exact wordsFor_of_unbound hd ha (wire_flags h) (wire_positionals h)
      (hfilter.trans (List.filter_eq_nil_iff.2 hu))

/-- An argument is passed by the entries of channels alone just if channels name it on each side
that lists it. -/
theorem passedOnce_iff_claimed (hd : (q.binding.arguments.map Argument.param).Nodup)
    (ha : a ∈ q.binding.arguments) (h : wire q = .ok w) :
    PassedOnce q w a ↔ Claimed q a.param := by
  refine ⟨fun hp => ?_, passedOnce_of_claimed hd ha h⟩
  rw [claimed_iff]
  intro hm
  -- A parameter left over on a side is declared as a pipeline parameter.
  have hnone := congrArg Fallbacks.params hp.undeclared
  rw [fallbacks_eq h, List.map_eq_nil_iff, List.filter_eq_nil_iff] at hnone
  exact hnone _ hm (decide_eq_true rfl)

end

theorem passedOnce_table :
    ∃ w, wire mixedRequest = .ok w ∧
      (mixedRequest.binding.arguments.map Argument.param).Nodup ∧
      ∃ a ∈ mixedRequest.binding.arguments, a.param = "table" ∧ PassedOnce mixedRequest w a := by
  have hd : (mixedRequest.binding.arguments.map Argument.param).Nodup := by decide
  have hc : mixedRequest.binding.Coherent := Binding.ofSignature_coherent _ _
  refine ⟨_, rfl, hd, _, List.mem_cons_self, rfl, ?_⟩
  refine (passedOnce_iff_claimed hd List.mem_cons_self rfl).2 ?_
  exact (claimed_iff_of_coherent hc hd List.mem_cons_self).2 (by decide)

/-- An output channel names a parameter of the function. -/
def crossingRequest : WiringRequest where
  process := "Count"
  binding := Binding.ofSignature
    ⟨"process", [positionalParam "table", ⟨"label", .keywordOnly, none, some (.str "x")⟩], none,
      none, "", "", 0⟩ []
  channels := [⟨.one "plots", some "val", some (.one "title"), some (.one "label"), none, none,
    false⟩]
  inchannels := []
  outchannels := ["plots"]
  params := []
  capture := none

theorem crossing_passes_twice :
    (crossingRequest.binding.arguments.map Argument.param).Nodup ∧
      (∃ c ∈ live (outputChannels crossingRequest), "label" ∈ c.paramNames) ∧
      ∃ w, wire crossingRequest = .ok w ∧
        fallbacks crossingRequest w "label" =
          ⟨[fallbackLine "label"], [("label", .str "x")], []⟩ ∧
        wordsFor crossingRequest.binding w "label" = ["--label $label", "--label $title"] := by
  exact ⟨by decide, by decide, _, rfl, rfl, rfl⟩

end Pipewright.Wiring
