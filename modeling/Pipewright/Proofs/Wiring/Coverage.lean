import Pipewright.Proofs.Wiring.Words

/-! Every argument of a binding is fed by one channel, passed on as trailing words, suppressed, or
read from the pipeline parameter of its name: exactly one of these, and exactly once. -/
namespace Pipewright.Wiring

/-- The channels on the side of an argument. -/
def chosen (q : WiringRequest) (a : Argument) : List Channel :=
  if a.role = .input then inputChannels q else outputChannels q

/-- What a wiring declares for parameters beyond its channels. -/
structure Fallbacks where
  inputs : List InputLine
  params : List (String × Literal)
  outputs : List OutputLine

/-- What stands for one parameter after the lines and pipeline parameters of the channels. -/
def fallbacks (q : WiringRequest) (w : Wiring) (param : String) : Fallbacks where
  inputs := (w.inputs.drop (live (inputChannels q)).length).filter fun l => l.source = param
  params := (w.pipelineParams.drop
    ((live (inputChannels q)).filter Channel.fromParams).length).filter fun e => e.1 = param
  outputs := (w.outputs.drop (live (outputChannels q)).length).filter fun l =>
    l.target = .one param

/-- How an argument comes by its value. -/
inductive Coverage where
  /-- A channel feeds it. -/
  | fed
  /-- Starred entries pass trailing words on for it. -/
  | trailing
  /-- Only skipped channels name it. -/
  | suppressed
  /-- No channel names it. -/
  | fallback
  deriving DecidableEq

namespace Coverage

/-- The channels that call for a case. -/
def Applies (q : WiringRequest) (a : Argument) : Coverage → Prop
  | .fed => ((naming a.param (live (chosen q a))).filter fun e => !isStarred e.1).length = 1
  | .trailing => naming a.param (live (chosen q a)) ≠ [] ∧
      ∀ e ∈ naming a.param (live (chosen q a)), isStarred e.1
  | .suppressed => naming a.param (live (chosen q a)) = [] ∧
      ∃ c ∈ chosen q a, a.param ∈ c.paramNames
  | .fallback => ∀ c ∈ chosen q a, a.param ∉ c.paramNames

/-- What an argument gets. -/
def Gives (q : WiringRequest) (w : Wiring) (a : Argument) : Coverage → Prop
  | .fed => fallbacks q w a.param = ⟨[], [], []⟩ ∧
      ∃ c ∈ live (chosen q a), ∃ r, c.resolve = .ok r ∧ ∃ (i : Nat) (v : String),
        r.params[i]? = some (some a.param) ∧ r.vars[i]? = some v ∧
        wordsFor q.binding w a.param = [a.word (shellReference v)]
  | .trailing => (fallbacks q w a.param = ⟨[], [], []⟩ ∧ wordsFor q.binding w a.param = []) ∧
      ((naming a.param (live (chosen q a))).map Prod.snd).Sublist w.trailing
  | .suppressed => fallbacks q w a.param = ⟨[], [], []⟩ ∧ wordsFor q.binding w a.param = []
  | .fallback => fallbacks q w a.param = ⟨[fallbackLine a.param],
        [(a.param, fallbackValue q a.param)],
        if a.role = .input then [] else [fallbackOutput a.param]⟩ ∧
      wordsFor q.binding w a.param =
        if isStarred a.param then [] else [a.word ("$" ++ a.param)]

end Coverage

/-! Arguments without a channel -/

theorem filter_eq_nil_of_not_mem {param : String} {ps : List String} (h : param ∉ ps) :
    (ps.filter fun p => p = param) = [] :=
  List.filter_eq_nil_iff.2 fun _ hm he => h (of_decide_eq_true he ▸ hm)

theorem filter_eq_of_nodup {ps : List String} (h : ps.Nodup) (param : String) :
    ps.filter (fun p => p = param) = if param ∈ ps then [param] else [] := by
  by_cases hm : param ∈ ps
  · have hkeys : (ps.map id).Nodup := by rwa [List.map_id]
    rw [if_pos hm]
    exact Entries.filter_key hkeys hm
  · rw [if_neg hm, filter_eq_nil_of_not_mem hm]

theorem filter_ownEntry (ps : List String) (param : String) :
    (ps.map ownEntry).filter (binds param) =
      if isStarred param then [] else (ps.filter fun p => p = param).map ownEntry := by
  rw [List.filter_map]
  split
  · rename_i hs
    rw [List.filter_eq_nil_iff.2 fun p _ => ?_]; · rfl
    simp only [Function.comp_apply, binds, ownEntry, Bool.and_eq_true, Bool.not_eq_true', not_and]
    intro hn he
    rw [of_decide_eq_true he, hs] at hn
    cases hn
  · rename_i hs
    refine congrArg (List.map ownEntry) (List.filter_congr fun p _ => ?_)
    by_cases he : p = param
    · subst he; simp [binds, ownEntry, hs]
    · simp [binds, ownEntry, he]

section
variable {q : WiringRequest} {w : Wiring} {a : Argument}
  (hc : q.binding.Coherent) (hd : (q.binding.arguments.map Argument.param).Nodup)
  (ha : a ∈ q.binding.arguments)

theorem mem_unclaimed {param : String} {cs : List Channel} {ps : List String} :
    param ∈ unclaimed cs ps ↔ param ∈ ps ∧ ∀ c ∈ cs, param ∉ c.paramNames := by
  simp [unclaimed]

include hc hd in
theorem nodup_left : (leftInputs q ++ leftOutputs q).Nodup :=
  (Binding.nodup_names_flagTable hc hd).sublist
    (List.Sublist.append List.filter_sublist List.filter_sublist)

include hc hd ha in
theorem mem_leftInputs :
    a.param ∈ leftInputs q ↔ a.role = .input ∧ ∀ c ∈ chosen q a, a.param ∉ c.paramNames := by
  rw [leftInputs, mem_unclaimed, Binding.param_mem_inputs hc hd ha]
  exact and_congr_right fun hr => by rw [chosen, if_pos hr]

include hc hd ha in
theorem mem_leftOutputs :
    a.param ∈ leftOutputs q ↔ a.role ≠ .input ∧ ∀ c ∈ chosen q a, a.param ∉ c.paramNames := by
  rw [leftOutputs, mem_unclaimed, Binding.param_mem_outputs hc hd ha]
  exact and_congr_right fun hr => by rw [chosen, if_neg hr]

theorem length_paramsOf (q : WiringRequest) (cs : List Channel) :
    (cs.flatMap (paramsOf q)).length = (cs.filter Channel.fromParams).length := by
  induction cs with
  | nil => rfl
  | cons c cs ih =>
    cases hp : c.fromParams <;> simp [paramsOf, hp, ih, Nat.add_comm]

theorem fallbacks_eq (h : wire q = .ok w) (param : String) :
    fallbacks q w param =
      ⟨((leftInputs q ++ leftOutputs q).filter fun p => p = param).map fallbackLine,
        ((leftInputs q ++ leftOutputs q).filter fun p => p = param).map fun p =>
          (p, fallbackValue q p),
        ((leftOutputs q).filter fun p => p = param).map fallbackOutput⟩ := by
  have ho : (leftOutputs q).filter (fun p => (fallbackOutput p).target = .one param) =
      (leftOutputs q).filter fun p => p = param :=
    List.filter_congr fun p _ => by simp [fallbackOutput]
  rw [fallbacks, wire_inputs h, wire_params h, wire_outputs h, ← length_paramsOf q,
    List.drop_left' (List.length_map _), List.drop_left, List.drop_left' (List.length_map _)]
  simp only [← List.map_append, List.filter_map, Function.comp_def, ho]
  rfl

include hc hd ha in
theorem filter_left :
    (leftInputs q ++ leftOutputs q).filter (fun p => p = a.param) =
      if ∀ c ∈ chosen q a, a.param ∉ c.paramNames then [a.param] else [] := by
  rw [filter_eq_of_nodup (nodup_left hc hd)]
  refine if_congr ?_ rfl rfl
  rw [List.mem_append, mem_leftInputs hc hd ha, mem_leftOutputs hc hd ha, ← or_and_right]
  exact and_iff_right (em _)

theorem filter_binds_of_unnamed {param : String} {cs : List Channel}
    (h : ∀ c ∈ cs, param ∉ c.paramNames) : (cs.flatMap entriesOf).filter (binds param) = [] := by
  rw [← filter_naming, naming_eq_nil_iff.2 h, List.filter_nil]

include hc hd ha in
theorem filter_leftOutputs :
    ((leftOutputs q).filter fun p => p = a.param) =
      if a.role = .input then []
      else (leftInputs q ++ leftOutputs q).filter fun p => p = a.param := by
  by_cases hr : a.role = .input
  · rw [if_pos hr]
    exact filter_eq_nil_of_not_mem fun hm => ((mem_leftOutputs hc hd ha).1 hm).1 hr
  · rw [if_neg hr, List.filter_append, filter_eq_nil_of_not_mem fun hm =>
      hr ((mem_leftInputs hc hd ha).1 hm).1, List.nil_append]

variable (hin : ∀ c ∈ live (inputChannels q), ∀ f ∈ q.binding.fileArguments,
    f.param ∉ c.paramNames)
  (hout : ∀ c ∈ live (outputChannels q), ∀ f ∈ q.binding.inputArguments,
    f.param ∉ c.paramNames)

include hc hd ha hin hout in
/-- What binds an argument comes from the channels on its side, or else from itself. -/
theorem filter_passed :
    (passed q).filter (binds a.param) =
      ((live (chosen q a)).flatMap entriesOf).filter (binds a.param) ++
        if isStarred a.param then []
        else ((leftInputs q ++ leftOutputs q).filter fun p => p = a.param).map ownEntry := by
  have hlo := filter_leftOutputs hc hd ha
  by_cases hr : a.role = .input
  · have ho : ((live (outputChannels q)).flatMap entriesOf).filter (binds a.param) = [] :=
      filter_binds_of_unnamed fun c hm =>
        hout c hm a (List.mem_filter.2 ⟨ha, decide_eq_true hr⟩)
    rw [if_pos hr] at hlo
    rw [passed, chosen, if_pos hr]
    simp only [List.filter_append, filter_ownEntry, ho, hlo]
    split <;> simp
  · have hi : ((live (inputChannels q)).flatMap entriesOf).filter (binds a.param) = [] :=
      filter_binds_of_unnamed fun c hm =>
        hin c hm a (List.mem_filter.2 ⟨ha, decide_eq_true hr⟩)
    have hli : ((leftInputs q).filter fun p => p = a.param) = [] :=
      filter_eq_nil_of_not_mem fun hm => hr ((mem_leftInputs hc hd ha).1 hm).1
    rw [passed, chosen, if_neg hr]
    simp only [List.filter_append, filter_ownEntry, hi, hli]
    split <;> simp

/-! The cases -/

theorem live_subset {c : Channel} {cs : List Channel} (h : c ∈ live cs) : c ∈ cs :=
  (mem_live.1 h).1

/-- The binding entries of one side do not name an argument twice. -/
theorem length_filter_naming (h : wire q = .ok w) :
    ((naming a.param (live (chosen q a))).filter fun e => !isStarred e.1).length ≤ 1 := by
  have hb := (wire_ok h).2.2
  rw [wire_bound h, List.nodup_append] at hb
  rw [filter_naming, chosen]
  split
  · exact length_filter_binds hb.1 a.param
  · exact length_filter_binds hb.2.1 a.param

theorem existsUnique_applies (h : wire q = .ok w) : ∃! c : Coverage, c.Applies q a := by
  have hle := length_filter_naming (a := a) h
  have hnil : (∀ c ∈ chosen q a, a.param ∉ c.paramNames) →
      naming a.param (live (chosen q a)) = [] := fun hf =>
    naming_eq_nil_iff.2 fun c hm => hf c (live_subset hm)
  by_cases h₁ : ((naming a.param (live (chosen q a))).filter fun e => !isStarred e.1).length = 1
  · refine ⟨.fed, h₁, fun c hcase => ?_⟩
    cases c with
    | fed => rfl
    | trailing =>
      rw [List.filter_eq_nil_iff.2 fun e he => by simp [hcase.2 e he]] at h₁
      cases h₁
    | suppressed => rw [hcase.1] at h₁; cases h₁
    | fallback => rw [hnil hcase] at h₁; cases h₁
  · by_cases h₂ : naming a.param (live (chosen q a)) = []
    · by_cases h₃ : ∃ c ∈ chosen q a, a.param ∈ c.paramNames
      · refine ⟨.suppressed, ⟨h₂, h₃⟩, fun c hcase => ?_⟩
        cases c with
        | fed => exact absurd hcase h₁
        | trailing => exact absurd h₂ hcase.1
        | suppressed => rfl
        | fallback =>
          obtain ⟨c, hm, hp⟩ := h₃
          exact absurd hp (hcase c hm)
      · refine ⟨.fallback, fun c hm hp => h₃ ⟨c, hm, hp⟩, fun c hcase => ?_⟩
        cases c with
        | fed => exact absurd hcase h₁
        | trailing => exact absurd h₂ hcase.1
        | suppressed => exact absurd hcase.2 h₃
        | fallback => rfl
    · have h₄ : ∀ e ∈ naming a.param (live (chosen q a)), isStarred e.1 := by
        have hz := List.eq_nil_of_length_eq_zero (Nat.lt_one_iff.1 (Nat.lt_of_le_of_ne hle h₁))
        simpa [List.filter_eq_nil_iff] using hz
      refine ⟨.trailing, ⟨h₂, h₄⟩, fun c hcase => ?_⟩
      cases c with
      | fed => exact absurd hcase h₁
      | trailing => rfl
      | suppressed => exact absurd hcase.1 h₂
      | fallback => exact absurd (hnil hcase) h₂

theorem named_of_naming {param : String} {cs : List Channel} (h : naming param (live cs) ≠ []) :
    ∃ c ∈ cs, param ∈ c.paramNames := by
  by_contra hn
  push Not at hn
  exact h (naming_eq_nil_iff.2 fun c hm => hn c (live_subset hm))

include hc hd ha in
theorem fallbacks_of_named (h : wire q = .ok w) (hn : ∃ c ∈ chosen q a, a.param ∈ c.paramNames) :
    fallbacks q w a.param = ⟨[], [], []⟩ := by
  obtain ⟨c, hm, hp⟩ := hn
  have hl := filter_left hc hd ha
  rw [if_neg fun hf => hf c hm hp] at hl
  rw [fallbacks_eq h, filter_leftOutputs hc hd ha, hl, ite_self]
  rfl

include hc hd ha in
theorem fallbacks_of_unnamed (h : wire q = .ok w) (hn : ∀ c ∈ chosen q a, a.param ∉ c.paramNames) :
    fallbacks q w a.param = ⟨[fallbackLine a.param], [(a.param, fallbackValue q a.param)],
      if a.role = .input then [] else [fallbackOutput a.param]⟩ := by
  have hl := filter_left hc hd ha
  rw [if_pos hn] at hl
  rw [fallbacks_eq h, filter_leftOutputs hc hd ha, hl]
  split <;> rfl

include hc hd ha hin hout in
theorem filter_passed_of_named (hn : ∃ c ∈ chosen q a, a.param ∈ c.paramNames) :
    (passed q).filter (binds a.param) =
      ((live (chosen q a)).flatMap entriesOf).filter (binds a.param) := by
  obtain ⟨c, hm, hp⟩ := hn
  have hl := filter_left hc hd ha
  rw [if_neg fun hf => hf c hm hp] at hl
  rw [filter_passed hc hd ha hin hout, hl]
  simp

include hc hd ha hin hout in
/-- A named argument that no entry binds gets nothing. -/
theorem gives_nothing (h : wire q = .ok w) (hn : ∃ c ∈ chosen q a, a.param ∈ c.paramNames)
    (hu : (naming a.param (live (chosen q a))).filter (fun e => !isStarred e.1) = []) :
    fallbacks q w a.param = ⟨[], [], []⟩ ∧ wordsFor q.binding w a.param = [] := by
  refine ⟨fallbacks_of_named hc hd ha h hn, ?_⟩
  refine wordsFor_of_unbound hd ha (wire_flags h) (wire_positionals h) ?_
  rw [filter_passed_of_named hc hd ha hin hout hn, ← filter_naming, hu]

theorem entries_sublist_passed (q : WiringRequest) (a : Argument) :
    ((live (chosen q a)).flatMap entriesOf).Sublist (passed q) := by
  rw [passed, chosen]
  split
  · exact List.sublist_append_of_sublist_left (List.sublist_append_left _ _)
  · exact List.sublist_append_of_sublist_right (List.sublist_append_left _ _)

/-- Starred entries that name an argument add their references to the trailing words. -/
theorem sublist_trailing (h : wire q = .ok w)
    (hs : ∀ e ∈ naming a.param (live (chosen q a)), isStarred e.1) :
    ((naming a.param (live (chosen q a))).map Prod.snd).Sublist w.trailing := by
  rw [wire_trailing h]
  refine List.Sublist.map _ ?_
  have hself := List.filter_eq_self.2 hs
  rw [← hself]
  exact (List.filter_sublist.trans (entries_sublist_passed q a)).filter _

include hc hd ha hin hout in
theorem gives_fed (h : wire q = .ok w) (hf : Coverage.fed.Applies q a) :
    Coverage.fed.Gives q w a := by
  obtain ⟨e, he⟩ := List.length_eq_one_iff.1 hf
  rw [filter_naming] at he
  have hm : e ∈ ((live (chosen q a)).flatMap entriesOf).filter (binds a.param) := by simp [he]
  obtain ⟨hm, hb⟩ := List.mem_filter.1 hm
  obtain ⟨c, hc', hm⟩ := List.mem_flatMap.1 hm
  have hs := (eq_of_binds.1 hb)
  have hn : ∃ c ∈ chosen q a, a.param ∈ c.paramNames := by
    refine ⟨c, live_subset hc', ?_⟩
    rw [paramNames_eq]
    exact hs.1 ▸ List.mem_map_of_mem hm
  have hr : ∃ r, c.resolve = .ok r ∧ e ∈ links r := by
    cases hres : c.resolve with
    | error f => simp [entriesOf, hres] at hm
    | ok r => exact ⟨r, rfl, by simpa [entriesOf, hres] using hm⟩
  obtain ⟨r, hres, hl⟩ := hr
  obtain ⟨i, v, hp, hv, hev⟩ := mem_links hl
  have hpa : e.1 = a.param := (withoutStars_of_not_starred hs.2).symm.trans hs.1
  refine ⟨fallbacks_of_named hc hd ha h hn, c, hc', r, hres, i, v, hpa ▸ hp, hv, ?_⟩
  rw [← hev]
  refine wordsFor_of_bound hc hd ha (wire_flags h) (wire_positionals h) ?_
  rw [filter_passed_of_named hc hd ha hin hout hn, he]

include hc hd ha hin hout in
theorem gives_fallback (h : wire q = .ok w) (hf : Coverage.fallback.Applies q a) :
    Coverage.fallback.Gives q w a := by
  refine ⟨fallbacks_of_unnamed hc hd ha h hf, ?_⟩
  have hl := filter_left hc hd ha
  rw [if_pos (show ∀ c ∈ chosen q a, a.param ∉ c.paramNames from hf)] at hl
  have hp := filter_passed hc hd ha hin hout
  rw [hl, filter_binds_of_unnamed fun c hm => hf c (live_subset hm), List.nil_append] at hp
  by_cases hs : isStarred a.param
  · rw [if_pos hs] at hp ⊢
    exact wordsFor_of_unbound hd ha (wire_flags h) (wire_positionals h) hp
  · rw [if_neg hs] at hp ⊢
    exact wordsFor_of_bound hc hd ha (wire_flags h) (wire_positionals h) hp

end

/-- Every argument is in one case, and gets what the case says and nothing else. Trailing words
stand one for one for what is passed on under a starred name. -/
theorem wire_covers_each_argument {q : WiringRequest} {w : Wiring} (hc : q.binding.Coherent)
    (hd : (q.binding.arguments.map Argument.param).Nodup)
    (hin : ∀ c ∈ live (inputChannels q), ∀ f ∈ q.binding.fileArguments, f.param ∉ c.paramNames)
    (hout : ∀ c ∈ live (outputChannels q), ∀ f ∈ q.binding.inputArguments,
      f.param ∉ c.paramNames)
    (h : wire q = .ok w) :
    w.trailing = ((passed q).filter fun e => isStarred e.1).map Prod.snd ∧
      ∀ a ∈ q.binding.arguments, (∃! c : Coverage, c.Applies q a) ∧
        ∀ c : Coverage, c.Applies q a → c.Gives q w a := by
  refine ⟨wire_trailing h, fun a ha => ⟨existsUnique_applies h, fun c hcase => ?_⟩⟩
  cases c with
  | fed => exact gives_fed hc hd ha hin hout h hcase
  | trailing =>
    refine ⟨gives_nothing hc hd ha hin hout h (named_of_naming hcase.1) ?_,
      sublist_trailing h hcase.2⟩
    exact List.filter_eq_nil_iff.2 fun e he => by simp [hcase.2 e he]
  | suppressed =>
    refine gives_nothing hc hd ha hin hout h hcase.2 ?_
    rw [hcase.1, List.filter_nil]
  | fallback => exact gives_fallback hc hd ha hin hout h hcase

def positionalParam (name : String) : Param := ⟨name, .positional, none, none⟩

/-- A process whose arguments come by their values in all four ways. -/
def mixedRequest : WiringRequest where
  process := "count"
  binding := Binding.ofSignature
    ⟨"process", ["table", "extra", "doc"].map positionalParam, none, none, "", "", 0⟩
    Overrides.standard
  channels := [
    ⟨.one "bundle", some "tuple", some (.list ["val(t)", "more", "hole"]),
      some (.list ["table", "*extra", "None"]), none, none, false⟩,
    ⟨.one "docs", none, some (.one "d"), some (.one "doc"), none, none, false⟩,
    ⟨.list ["plots", "copies"], some "file", some (.one "'p.png'"), none, none, none, false⟩]
  inchannels := ["bundle", "docs"]
  outchannels := ["plots"]
  params := []
  capture := none

theorem wire_covers_mixedRequest :
    mixedRequest.binding.Coherent ∧
      (mixedRequest.binding.arguments.map Argument.param).Nodup ∧
      (∀ c ∈ live (inputChannels mixedRequest), ∀ f ∈ mixedRequest.binding.fileArguments,
        f.param ∉ c.paramNames) ∧
      (∀ c ∈ live (outputChannels mixedRequest), ∀ f ∈ mixedRequest.binding.inputArguments,
        f.param ∉ c.paramNames) ∧
      ∃ w, wire mixedRequest = .ok w ∧
        w.trailing = ((passed mixedRequest).filter fun e => isStarred e.1).map Prod.snd ∧
        ∀ a ∈ mixedRequest.binding.arguments, (∃! c : Coverage, c.Applies mixedRequest a) ∧
          ∀ c : Coverage, c.Applies mixedRequest a → c.Gives mixedRequest w a := by
  have hc : mixedRequest.binding.Coherent := Binding.ofSignature_coherent _ _
  have hd : (mixedRequest.binding.arguments.map Argument.param).Nodup := by decide
  have hin : ∀ c ∈ live (inputChannels mixedRequest), ∀ f ∈ mixedRequest.binding.fileArguments,
      f.param ∉ c.paramNames := by decide
  have hout : ∀ c ∈ live (outputChannels mixedRequest),
      ∀ f ∈ mixedRequest.binding.inputArguments, f.param ∉ c.paramNames := by decide
  exact ⟨hc, hd, hin, hout, _, rfl, wire_covers_each_argument hc hd hin hout rfl⟩

end Pipewright.Wiring
