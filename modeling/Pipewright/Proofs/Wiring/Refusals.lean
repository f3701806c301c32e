import Mathlib.Data.List.Duplicate
import Pipewright.Proofs.Wiring.Words

/-! Which channels a process refuses: those that do not line up, and those that bind a name again.
The fault is the first one in the order in which channels are wired. -/
namespace Pipewright.Wiring

/-- The names without a star that a channel binds, by position. -/
def plainNames (c : Channel) : List String :=
  match c.resolve with
  | .ok r => (r.params.filterMap id).filter fun p => !isStarred p
  | .error _ => []

/-- The channels of a process in the order in which they are wired. -/
def wired (q : WiringRequest) : List Channel :=
  live (inputChannels q) ++ live (outputChannels q)

/-- What is wrong with a channel after others that bind the names in `taken`. -/
inductive Refused (process : String) (taken : List String) (c : Channel) : Fault → Prop where
  | uneven {text : String} (h : c.resolve = .error (.invalidChannel c.name.display text)) :
    Refused process taken c (.invalidChannel c.name.display text)
  | again {before after : List String} {name : String}
    (h : plainNames c = before ++ name :: after) (hn : (taken ++ before).Nodup)
    (hm : name ∈ taken ++ before) :
    Refused process taken c (.duplicateBinding process c.name.display name)

/-- The fault of the first channel with one: all before it line up and bind different names. -/
def FirstRefused (process : String) (cs : List Channel) (fault : Fault) : Prop :=
  ∃ before c after, cs = before ++ c :: after ∧ (∀ d ∈ before, ∃ r, d.resolve = .ok r) ∧
    (before.flatMap plainNames).Nodup ∧ Refused process (before.flatMap plainNames) c fault

/-- Binds a name that is free. -/
def claim (process : String) (channel : Names) (taken : List String) (name : String) :
    Except Fault (List String) :=
  if taken.contains name then .error (.duplicateBinding process channel.display name)
  else .ok (taken ++ [name])

/-- Binds the names of a channel. -/
def claimAll (process : String) (taken : List String) (c : Channel) :
    Except Fault (List String) := do
  let _ ← c.resolve
  (plainNames c).foldlM (claim process c.name) taken

/-! What a wiring binds -/

theorem plainNames_of_resolve {c : Channel} {r : ResolvedChannel} (h : c.resolve = .ok r) :
    plainNames c = boundNames (links r) := by
  have hl : (links r).map Prod.fst = r.params.filterMap id := map_fst_links (Channel.length_params_le h)
  simp only [plainNames, h, ← hl, boundNames, List.filter_map]
  rfl

theorem bound_emit (b : Binding) (w : Wiring) (param reference : String) :
    (emit b w param reference).bound = w.bound := by
  rw [emit_eq_add]
  exact List.append_nil _

theorem bound_emitBound (q : WiringRequest) (channel : Names) (w : Wiring) (e : String × String) :
    (emitBound q channel w e.1 e.2).map Wiring.bound =
      if !isStarred e.1 then claim q.process channel w.bound e.1 else .ok w.bound := by
  rw [emitBound, claim]
  cases isStarred e.1 with
  | true => exact congrArg Except.ok (bound_emit _ _ _ _)
  | false =>
    simp only [Bool.false_eq_true, if_false, Bool.not_false, if_true]
    split
    · rfl
    · exact congrArg Except.ok (bound_emit _ _ _ _)

theorem bound_feed (q : WiringRequest) (channel : Names) (w : Wiring) (r : ResolvedChannel) :
    (feed q channel w r).map Wiring.bound =
      (boundNames (links r)).foldlM (claim q.process channel) w.bound := by
  rw [boundNames, List.foldlM_map, List.foldlM_filter]
  exact map_foldlM (bound_emitBound q channel) (links r) w

/-- A channel binds its names, whatever line it adds. -/
theorem bound_line {finish : ResolvedChannel → Wiring → Wiring}
    (hf : ∀ r w, (finish r w).bound = w.bound) (q : WiringRequest) (w : Wiring) (c : Channel) :
    (do
      let r ← c.resolve
      let w ← feed q c.name w r
      return finish r w : Except Fault Wiring).map Wiring.bound =
      claimAll q.process w.bound c := by
  rw [claimAll]
  cases h : c.resolve with
  | error fault => rfl
  | ok r =>
    have hfeed := bound_feed q c.name w r
    rw [plainNames_of_resolve h]
    refine Eq.trans ?_ hfeed
    change (feed q c.name w r >>= _).map _ = _
    cases feed q c.name w r with
    | error fault => rfl
    | ok w' => exact congrArg Except.ok (hf r w')

theorem bound_wireInput (q : WiringRequest) (w : Wiring) (c : Channel) :
    (wireInput q w c).map Wiring.bound = claimAll q.process w.bound c := by
  refine bound_line ?_ q w c
  exact fun _ _ => rfl

theorem bound_wireOutput (q : WiringRequest) (w : Wiring) (c : Channel) :
    (wireOutput q w c).map Wiring.bound = claimAll q.process w.bound c := by
  refine bound_line ?_ q w c
  exact fun _ _ => rfl

/-- Whether a process is wired, and which names it binds, shows in the names alone. -/
theorem bound_wire (q : WiringRequest) :
    (wire q).map Wiring.bound = (wired q).foldlM (claimAll q.process) [] := by
  have hins := map_foldlM (bound_wireInput q) (live (inputChannels q)) empty
  have houts := map_foldlM (bound_wireOutput q) (live (outputChannels q))
  rw [wired, List.foldlM_append, ← show empty.bound = [] from rfl, ← hins]
  change (((live (inputChannels q)).foldlM (wireInput q) empty) >>= _).map _ = _
  cases (live (inputChannels q)).foldlM (wireInput q) empty with
  | error fault => rfl
  | ok w =>
    have hown := bound_foldl_fallBack q (leftInputs q) w
    refine Eq.trans ?_ ((houts ((leftInputs q).foldl (fallBack q) w)).trans (by rw [hown]; rfl))
    change ((live (outputChannels q)).foldlM (wireOutput q)
      ((leftInputs q).foldl (fallBack q) w) >>= _).map _ = _
    cases (live (outputChannels q)).foldlM (wireOutput q)
        ((leftInputs q).foldl (fallBack q) w) with
    | error fault => rfl
    | ok w' => exact congrArg Except.ok (bound_foldl_fallBackOutput q (leftOutputs q) w')

/-! Names that are free, and names that are not -/

section
variable {process : String} {channel : Names} {taken t names : List String} {c : Channel}
  {cs : List Channel} {fault : Fault}

theorem foldlM_claim_ok_iff (h : taken.Nodup) :
    names.foldlM (claim process channel) taken = .ok t ↔
      (taken ++ names).Nodup ∧ t = taken ++ names := by
  induction names generalizing taken with
  | nil =>
    rw [List.append_nil]
    exact ⟨fun he => ⟨h, (Except.ok.inj he).symm⟩, fun he => congrArg Except.ok he.2.symm⟩
  | cons name names ih =>
    have hmove : taken ++ name :: names = (taken ++ [name]) ++ names := by simp
    by_cases hm : name ∈ taken
    · have hstep : claim process channel taken name =
          .error (.duplicateBinding process channel.display name) := by
        rw [claim, if_pos (List.contains_iff_mem.2 hm)]
      rw [List.foldlM_cons, hstep]
      refine ⟨nofun, fun he => ?_⟩
      exact absurd rfl ((List.nodup_append.1 he.1).2.2 name hm name List.mem_cons_self)
    · have hstep : claim process channel taken name = .ok (taken ++ [name]) := by
        rw [claim, if_neg fun he => hm (List.contains_iff_mem.1 he)]
      have hnext : (taken ++ [name]).Nodup := by
        rw [List.nodup_append_comm]
        exact List.nodup_cons.2 ⟨hm, h⟩
      rw [foldlM_cons_of_ok hstep, ih hnext, hmove]

theorem claimAll_ok_iff (h : taken.Nodup) :
    claimAll process taken c = .ok t ↔ (∃ r, c.resolve = .ok r) ∧
      (taken ++ plainNames c).Nodup ∧ t = taken ++ plainNames c := by
  rw [claimAll]
  cases hr : c.resolve with
  | error fault => exact ⟨nofun, fun he => nomatch he.1⟩
  | ok r => exact (foldlM_claim_ok_iff h).trans (by simp)

/-- A channel that does not line up is refused by name. -/
theorem resolve_error (h : c.resolve = .error fault) :
    ∃ text, fault = .invalidChannel c.name.display text := by
  rw [Channel.resolve] at h
  cases hs : c.sides with
  | error e =>
    rw [hs] at h
    cases h
    rw [Channel.sides] at hs
    split at hs
    · split at hs
      · cases hs
        exact ⟨_, rfl⟩
      · cases hs
    · cases hs
  | ok sides =>
    rw [hs] at h
    change (if _ then _ else _) = _ at h
    split at h
    · cases h
      exact ⟨_, rfl⟩
    · split at h
      · cases h
        exact ⟨_, rfl⟩
      · cases h

theorem claimAll_error_iff (h : taken.Nodup) :
    claimAll process taken c = .error fault ↔ Refused process taken c fault := by
  rw [claimAll]
  cases hr : c.resolve with
  | error e =>
    have hnames : plainNames c = [] := by rw [plainNames, hr]
    constructor
    · intro he
      cases he
      obtain ⟨text, rfl⟩ := resolve_error hr
      exact .uneven hr
    · rintro (⟨he⟩ | ⟨hsplit, -, -⟩)
      · cases hr.symm.trans he
        rfl
      · simp [hnames] at hsplit
  | ok r =>
    constructor
    · intro he
      obtain ⟨before, name, after, u, hsplit, hrun, hname⟩ := foldlM_error_iff.1 he
      obtain ⟨hn, rfl⟩ := (foldlM_claim_ok_iff h).1 hrun
      rw [claim] at hname
      split at hname
      · rename_i hm
        cases hname
        exact .again hsplit hn (List.contains_iff_mem.1 hm)
      · cases hname
    · rintro (⟨he⟩ | ⟨hsplit, hn, hm⟩)
      · rw [hr] at he
        cases he
      · refine foldlM_error_iff.2 ⟨_, _, _, _, hsplit, (foldlM_claim_ok_iff h).2 ⟨hn, rfl⟩, ?_⟩
        rw [claim, if_pos (List.contains_iff_mem.2 hm)]

theorem foldlM_claimAll_ok_iff (h : taken.Nodup) :
    cs.foldlM (claimAll process) taken = .ok t ↔ (∀ c ∈ cs, ∃ r, c.resolve = .ok r) ∧
      (taken ++ cs.flatMap plainNames).Nodup ∧ t = taken ++ cs.flatMap plainNames := by
  induction cs generalizing taken with
  | nil =>
    rw [List.flatMap_nil, List.append_nil]
    exact ⟨fun he => ⟨nofun, h, (Except.ok.inj he).symm⟩, fun he => congrArg Except.ok he.2.2.symm⟩
  | cons c cs ih =>
    have hmove : taken ++ (c :: cs).flatMap plainNames =
        (taken ++ plainNames c) ++ cs.flatMap plainNames := by
      rw [List.flatMap_cons, List.append_assoc]
    rw [hmove, List.forall_mem_cons]
    constructor
    · intro he
      rw [List.foldlM_cons] at he
      obtain ⟨u, hc, hcs⟩ := bind_ok he
      obtain ⟨hr, hn, rfl⟩ := (claimAll_ok_iff h).1 hc
      obtain ⟨hrs, hns, rfl⟩ := (ih hn).1 hcs
      exact ⟨⟨hr, hrs⟩, hns, rfl⟩
    · rintro ⟨⟨hr, hrs⟩, hns, rfl⟩
      have hn : (taken ++ plainNames c).Nodup := (List.nodup_append.1 hns).1
      rw [foldlM_cons_of_ok ((claimAll_ok_iff h).2 ⟨hr, hn, rfl⟩)]
      exact (ih hn).2 ⟨hrs, hns, rfl⟩

end

section
variable {q : WiringRequest} {c : Channel} {fault : Fault}

/-- A process is wired just if its channels line up and bind different names. -/
theorem wire_succeeds_iff : (∃ w, wire q = .ok w) ↔
    (∀ c ∈ wired q, ∃ r, c.resolve = .ok r) ∧ ((wired q).flatMap plainNames).Nodup := by
  have hbound := bound_wire q
  have hok {t : List String} : (wired q).foldlM (claimAll q.process) [] = .ok t ↔
      (∀ c ∈ wired q, ∃ r, c.resolve = .ok r) ∧ ([] ++ (wired q).flatMap plainNames).Nodup ∧
        t = [] ++ (wired q).flatMap plainNames := foldlM_claimAll_ok_iff List.nodup_nil
  rw [List.nil_append] at hok
  constructor
  · rintro ⟨w, hw⟩
    rw [hw] at hbound
    obtain ⟨hr, hn, -⟩ := hok.1 hbound.symm
    exact ⟨hr, hn⟩
  · rintro ⟨hr, hn⟩
    rw [hok.2 ⟨hr, hn, rfl⟩] at hbound
    cases hw : wire q with
    | error e => rw [hw] at hbound; cases hbound
    | ok w => exact ⟨w, rfl⟩

theorem wire_error_iff : wire q = .error fault ↔ FirstRefused q.process (wired q) fault := by
  rw [← map_error_iff (f := Wiring.bound), bound_wire, foldlM_error_iff, FirstRefused]
  constructor
  · rintro ⟨before, c, after, t, hsplit, hrun, hc⟩
    obtain ⟨hr, hn, rfl⟩ := (foldlM_claimAll_ok_iff List.nodup_nil).1 hrun
    exact ⟨before, c, after, hsplit, hr, hn, (claimAll_error_iff hn).1 hc⟩
  · rintro ⟨before, c, after, hsplit, hr, hn, hc⟩
    exact ⟨before, c, after, before.flatMap plainNames, hsplit,
      (foldlM_claimAll_ok_iff List.nodup_nil).2 ⟨hr, hn, rfl⟩, (claimAll_error_iff hn).2 hc⟩

theorem mem_wired : c ∈ wired q ↔ c ∈ q.channels ∧ c.isSkipped = false ∧
    ((∃ name, c.name = .one name ∧ name ∈ q.inchannels) ∨
      ∃ name ∈ c.name.toList, name ∈ q.outchannels) := by
  have hin : isInput q c = true ↔ ∃ name, c.name = .one name ∧ name ∈ q.inchannels := by
    rw [isInput]
    cases c.name <;> simp [Names.single?]
  have hout : isOutput q c = true ↔ ∃ name ∈ c.name.toList, name ∈ q.outchannels := by
    simp [isOutput]
  rw [wired, List.mem_append, mem_live, mem_live, inputChannels, outputChannels, List.mem_filter,
    List.mem_filter, hin, hout]
  grind

theorem mem_plainNames {name : String} : name ∈ plainNames c ↔
    ∃ r, c.resolve = .ok r ∧ some name ∈ r.params ∧ isStarred name = false := by
  cases h : c.resolve <;> simp [plainNames, h]

/-- Names that take a place only bind nothing. -/
theorem not_mem_plainNames {name : String} (h : name = "" ∨ name = "None") :
    name ∉ plainNames c := by
  intro hm
  obtain ⟨r, hr, hp, -⟩ := mem_plainNames.1 hm
  obtain ⟨⟨left, right⟩, -, hr⟩ := bind_ok hr
  dsimp only at hr
  split at hr
  · cases hr
  · split at hr
    · cases hr
    · cases hr
      obtain ⟨entry, -, he⟩ := List.mem_map.1 hp
      rw [Channel.paramEntry] at he
      split at he
      · cases he
      · rename_i hne
        cases he
        rcases h with rfl | rfl <;> simp at hne

end

/-- A process is refused just if one of its channels does not line up or a name without a star is
bound twice. What is told is the first fault in the order of wiring: inputs of a single name, then
outputs, as they are declared. No other channel counts, and no name that takes a place only. -/
theorem wire_refuses_iff (q : WiringRequest) :
    ((∃ fault, wire q = .error fault) ↔
      (∃ c ∈ wired q, ∃ text, c.resolve = .error (.invalidChannel c.name.display text)) ∨
        ∃ name, List.Duplicate name ((wired q).flatMap plainNames)) ∧
    (∀ fault, wire q = .error fault ↔ FirstRefused q.process (wired q) fault) ∧
    (∀ c, c ∈ wired q ↔ c ∈ q.channels ∧ c.isSkipped = false ∧
      ((∃ name, c.name = .one name ∧ name ∈ q.inchannels) ∨
        ∃ name ∈ c.name.toList, name ∈ q.outchannels)) ∧
    (∀ c name, name ∈ plainNames c ↔
      ∃ r, c.resolve = .ok r ∧ some name ∈ r.params ∧ isStarred name = false) ∧
    ∀ c, "" ∉ plainNames c ∧ "None" ∉ plainNames c := by
  refine ⟨?_, fun _ => wire_error_iff, fun _ => mem_wired, fun _ _ => mem_plainNames,
    fun _ => ⟨not_mem_plainNames (.inl rfl), not_mem_plainNames (.inr rfl)⟩⟩
  have hfails : (∃ fault, wire q = .error fault) ↔ ¬∃ w, wire q = .ok w := by
    cases wire q <;> simp
  have huneven : (¬∀ c ∈ wired q, ∃ r, c.resolve = .ok r) ↔
      ∃ c ∈ wired q, ∃ text, c.resolve = .error (.invalidChannel c.name.display text) := by
    push Not
    refine exists_congr fun c => and_congr_right fun _ => ⟨fun h => ?_, ?_⟩
    · cases hr : c.resolve with
      | ok r => exact absurd hr (h r)
      | error fault =>
        obtain ⟨text, rfl⟩ := resolve_error hr
        exact ⟨text, rfl⟩
    · rintro ⟨text, hr⟩ r hok
      rw [hr] at hok
      cases hok
  rw [hfails, wire_succeeds_iff, not_and_or, huneven, List.exists_duplicate_iff_not_nodup]

end Pipewright.Wiring
