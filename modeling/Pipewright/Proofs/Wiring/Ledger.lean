import Mathlib.Data.List.Basic
import Pipewright.Channel.Wiring
import Pipewright.Proofs.Entries
import Pipewright.Proofs.Success

/-! The wiring of a process as a ledger: what each channel, and each parameter without one, adds
to it. A wiring that succeeds is the sum of these shares, in the order of the channels. -/
namespace Pipewright.Wiring

/-- The entries of a channel with the references to their variables; none if its sides do not
line up. -/
def entriesOf (c : Channel) : List (String × String) :=
  match c.resolve with
  | .ok r => links r
  | .error _ => []

def declarationOf (c : Channel) : String :=
  match c.resolve with
  | .ok r => r.declaration
  | .error _ => ""

def live (cs : List Channel) : List Channel := cs.filter fun c => !c.isSkipped

def inputChannels (q : WiringRequest) : List Channel := q.channels.filter (isInput q)
def outputChannels (q : WiringRequest) : List Channel := q.channels.filter (isOutput q)

/-- The inputs that no input channel names. -/
def leftInputs (q : WiringRequest) : List String :=
  unclaimed (inputChannels q) (q.binding.flagTable.inputs.map Prod.fst)

/-- The file arguments that no output channel names. -/
def leftOutputs (q : WiringRequest) : List String :=
  unclaimed (outputChannels q) (q.binding.flagTable.outputs.map Prod.fst)

/-- What one channel or one parameter adds to a wiring. -/
structure Share where
  inputs : List InputLine
  outputs : List OutputLine
  /-- What is passed on: an entry of a channel or a parameter, and a reference. -/
  passed : List (String × String)
  params : List (String × Literal)
  bound : List String

def boundNames (es : List (String × String)) : List String :=
  (es.filter fun e => !isStarred e.1).map Prod.fst

def flagWords (b : Binding) (e : String × String) : List FlagWord := (emit b empty e.1 e.2).flags

/-- Notes the word of a positional argument. -/
def place (b : Binding) (ps : List (String × String)) (e : String × String) :
    List (String × String) :=
  if !isStarred e.1 && b.flagTable.get? e.1 = some "" then Entries.put e.1 e.2 ps else ps

def add (b : Binding) (w : Wiring) (s : Share) : Wiring where
  inputs := w.inputs ++ s.inputs
  outputs := w.outputs ++ s.outputs
  flags := w.flags ++ s.passed.flatMap (flagWords b)
  positionals := s.passed.foldl (place b) w.positionals
  trailing := w.trailing ++ (s.passed.filter fun e => isStarred e.1).map Prod.snd
  pipelineParams := w.pipelineParams ++ s.params
  bound := w.bound ++ s.bound

def passShare (es : List (String × String)) : Share := ⟨[], [], es, [], boundNames es⟩

def lineOf (c : Channel) : InputLine :=
  ⟨c.kind.getD "", declarationOf c, c.fromParams, c.name.single?.getD "", c.transform.getD ""⟩

def routeOf (c : Channel) : OutputLine :=
  ⟨c.kind.getD "", declarationOf c, c.name, c.transform.getD ""⟩

/-- The pipeline parameter that an input channel reads. -/
def paramsOf (q : WiringRequest) (c : Channel) : List (String × Literal) :=
  if c.fromParams then
    [((lineOf c).source, (Entries.get? (lineOf c).source q.params).getD .none)]
  else []

def inputShare (q : WiringRequest) (c : Channel) : Share where
  inputs := [lineOf c]
  outputs := []
  passed := entriesOf c
  params := paramsOf q c
  bound := boundNames (entriesOf c)

def outputShare (c : Channel) : Share where
  inputs := []
  outputs := [routeOf c]
  passed := entriesOf c
  params := []
  bound := boundNames (entriesOf c)

/-- A parameter with the reference to the variable of its name. -/
def ownEntry (param : String) : String × String := (param, "$" ++ param)

def fallbackShare (q : WiringRequest) (param : String) : Share where
  inputs := [fallbackLine param]
  outputs := []
  passed := [ownEntry param]
  params := [(param, fallbackValue q param)]
  bound := []

def fallbackOutput (param : String) : OutputLine := ⟨"val", param, .one param, ""⟩

def fallbackOutputShare (q : WiringRequest) (param : String) : Share :=
  { fallbackShare q param with outputs := [fallbackOutput param] }

def shares (q : WiringRequest) : List Share :=
  (live (inputChannels q)).map (inputShare q) ++ (leftInputs q).map (fallbackShare q) ++
    ((live (outputChannels q)).map outputShare ++
      (leftOutputs q).map (fallbackOutputShare q))

def total (ss : List Share) : Share where
  inputs := ss.flatMap Share.inputs
  outputs := ss.flatMap Share.outputs
  passed := ss.flatMap Share.passed
  params := ss.flatMap Share.params
  bound := ss.flatMap Share.bound

/-- All that a wiring passes on, in order. -/
def passed (q : WiringRequest) : List (String × String) :=
  (live (inputChannels q)).flatMap entriesOf ++ (leftInputs q).map ownEntry ++
    ((live (outputChannels q)).flatMap entriesOf ++ (leftOutputs q).map ownEntry)

/-! One reference, one channel, one parameter -/

theorem emit_eq_add (b : Binding) (w : Wiring) (param reference : String) :
    emit b w param reference = add b w ⟨[], [], [(param, reference)], [], []⟩ := by
  by_cases hs : isStarred param
  · simp [emit, add, flagWords, place, empty, hs]
  · cases hg : b.flagTable.get? param with
    | none => simp [emit, add, flagWords, place, empty, hs, hg]
    | some flag =>
      by_cases hf : flag = ""
      · subst hf
        simp [emit, add, flagWords, place, empty, hs, hg]
      · simp [emit, add, flagWords, place, empty, hs, hg, hf]

theorem add_add (b : Binding) (w : Wiring) (s t : Share) :
    add b (add b w s) t = add b w ⟨s.inputs ++ t.inputs, s.outputs ++ t.outputs,
      s.passed ++ t.passed, s.params ++ t.params, s.bound ++ t.bound⟩ := by
  simp [add, List.foldl_append]

theorem emitBound_ok {q : WiringRequest} {channel : Names} {w w' : Wiring}
    {e : String × String} (h : emitBound q channel w e.1 e.2 = .ok w') :
    w' = add q.binding w (passShare [e]) ∧ (w.bound.Nodup → w'.bound.Nodup) := by
  by_cases hs : isStarred e.1
  · simp only [emitBound, hs, if_true, Except.ok.injEq, emit_eq_add] at h
    subst h
    simp [passShare, boundNames, hs, add]
  · by_cases hb : e.1 ∈ w.bound
    · simp [emitBound, hs, hb] at h
    · simp only [emitBound, hs, hb, List.contains_eq_mem, decide_false, if_false,
        Bool.false_eq_true, Except.ok.injEq, emit_eq_add] at h
      subst h
      refine ⟨by simp [passShare, boundNames, hs, add], fun hn => ?_⟩
      simpa [add, List.nodup_append, hn] using fun a ha (he : a = e.1) => hb (he ▸ ha)

theorem foldlM_emitBound_ok {q : WiringRequest} {channel : Names}
    {es : List (String × String)} {w w' : Wiring}
    (h : es.foldlM (fun w e => emitBound q channel w e.1 e.2) w = .ok w') :
    w' = add q.binding w (passShare es) ∧ (w.bound.Nodup → w'.bound.Nodup) := by
  induction es generalizing w with
  | nil =>
    cases h
    simp [add, passShare, boundNames]
  | cons e es ih =>
    rw [List.foldlM_cons] at h
    obtain ⟨w₁, h₁, h⟩ := bind_ok h
    obtain ⟨rfl, hn₁⟩ := emitBound_ok h₁
    obtain ⟨rfl, hn⟩ := ih h
    refine ⟨?_, fun hw => hn (hn₁ hw)⟩
    rw [add_add]
    by_cases hs : isStarred e.1 <;> simp [passShare, boundNames, hs]

theorem feed_ok {q : WiringRequest} {channel : Names} {w w' : Wiring} {r : ResolvedChannel}
    (h : feed q channel w r = .ok w') :
    w' = add q.binding w (passShare (links r)) ∧ (w.bound.Nodup → w'.bound.Nodup) :=
  foldlM_emitBound_ok h

theorem wireInput_ok {q : WiringRequest} {w w' : Wiring} {c : Channel}
    (h : wireInput q w c = .ok w') :
    (∃ r, c.resolve = .ok r) ∧ w' = add q.binding w (inputShare q c) ∧
      (w.bound.Nodup → w'.bound.Nodup) := by
  obtain ⟨r, hr, h⟩ := bind_ok h
  obtain ⟨w₁, hf, h⟩ := bind_ok h
  obtain ⟨rfl, hn⟩ := feed_ok hf
  cases h
  refine ⟨⟨r, hr⟩, ?_, hn⟩
  simp [add, passShare, inputShare, lineOf, paramsOf, inputLine, entriesOf, declarationOf, hr]

theorem wireOutput_ok {q : WiringRequest} {w w' : Wiring} {c : Channel}
    (h : wireOutput q w c = .ok w') :
    (∃ r, c.resolve = .ok r) ∧ w' = add q.binding w (outputShare c) ∧
      (w.bound.Nodup → w'.bound.Nodup) := by
  obtain ⟨r, hr, h⟩ := bind_ok h
  obtain ⟨w₁, hf, h⟩ := bind_ok h
  obtain ⟨rfl, hn⟩ := feed_ok hf
  cases h
  refine ⟨⟨r, hr⟩, ?_, hn⟩
  simp [add, passShare, outputShare, routeOf, outputLine, entriesOf, declarationOf, hr]

theorem fallBack_eq_add (q : WiringRequest) (w : Wiring) (param : String) :
    fallBack q w param = add q.binding w (fallbackShare q param) := by
  simp [fallBack, emit_eq_add, add, fallbackShare, ownEntry]

theorem fallBackOutput_eq_add (q : WiringRequest) (w : Wiring) (param : String) :
    fallBackOutput q w param = add q.binding w (fallbackOutputShare q param) := by
  simp [fallBackOutput, fallBack_eq_add, add, fallbackOutputShare, fallbackShare, fallbackOutput]

/-! All of them -/

/-- Channels that are wired one after the other add their shares, and bind nothing twice. -/
theorem foldlM_ok {q : WiringRequest} {f : Wiring → Channel → Except Fault Wiring}
    {share : Channel → Share}
    (hf : ∀ {w c w'}, f w c = .ok w' → (∃ r, c.resolve = .ok r) ∧
      w' = add q.binding w (share c) ∧ (w.bound.Nodup → w'.bound.Nodup))
    {cs : List Channel} {w w' : Wiring} (h : cs.foldlM f w = .ok w') :
    (∀ c ∈ cs, ∃ r, c.resolve = .ok r) ∧ w' = (cs.map share).foldl (add q.binding) w ∧
      (w.bound.Nodup → w'.bound.Nodup) := by
  induction cs generalizing w with
  | nil =>
    cases h
    simp
  | cons c cs ih =>
    rw [List.foldlM_cons] at h
    obtain ⟨w₁, h₁, h⟩ := bind_ok h
    obtain ⟨hr, rfl, hn₁⟩ := hf h₁
    obtain ⟨hrs, rfl, hn⟩ := ih h
    exact ⟨List.forall_mem_cons.2 ⟨hr, hrs⟩, rfl, fun hw => hn (hn₁ hw)⟩

theorem foldl_fallBack (q : WiringRequest) (ps : List String) (w : Wiring) :
    ps.foldl (fallBack q) w = (ps.map (fallbackShare q)).foldl (add q.binding) w := by
  induction ps generalizing w with
  | nil => rfl
  | cons p ps ih => rw [List.foldl_cons, ih, fallBack_eq_add, List.map_cons, List.foldl_cons]

theorem foldl_fallBackOutput (q : WiringRequest) (ps : List String) (w : Wiring) :
    ps.foldl (fallBackOutput q) w =
      (ps.map (fallbackOutputShare q)).foldl (add q.binding) w := by
  induction ps generalizing w with
  | nil => rfl
  | cons p ps ih =>
    rw [List.foldl_cons, ih, fallBackOutput_eq_add, List.map_cons, List.foldl_cons]

theorem bound_foldl_fallBack (q : WiringRequest) (ps : List String) (w : Wiring) :
    (ps.foldl (fallBack q) w).bound = w.bound := by
  induction ps generalizing w with
  | nil => rfl
  | cons p ps ih => simp [ih, fallBack_eq_add, add, fallbackShare]

theorem bound_foldl_fallBackOutput (q : WiringRequest) (ps : List String) (w : Wiring) :
    (ps.foldl (fallBackOutput q) w).bound = w.bound := by
  induction ps generalizing w with
  | nil => rfl
  | cons p ps ih => simp [ih, fallBackOutput_eq_add, add, fallbackOutputShare, fallbackShare]

theorem flatMap_none {α β : Type*} (as : List α) : as.flatMap (fun _ => ([] : List β)) = [] :=
  List.flatMap_eq_nil_iff.2 fun _ _ => rfl

theorem foldl_add (b : Binding) (ss : List Share) (w : Wiring) :
    ss.foldl (add b) w = add b w (total ss) := by
  induction ss generalizing w with
  | nil => simp [add, total]
  | cons s ss ih => rw [List.foldl_cons, ih, add_add]; rfl

/-- A wiring that succeeds is the sum of its shares; its channels line up and bind no parameter
twice. -/
theorem wire_ok {q : WiringRequest} {w : Wiring} (h : wire q = .ok w) :
    w = add q.binding empty (total (shares q)) ∧
      (∀ c ∈ live (inputChannels q) ++ live (outputChannels q), ∃ r, c.resolve = .ok r) ∧
      w.bound.Nodup := by
  obtain ⟨w₁, h₁, h⟩ := bind_ok h
  obtain ⟨w₂, h₂, h⟩ := bind_ok h
  obtain ⟨hr₁, hw₁, hn₁⟩ := foldlM_ok wireInput_ok h₁
  obtain ⟨hr₂, hw₂, hn₂⟩ := foldlM_ok wireOutput_ok h₂
  cases h
  refine ⟨?_, ?_, ?_⟩
  · rw [foldl_fallBackOutput, hw₂, foldl_fallBack, hw₁, ← foldl_add]
    simp [shares, inputChannels, outputChannels, live, leftInputs, leftOutputs]
  · intro c hc
    exact (List.mem_append.1 hc).elim (hr₁ c) (hr₂ c)
  · rw [bound_foldl_fallBackOutput]
    refine hn₂ ?_
    rw [bound_foldl_fallBack]
    exact hn₁ (by simp [empty])

section
variable {q : WiringRequest} {w : Wiring}

theorem wire_inputs (h : wire q = .ok w) :
    w.inputs = (live (inputChannels q)).map lineOf ++
      ((leftInputs q).map fallbackLine ++ (leftOutputs q).map fallbackLine) := by
  rw [(wire_ok h).1]
  simp [add, empty, total, shares, inputShare, outputShare, fallbackShare, fallbackOutputShare,
    List.flatMap_map, ← List.map_eq_flatMap, flatMap_none]

theorem wire_outputs (h : wire q = .ok w) :
    w.outputs = (live (outputChannels q)).map routeOf ++ (leftOutputs q).map fallbackOutput := by
  rw [(wire_ok h).1]
  simp [add, empty, total, shares, inputShare, outputShare, fallbackShare, fallbackOutputShare,
    List.flatMap_map, ← List.map_eq_flatMap, flatMap_none]

theorem wire_params (h : wire q = .ok w) :
    w.pipelineParams = (live (inputChannels q)).flatMap (paramsOf q) ++
      ((leftInputs q).map (fun p => (p, fallbackValue q p)) ++
        (leftOutputs q).map fun p => (p, fallbackValue q p)) := by
  rw [(wire_ok h).1]
  simp [add, empty, total, shares, inputShare, outputShare, fallbackShare, fallbackOutputShare,
    List.flatMap_map, ← List.map_eq_flatMap, flatMap_none]

theorem passed_total_shares (q : WiringRequest) : (total (shares q)).passed = passed q := by
  simp [total, shares, passed, inputShare, outputShare, fallbackShare, fallbackOutputShare,
    List.flatMap_map, ← List.map_eq_flatMap, flatMap_none]

theorem wire_flags (h : wire q = .ok w) :
    w.flags = (passed q).flatMap (flagWords q.binding) := by
  rw [(wire_ok h).1]
  simp [add, empty, passed_total_shares]

theorem wire_positionals (h : wire q = .ok w) :
    w.positionals = (passed q).foldl (place q.binding) [] := by
  rw [(wire_ok h).1]
  simp [add, empty, passed_total_shares]

theorem wire_trailing (h : wire q = .ok w) :
    w.trailing = ((passed q).filter fun e => isStarred e.1).map Prod.snd := by
  rw [(wire_ok h).1]
  simp [add, empty, passed_total_shares]

theorem wire_bound (h : wire q = .ok w) :
    w.bound = boundNames ((live (inputChannels q)).flatMap entriesOf) ++
      boundNames ((live (outputChannels q)).flatMap entriesOf) := by
  rw [(wire_ok h).1]
  simp [add, empty, total, shares, inputShare, outputShare, fallbackShare, fallbackOutputShare,
    boundNames, List.flatMap_map, List.filter_flatMap, List.map_flatMap, flatMap_none]

end

end Pipewright.Wiring
