import Mathlib.Data.List.Forall2
import Pipewright.Proofs.Flow.Counts
import Pipewright.Proofs.Pipeline.Parameters

/-! What stages are counted as, by the channels that they list, and what their compiled lines do
with these channels. -/
namespace Pipewright

namespace Wiring
variable {q : WiringRequest} {w : Wiring} {c : String}

def Routes (w : Wiring) (c : String) : Prop := ∃ l ∈ w.outputs, c ∈ l.target.toList

def Reads (w : Wiring) (c : String) : Prop := ∃ l ∈ w.inputs, l.fromParams = false ∧ l.source = c

/-- The output lines go to the names of selected channels, and to file arguments that no output
channel names. -/
theorem routes_iff (h : wire q = .ok w) : w.Routes c ↔
    (∃ ch ∈ q.channels, ch.isSkipped = false ∧ c ∈ ch.name.toList ∧
      ∃ d ∈ ch.name.toList, d ∈ q.outchannels) ∨ c ∈ leftOutputs q := by
  have hsel : ∀ ch, ch ∈ live (outputChannels q) ↔ ch ∈ q.channels ∧ ch.isSkipped = false ∧
      ∃ d ∈ ch.name.toList, d ∈ q.outchannels := by
    intro ch
    simp only [live, outputChannels, isOutput, List.mem_filter, Bool.not_eq_true',
      List.any_eq_true, List.contains_iff_mem]
    constructor
    · rintro ⟨⟨hm, hd⟩, hs⟩
      exact ⟨hm, hs, hd⟩
    · rintro ⟨hm, hs, hd⟩
      exact ⟨⟨hm, hd⟩, hs⟩
  rw [Routes, wire_outputs h]
  constructor
  · rintro ⟨l, hl, hc⟩
    rcases List.mem_append.1 hl with hl | hl
    · obtain ⟨ch, hch, rfl⟩ := List.mem_map.1 hl
      obtain ⟨hm, hs, hd⟩ := (hsel ch).1 hch
      exact .inl ⟨ch, hm, hs, hc, hd⟩
    · obtain ⟨p, hp, rfl⟩ := List.mem_map.1 hl
      rw [List.mem_singleton.1 hc]
      exact .inr hp
  · rintro (⟨ch, hm, hs, hc, hd⟩ | hp)
    · exact ⟨routeOf ch, List.mem_append_left _ (List.mem_map_of_mem ((hsel ch).2 ⟨hm, hs, hd⟩)),
        hc⟩
    · exact ⟨fallbackOutput c, List.mem_append_right _ (List.mem_map_of_mem hp),
        List.mem_singleton_self c⟩

/-- The input lines that read channels are those of selected channels of one name. -/
theorem reads_iff (h : wire q = .ok w) : w.Reads c ↔
    c ∈ q.inchannels ∧ ∃ ch ∈ q.channels, ch.isSkipped = false ∧ ch.name = .one c ∧
      ch.fromParams = false := by
  have hsel : ∀ ch d, ch.name = .one d →
      (ch ∈ live (inputChannels q) ↔ ch ∈ q.channels ∧ ch.isSkipped = false ∧ d ∈ q.inchannels) := by
    intro ch d hd
    simp only [live, inputChannels, isInput, List.mem_filter, Bool.not_eq_true', hd, Names.single?,
      Option.any_some, List.contains_iff_mem]
    constructor
    · rintro ⟨⟨hm, hi⟩, hs⟩
      exact ⟨hm, hs, hi⟩
    · rintro ⟨hm, hs, hi⟩
      exact ⟨⟨hm, hi⟩, hs⟩
  rw [Reads, wire_inputs h]
  constructor
  · rintro ⟨l, hl, hp, hc⟩
    rcases List.mem_append.1 hl with hl | hl
    · obtain ⟨ch, hch, rfl⟩ := List.mem_map.1 hl
      cases hn : ch.name with
      | list ns =>
        have hi := (List.mem_filter.1 (List.mem_filter.1 hch).1).2
        rw [isInput, hn] at hi
        cases hi
      | one d =>
        have hd : d = c := by simpa [lineOf, hn, Names.single?] using hc
        subst hd
        obtain ⟨hm, hs, hi⟩ := (hsel ch d hn).1 hch
        exact ⟨hi, ch, hm, hs, hn, hp⟩
    · rw [← List.map_append] at hl
      obtain ⟨p, -, rfl⟩ := List.mem_map.1 hl
      cases hp
  · rintro ⟨hi, ch, hm, hs, hn, hp⟩
    refine ⟨lineOf ch, List.mem_append_left _ (List.mem_map_of_mem ?_), hp, ?_⟩
    · exact (hsel ch c hn).2 ⟨hm, hs, hi⟩
    · simp [lineOf, hn, Names.single?]

end Wiring

namespace Stage

/-- A channel that is not skipped has the name. -/
def Declares (s : Stage) (c : String) : Prop :=
  ∃ ch ∈ s.channels, ch.isSkipped = false ∧ c ∈ ch.name.toList

/-- The name stands in a channel beside one that the stage lists as an output. -/
def FansOutTo (s : Stage) (c : String) : Prop :=
  ∃ ch ∈ s.channels, ch.isSkipped = false ∧ c ∈ ch.name.toList ∧
    ∃ d ∈ ch.name.toList, d ∈ s.outchannels

def DeclaresInput (s : Stage) (c : String) : Prop :=
  ∃ ch ∈ s.channels, ch.isSkipped = false ∧ ch.name = .one c ∧ ch.fromParams = false

/-- A file argument of the name has no output channel. -/
def LeavesOpen (s : Stage) (settings : Settings) (b : Binding) (c : String) : Prop :=
  c ∈ Wiring.leftOutputs (s.wiringRequest b settings)

end Stage

namespace Flow
variable {stages : List Stage} {cs : List CompiledStage} {layout : Layout} {settings : Settings}

/-- A stage at a position of a flow, and its compiled lines: what it is counted as goes by the
names that it lists, what the lines do by the channels that these names select. -/
structure Agrees (stages : List Stage) (i : Nat) (s : Stage) (settings : Settings) (b : Binding)
    (w : Wiring) (c : String) : Prop where
  listed_output : i ∈ producers stages c ↔ c ∈ s.outchannels
  listed_input : i ∈ readers stages c ↔ c ∈ s.inchannels
  writer : i ∈ producers stages c → (w.Routes c ↔ s.Declares c ∨ s.LeavesOpen settings b c)
  stranger : i ∉ producers stages c → (w.Routes c ↔ s.FansOutTo c ∨ s.LeavesOpen settings b c)
  reader : w.Reads c ↔ i ∈ readers stages c ∧ s.DeclaresInput c

theorem agrees_of_wired {i : Nat} {s : Stage} {b : Binding} {w : Wiring} (c : String)
    (hs : stages[i]? = some s) (hw : Wiring.wire (s.wiringRequest b settings) = .ok w) :
    Agrees stages i s settings b w c := by
  have hout : i ∈ producers stages c ↔ c ∈ s.outchannels := by
    rw [mem_producers, hs]
    simp
  have hin : i ∈ readers stages c ↔ c ∈ s.inchannels := by
    rw [mem_readers, hs]
    simp
  refine ⟨hout, hin, fun hp => ?_, fun _ => Wiring.routes_iff hw, ?_⟩
  · rw [Wiring.routes_iff hw]
    refine or_congr_left ?_
    constructor
    · rintro ⟨ch, hm, hskip, hc, -⟩
      exact ⟨ch, hm, hskip, hc⟩
    · rintro ⟨ch, hm, hskip, hc⟩
      exact ⟨ch, hm, hskip, hc, c, hc, hout.1 hp⟩
  · rw [Wiring.reads_iff hw, hin]
    rfl

/-- Of stages that are compiled, the counts and the lines agree but for the channels that a stage
lists without declaring them, the names beside listed ones, and file arguments without a channel.
A channel is told to be without a writer just if a stage lists it as an input, none as an output,
and neither a statement nor a pipeline parameter makes it. -/
theorem compiled_agrees
    (hcs : List.Forall₂ (fun s k => s.CompilesTo layout settings k) stages cs)
    (hplain : ∀ s ∈ stages, s.command = none ∧ s.inputs = none ∧ s.outputs = none) (c : String) :
    (∀ i s k, stages[i]? = some s → cs[i]? = some k → ∃ b w, s.CompiledWith settings k b w ∧
      (∃ lines doc, k.block = (s.block lines doc).render ∧
        lines.inputs = w.inputs.map InputLine.text ∧
        lines.outputs = w.outputs.map OutputLine.text) ∧
      Agrees stages i s settings b w c) ∧
    ∀ name, .notProduced c name ∈ findings stages ↔
      (∃ i ∈ readers stages c, nameOf stages i = name) ∧ (∀ i, i ∉ producers stages c) ∧
        ¬∃ s ∈ stages, (∃ st ∈ s.pretreat, c ∈ assignedChannels st.text) ∨
          ∃ ch ∈ s.channels, ch.fromParams ∧ c ∈ ch.name.toList := by
  constructor
  · intro i s k hs hk
    have hz : (s, k) ∈ stages.zip cs :=
      List.mem_iff_getElem?.2 ⟨i, List.getElem?_zip_eq_some.2 ⟨hs, hk⟩⟩
    obtain ⟨hcommand, hinputs, houtputs⟩ := hplain s (List.of_mem_zip hz).1
    obtain ⟨b, w, hw⟩ := (List.forall₂_zip hcs hz).wired hcommand
    exact ⟨b, w, hw, hw.block hinputs houtputs, agrees_of_wired c hs hw.wired⟩
  · intro name
    rw [notProduced_mem_findings, mem_external, List.eq_nil_iff_forall_not_mem]

/-- A stage whose output goes to two channels, of which it lists one, beside one that it does not
declare. -/
def forking : Stage :=
  { Stage.simple "first" "a.py" with
    overrides := some []
    outchannels := ["forPlot", "table"]
    channels := [⟨.list ["forPlot", "forReport"], some "file", some (.one "out.tsv"), none, none,
      none, false⟩] }

def reporting : Stage :=
  { Stage.simple "second" "b.py" with
    overrides := some []
    inchannels := ["forReport", "raw"]
    channels := [Channel.simple "forReport" "file" "t" (some "y")] }

theorem forking_compiles : ∃ layout cs, List.Forall₂
    (fun s k => s.CompilesTo layout Settings.standard k) [forking, reporting] cs := by
  have hrun : ((Assembly.mk "out" .standard [] (fun _ _ => pure ()) [forking, reporting]).run.runOn
      Assembly.twoSources).1.toBool = true := by
    decide +kernel
  cases h : (Assembly.mk "out" .standard [] (fun _ _ => pure ()) [forking, reporting]).run.runOn
      Assembly.twoSources with
  | mk result ws' =>
    rw [h] at hrun
    cases result with
    | error e => cases hrun
    | ok r =>
      obtain ⟨st, cs, hcs, -⟩ := Assembly.run_ok h
      exact ⟨r.layout, cs, hcs⟩

theorem forking_plain : ∀ s ∈ [forking, reporting],
    s.command = none ∧ s.inputs = none ∧ s.outputs = none := by
  intro s hs
  simp only [List.mem_cons, List.not_mem_nil, or_false] at hs
  rcases hs with rfl | rfl <;> exact ⟨rfl, rfl, rfl⟩

theorem leftOutputs_forking {k : CompiledStage} {b : Binding} {w : Wiring}
    (h : forking.CompiledWith .standard k b w) :
    Wiring.leftOutputs (forking.wiringRequest b .standard) = [] := by
  obtain ⟨m, warnings, hb⟩ := h.bound
  obtain ⟨f, -, hb⟩ := bind_ok hb
  cases hb
  rfl

/-- A stage sends to a channel that it is not counted as a writer of, and does not send to one that
it is; a stage counts as a reader of a channel that it does not read. Of both channels it is told
that nothing writes to them. -/
theorem forking_disagrees : ∃ layout k k' b b' w w',
    forking.CompilesTo layout .standard k ∧ forking.CompiledWith .standard k b w ∧
    reporting.CompilesTo layout .standard k' ∧ reporting.CompiledWith .standard k' b' w' ∧
    ¬(0 ∈ producers [forking, reporting] "forReport" ↔ w.Routes "forReport") ∧
    ¬(0 ∈ producers [forking, reporting] "table" ↔ w.Routes "table") ∧
    ¬(1 ∈ readers [forking, reporting] "raw" ↔ w'.Reads "raw") ∧
    .notProduced "forReport" "second" ∈ findings [forking, reporting] ∧
    .notProduced "raw" "second" ∈ findings [forking, reporting] := by
  obtain ⟨layout, cs, hcs⟩ := forking_compiles
  obtain _ | ⟨hk, _ | ⟨hk', -⟩⟩ := hcs
  obtain ⟨b, w, hw⟩ := hk.wired rfl
  obtain ⟨b', w', hw'⟩ := hk'.wired rfl
  refine ⟨layout, _, _, b, b', w, w', hk, hw, hk', hw', ?_, ?_, ?_, by decide,
    by decide⟩
  · intro h
    have hroutes : w.Routes "forReport" := (Wiring.routes_iff hw.wired).2
      (.inl ⟨_, List.mem_singleton_self _, rfl, by decide, "forPlot", by decide,
        List.mem_cons_self⟩)
    exact absurd (h.2 hroutes) (by decide)
  · intro h
    have hcounts : 0 ∈ producers [forking, reporting] "table" := by decide
    rcases (Wiring.routes_iff hw.wired).1 (h.1 hcounts) with ⟨ch, hm, -, hc, -⟩ | hleft
    · cases List.mem_singleton.1 hm
      exact absurd hc (by decide)
    · rw [leftOutputs_forking hw] at hleft
      cases hleft
  · intro h
    have hcounts : 1 ∈ readers [forking, reporting] "raw" := by decide
    obtain ⟨-, ch, hm, -, hn, -⟩ := (Wiring.reads_iff hw'.wired).1 (h.1 hcounts)
    cases List.mem_singleton.1 hm
    exact absurd hn (by decide)

theorem forking_agrees : ∃ layout cs,
    List.Forall₂ (fun s k => s.CompilesTo layout Settings.standard k) [forking, reporting] cs ∧
      ∀ i s k, [forking, reporting][i]? = some s → cs[i]? = some k →
        ∃ b w, s.CompiledWith .standard k b w ∧
          Agrees [forking, reporting] i s .standard b w "forReport" := by
  obtain ⟨layout, cs, hcs⟩ := forking_compiles
  refine ⟨layout, cs, hcs, fun i s k hs hk => ?_⟩
  obtain ⟨b, w, hw, -, hagrees⟩ := (compiled_agrees hcs forking_plain "forReport").1 i s k hs hk
  exact ⟨b, w, hw, hagrees⟩

end Flow

end Pipewright
