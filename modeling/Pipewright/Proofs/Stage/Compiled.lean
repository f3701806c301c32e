import Pipewright.Proofs.Storage.Jobs
import Pipewright.Stage.Compile

/-! What a stage without a command is compiled to: the lines of a wiring of its function. -/
namespace Pipewright.Stage
variable {s : Stage} {layout : Layout} {settings : Settings} {c : CompiledStage} {b : Binding}
  {w : Wiring}

/-- What a stage is compiled to in some workspace. -/
def CompilesTo (s : Stage) (layout : Layout) (settings : Settings) (c : CompiledStage) : Prop :=
  ∃ w w', (s.compile layout settings).runOn w = (.ok c, w')

def linesOf (s : Stage) (settings : Settings) (b : Binding) (w : Wiring) : BlockLines :=
  s.wiredLines (s.wiringRequest b settings) w

/-- A stage that is compiled with a binding and a wiring of its function. -/
structure CompiledWith (s : Stage) (settings : Settings) (c : CompiledStage) (b : Binding)
    (w : Wiring) : Prop where
  bound : ∃ m warnings, Binding.ofModule m s.function (s.overrides.getD Overrides.standard) =
    .ok (b, warnings)
  wired : Wiring.wire (s.wiringRequest b settings) = .ok w
  lines : ∃ doc script, c = s.compiled (s.linesOf settings b w) doc script

theorem CompilesTo.wired (h : s.CompilesTo layout settings c) (hs : s.command = none) :
    ∃ b w, s.CompiledWith settings c b w := by
  obtain ⟨w₀, w', h⟩ := h
  rw [compile, hs] at h
  -- The packages and the script are written in between; neither changes what is wired.
  obtain ⟨source, w₁, -, h⟩ := Job.bind_ok h
  obtain ⟨f, w₂, hf, h⟩ := Job.bind_ok h
  obtain ⟨_, w₃, -, h⟩ := Job.bind_ok h
  obtain ⟨_, w₄, -, h⟩ := Job.bind_ok h
  obtain ⟨_, w₅, -, h⟩ := Job.bind_ok h
  obtain ⟨w, w₆, hw, h⟩ := Job.bind_ok h
  obtain ⟨hw, -⟩ := Job.ofExcept_ok hw
  obtain ⟨m, w₇, -, hf⟩ := Job.bind_ok hf
  obtain ⟨⟨b, warnings⟩, w₈, hb, hf⟩ := Job.bind_ok hf
  obtain ⟨hb, -⟩ := Job.ofExcept_ok hb
  obtain ⟨_, w₉, -, hf⟩ := Job.bind_ok hf
  obtain ⟨signature, w₁₀, -, hf⟩ := Job.bind_ok hf
  obtain ⟨rfl, -⟩ := Job.pure_ok hf
  obtain ⟨rfl, -⟩ := Job.pure_ok h
  exact ⟨b, w, ⟨m, warnings, hb⟩, hw, _, _, rfl⟩

/-- Whatever its lines are, a compiled stage keeps the name, the container and the settings but
the one for the container. -/
theorem CompilesTo.kept (h : s.CompilesTo layout settings c) : c.name = s.name ∧
    c.container = s.image? ∧
    c.settings = s.processSettings.filter fun p => p.1 ≠ "container" := by
  cases hs : s.command with
  | some command =>
    obtain ⟨w₀, w', h⟩ := h
    rw [compile, hs] at h
    obtain ⟨lines, w₁, -, h⟩ := Job.bind_ok h
    obtain ⟨rfl, -⟩ := Job.pure_ok h
    exact ⟨rfl, rfl, rfl⟩
  | none =>
    obtain ⟨b, w, hw⟩ := h.wired hs
    obtain ⟨doc, script, rfl⟩ := hw.lines
    exact ⟨rfl, rfl, rfl⟩

/-- Without given inputs, the parameters of a compiled stage are those of its wiring. -/
theorem CompiledWith.params (h : s.CompiledWith settings c b w) (hs : s.inputs = none) :
    c.params = w.pipelineParams := by
  obtain ⟨doc, script, rfl⟩ := h.lines
  simp [compiled, linesOf, wiredLines, hs]

/-- Without given lines, the block of a compiled stage has the lines of its wiring. -/
theorem CompiledWith.block (h : s.CompiledWith settings c b w) (hi : s.inputs = none)
    (ho : s.outputs = none) : ∃ lines doc, c.block = (s.block lines doc).render ∧
      lines.inputs = w.inputs.map InputLine.text ∧
      lines.outputs = w.outputs.map OutputLine.text := by
  obtain ⟨doc, script, rfl⟩ := h.lines
  exact ⟨s.linesOf settings b w, doc, rfl, by simp [linesOf, wiredLines, hi],
    by simp [linesOf, wiredLines, ho]⟩

end Pipewright.Stage
