import Pipewright.Pipeline.Assembly
import Pipewright.Proofs.Storage.Files
import Pipewright.Proofs.Storage.Jobs

/-! The steps of an assembly: what comes before its stages, and what follows them. -/
namespace Pipewright.Assembly
variable {a : Assembly} {ws ws' : Workspace}

/-- What is done before the first stage is compiled. -/
def prepare (a : Assembly) : Job Layout := do
  let layout ← Layout.create a.location
  writeCaptureScript layout a.settings
  Job.warn ((Flow.findings a.stages).map Finding.text)
  return layout

/-- What is done when all stages have been added. -/
def finish (a : Assembly) (layout : Layout) (st : AssemblyState) : Job AssemblyReport := do
  Job.writeText layout.workflow (Workflow.render st.blocks)
  Job.writeText layout.config (a.config st).render
  return a.report layout st

def addStages (a : Assembly) (layout : Layout) : Job AssemblyState :=
  a.stages.foldlM (a.addStage layout) default

theorem run_eq (a : Assembly) : a.run = (do
    let layout ← a.prepare
    a.finish layout (← a.addStages layout)) := by
  simp only [run, prepare, finish, addStages, bind_assoc, pure_bind]

/-- A pipeline that is assembled has added all its stages; the workflow of their blocks and the
configuration are in their files. -/
theorem run_steps {r : AssemblyReport} (h : a.run.runOn ws = (.ok r, ws')) :
    ∃ st w w', a.prepare.runOn ws = (.ok r.layout, w) ∧
      (a.addStages r.layout).runOn w = (.ok st, w') ∧ r = a.report r.layout st ∧
      ws'.files.readBytes ws'.here r.layout.workflow = .ok (Workflow.render st.blocks).toUTF8 ∧
      ws'.files.readBytes ws'.here r.layout.config = .ok (a.config st).render.toUTF8 := by
  rw [run_eq] at h
  obtain ⟨layout, w, hprepare, h⟩ := Job.bind_ok h
  obtain ⟨st, w', hst, h⟩ := Job.bind_ok h
  obtain ⟨_, w₁, hworkflow, h⟩ := Job.bind_ok h
  obtain ⟨_, w₂, hconfig, h⟩ := Job.bind_ok h
  obtain ⟨rfl, rfl⟩ := Job.pure_ok h
  obtain ⟨t, ht, rfl⟩ := Job.change_ok hworkflow
  obtain ⟨u, hu, rfl⟩ := Job.change_ok hconfig
  refine ⟨st, w, w', hprepare, hst, rfl, ?_, FileTree.readBytes_write hu⟩
  exact FileTree.readBytes_write_of_ne (by decide +kernel) (by decide +kernel) (by decide) hu
    (FileTree.readBytes_write ht)

end Pipewright.Assembly
