import Mathlib.Data.List.Forall2
import Pipewright.Proofs.Pipeline.Steps
import Pipewright.Proofs.Stage.Compiled
import Pipewright.Proofs.Wiring.Ledger

/-! The parameters of a pipeline: what its stages read, and where its configuration sets it. -/
namespace Pipewright

def InputLine.origin (l : InputLine) : String :=
  (if l.fromParams then "params." else "") ++ l.source

theorem InputLine.text_eq (l : InputLine) :
    l.text = l.kind ++ " " ++ l.declaration ++ " from " ++ l.origin ++ l.transform := by
  simp only [text, origin, String.append_assoc]

namespace Wiring
variable {q : WiringRequest} {w : Wiring}

end Wiring

namespace Stage

end Stage

namespace Assembly
variable {a : Assembly} {layout : Layout} {st st' : AssemblyState} {ws ws' : Workspace}

def fresh (given ps : List (String × Literal)) : List (String × Literal) :=
  ps.filter fun p => (Entries.get? p.1 given).isNone

theorem foldl_addParam (given ps added : List (String × Literal)) :
    ps.foldl (addParam given) added =
      (fresh given ps).foldl (fun set p => Entries.put p.1 p.2 set) added := by
  induction ps generalizing added with
  | nil => rfl
  | cons p ps ih =>
    rw [List.foldl_cons, ih, addParam]
    cases hg : Entries.get? p.1 given <;> simp [fresh, hg]

theorem addImage_ok {root : String} {c : CompiledStage}
    {r : AssemblyState × List (String × Literal)}
    (h : (a.addImage root st c).runOn ws = (.ok r, ws')) :
    r.1.added = st.added ∧ r.1.blocks = st.blocks := by
  rw [addImage] at h
  split at h
  · obtain ⟨rfl, -⟩ := Job.pure_ok h
    exact ⟨rfl, rfl⟩
  · obtain ⟨i, w, -, h⟩ := Job.bind_ok h
    obtain ⟨rfl, -⟩ := Job.pure_ok h
    exact ⟨rfl, rfl⟩

theorem addStage_ok {s : Stage} (h : (a.addStage layout st s).runOn ws = (.ok st', ws')) :
    ∃ c, s.CompilesTo layout a.settings c ∧
      st'.added = c.params.foldl (addParam a.params) st.added ∧
      st'.blocks = st.blocks ++ [c.block] := by
  obtain ⟨c, w, hc, h⟩ := Job.bind_ok h
  obtain ⟨r, w₁, hr, h⟩ := Job.bind_ok h
  obtain ⟨rfl, -⟩ := Job.pure_ok h
  obtain ⟨hadded, hblocks⟩ := addImage_ok hr
  refine ⟨c, ⟨ws, w, hc⟩, ?_, ?_⟩
  · rw [← hadded]
  · rw [← hblocks]

/-- Stages that are added one after the other add their parameters and their blocks in turn. -/
theorem addStages_ok {ss : List Stage}
    (h : (ss.foldlM (a.addStage layout) st).runOn ws = (.ok st', ws')) :
    ∃ cs, List.Forall₂ (fun s c => s.CompilesTo layout a.settings c) ss cs ∧
      st'.added = (cs.flatMap CompiledStage.params).foldl (addParam a.params) st.added ∧
      st'.blocks = st.blocks ++ cs.map CompiledStage.block := by
  induction ss generalizing st ws with
  | nil =>
    obtain ⟨rfl, -⟩ := Job.pure_ok h
    exact ⟨[], .nil, rfl, (List.append_nil _).symm⟩
  | cons s ss ih =>
    rw [List.foldlM_cons] at h
    obtain ⟨st₁, w, hs, h⟩ := Job.bind_ok h
    obtain ⟨c, hc, hadded, hblock⟩ := addStage_ok hs
    obtain ⟨cs, hcs, hrest, hblocks⟩ := ih h
    refine ⟨c :: cs, .cons hc hcs, ?_, ?_⟩
    · rw [hrest, hadded, List.flatMap_cons, List.foldl_append]
    · rw [hblocks, hblock, List.append_assoc]
      rfl

/-- A pipeline that is assembled has compiled all stages; the workflow of their blocks and the
configuration are in their files. -/
theorem run_ok {r : AssemblyReport} (h : a.run.runOn ws = (.ok r, ws')) :
    ∃ st cs, List.Forall₂ (fun s c => s.CompilesTo r.layout a.settings c) a.stages cs ∧
      st.added = Entries.putAll (fresh a.params (cs.flatMap CompiledStage.params)) ∧
      r = a.report r.layout st ∧
      ws'.files.readBytes ws'.here r.layout.workflow =
        .ok (Workflow.render (cs.map CompiledStage.block)).toUTF8 ∧
      ws'.files.readBytes ws'.here r.layout.config = .ok (a.config st).render.toUTF8 := by
  obtain ⟨st, w, w', -, hst, hr, hworkflow, hconfig⟩ := run_steps h
  obtain ⟨cs, hcs, hadded, hblocks⟩ := addStages_ok hst
  have hall : st.blocks = cs.map CompiledStage.block := hblocks
  refine ⟨st, cs, hcs, ?_, hr, hall ▸ hworkflow, hconfig⟩
  rw [hadded, foldl_addParam]
  rfl

def sourceFile (name text : String) : Place × FileEntry := ([name], .file text.toUTF8 false)

def twoSources : Workspace :=
  ⟨⟨[sourceFile "a.py" "def process(x, *, limit: int = 1):\n    return x\n",
    sourceFile "b.py" "def process(y, *, limit: int = 2):\n    return y\n"]⟩, [], [], .empty⟩

def settled (o : Except Fault AssemblyReport × Workspace) : Option (List String) :=
  o.1.toOption.map fun r => r.params.map Prod.fst

end Assembly

end Pipewright
