import Pipewright.Proofs.Pipeline.Images
import Pipewright.Proofs.Pipeline.Owned

/-! A pipeline that fails on a stage keeps the workflow and the configuration it had. -/
namespace Pipewright
variable {owned way : Place → Prop} {l : Layout}

namespace Stage

theorem readFunction_frame (s : Stage) (source : String) :
    Job.Frame owned way (s.readFunction source) := by
  refine .bind (.bind (.askOr _ _) fun _ => .pure _) fun m => ?_
  refine .bind (.ofExcept _) fun (b, warnings) => ?_
  exact .bind (.warn warnings) fun _ => .bind (.ofExcept _) fun f => .pure _

theorem compile_frame (room : l.Room owned way) (hroot : Path.isAbsolute l.root = true) (s : Stage)
    (settings : Settings) (howned : s.command = none → owned (Path.place [] (l.script s.name))) :
    Job.Frame owned way (s.compile l settings) := by
  have hscript : Path.isAbsolute (l.script s.name) = true :=
    Path.isAbsolute_join (Path.isAbsolute_join hroot)
  rw [compile]
  split
  · exact .bind (.ofExcept _) fun _ => .pure _
  · rename_i hcommand
    refine .bind (.ofExcept _) fun source => .bind (s.readFunction_frame source) fun f => ?_
    refine .bind (Packages.copy_frame room.packages room.passes (Path.isAbsolute_join hroot) _)
      fun _ => ?_
    refine .bind (.writeExecutable hscript (howned hcommand) _) fun _ => ?_
    exact .bind (.warn _) fun _ => .bind (.ofExcept _) fun w => .pure _

end Stage

/-- A builder that writes the path it is given and nothing else, also when it fails. -/
def Container.Builder.WritesTarget (builder : Builder) : Prop :=
  ∀ target reference w p, p ≠ Path.place w.here target →
    FileTree.entry? ((builder target reference).runOn w).2.files p = w.files.entry? p

theorem Container.resolve_frame {builder : Builder} (room : l.Room owned way)
    (hbuilder : builder.WritesTarget) (hroot : Path.isAbsolute l.root = true) (reference : String)
    (cache : Cache) : Job.Frame owned way (resolve builder l.root reference cache) := by
  have htarget : Path.isAbsolute (imagePath l.root reference) = true := Path.isAbsolute_join hroot
  have hbuild : Job.Frame owned way (builder (imagePath l.root reference) reference) := by
    intro w _
    have hkeeps := hbuilder (imagePath l.root reference) reference w
    rw [Path.place_absolute htarget] at hkeeps
    exact .single (Path.isPlain_place _) (room.image reference) hkeeps
  refine .look fun t here _ => ?_
  split
  · exact .pure _
  · split
    · exact .pure _
    · exact .bind hbuild fun _ => .pure _

namespace Assembly
variable {a : Assembly} {ws w ws' : Workspace} {e : Fault}

section
variable (room : l.Room owned way) (hbuilder : a.builder.WritesTarget)
  (hroot : Path.isAbsolute l.root = true)
include room hbuilder hroot

theorem addCompiled_frame (st : AssemblyState) (c : CompiledStage) :
    Job.Frame owned way (a.addCompiled l.root st c) := by
  refine .bind ?_ fun added => ?_
  · rw [addImage]
    split
    · exact .pure _
    · refine .bind (Container.resolve_frame room hbuilder hroot _ _) fun resolved => ?_
      cases resolved
      exact .pure _
  · cases added
    exact .pure _

theorem foldlM_addStage_frame {ss : List Stage}
    (howned : ∀ s ∈ ss, s.command = none → owned (Path.place [] (l.script s.name)))
    (st : AssemblyState) : Job.Frame owned way (ss.foldlM (a.addStage l) st) :=
  .foldlM (fun s hs st => .bind (s.compile_frame room hroot a.settings (howned s hs)) fun c =>
    addCompiled_frame room hbuilder hroot st c) st

end

theorem addStages_frame (hbuilder : a.builder.WritesTarget)
    (hroot : Path.isAbsolute l.root = true) : Job.Frame l.Owns l.Passes (a.addStages l) :=
  foldlM_addStage_frame l.owns_room hbuilder hroot (fun s _ _ => .script s.name) default

/-- What is done in a layout before the first stage is compiled. -/
def prepareIn (a : Assembly) (l : Layout) : Job Layout := do
  Job.makeDirectories l.scripts
  Job.makeDirectories l.packages
  writeCaptureScript l a.settings
  Job.warn ((Flow.findings a.stages).map Finding.text)
  return l

theorem runOn_prepare (a : Assembly) (ws : Workspace) :
    a.prepare.runOn ws = (a.prepareIn ⟨Path.join ws.here.text a.location⟩).runOn ws := by
  simp only [prepare, Layout.create, bind_assoc, pure_bind]
  exact Job.runOn_workingDirectory _ ws

theorem prepareIn_frame (hroot : Path.isAbsolute l.root = true)
    (hprogram : Path.IsPlain a.settings.captureProgram) :
    Job.Frame l.Owns l.Passes (a.prepareIn l) := by
  have hscripts : Path.isAbsolute l.scripts = true := Path.isAbsolute_join hroot
  have hpackages : Path.isAbsolute l.packages = true := Path.isAbsolute_join hroot
  have hshim := Path.isBelow_join hscripts hprogram
  refine .bind (.makeDirectories hscripts fun p hp => ?_) fun _ =>
    .bind (.makeDirectories hpackages fun p hp => ?_) fun _ => ?_
  · exact (Layout.passes_join (by decide) hp).imp_left .scripts
  · exact (Layout.passes_join (by decide) hp).imp_left .packages
  · exact .bind (.writeExecutable hshim.absolute (.scripts hshim.place) _) fun _ =>
      .bind (.warn _) fun _ => .pure l

theorem prepareIn_ok {m : Layout} (h : (a.prepareIn l).runOn ws = (.ok m, w)) : m = l := by
  obtain ⟨_, _, -, h⟩ := Job.bind_ok h
  obtain ⟨_, _, -, h⟩ := Job.bind_ok h
  obtain ⟨_, _, -, h⟩ := Job.bind_ok h
  obtain ⟨_, _, -, h⟩ := Job.bind_ok h
  exact (Job.pure_ok h).1.symm

/-- What is done before the first stage stays within the pipeline, but for directories that lead to
it. -/
theorem prepare_frame (hprogram : Path.IsPlain a.settings.captureProgram)
    (htree : ws.files.IsPlain) (h : a.prepare.runOn ws = (.ok l, w)) :
    Path.isAbsolute l.root = true ∧ FileTree.Frame l.Owns l.Passes ws.files w.files := by
  rw [runOn_prepare] at h
  have hl := prepareIn_ok h
  rw [← hl] at h
  have hroot : Path.isAbsolute l.root = true := by
    rw [hl]
    exact Path.isAbsolute_join (Path.isAbsolute_append (by decide +kernel))
  exact ⟨hroot, (prepareIn_frame hroot hprogram).run htree h⟩

/-- The layout of a pipeline that fails on a stage, with the fault. -/
def stageFault? (a : Assembly) (ws : Workspace) : Option (Layout × Fault) :=
  match a.prepare.runOn ws with
  | (.error _, _) => none
  | (.ok l, w) =>
    match (a.addStages l).runOn w with
    | (.error e, _) => some (l, e)
    | (.ok _, _) => none

theorem stageFault?_eq_some (h : a.stageFault? ws = some (l, e)) : ∃ w ws',
    a.prepare.runOn ws = (.ok l, w) ∧ (a.addStages l).runOn w = (.error e, ws') ∧
      a.run.runOn ws = (.error e, ws') := by
  rw [stageFault?] at h
  split at h
  · cases h
  · rename_i m w hprepare
    split at h
    · rename_i fault ws' hstages
      cases h
      refine ⟨w, ws', hprepare, hstages, ?_⟩
      rw [run_eq, Job.runOn_bind, hprepare]
      simp only [Job.runOn_bind, hstages]
    · cases h

/-- All that differs after a pipeline has failed on a stage is in places that it owns, but for
directories that lead to it. -/
theorem failed_frame (hprogram : Path.IsPlain a.settings.captureProgram) (htree : ws.files.IsPlain)
    (hbuilder : a.builder.WritesTarget) (hfail : a.stageFault? ws = some (l, e)) :
    FileTree.Frame l.Owns l.Passes ws.files (a.run.runOn ws).2.files := by
  obtain ⟨w, ws', hprepare, hstages, hrun⟩ := stageFault?_eq_some hfail
  obtain ⟨hroot, hfirst⟩ := prepare_frame hprogram htree hprepare
  rw [hrun]
  exact hfirst.trans ((addStages_frame hbuilder hroot).run (hfirst.plain htree) hstages)

/-- A pipeline that fails on a stage leaves its workflow and its configuration as they were. Only
where the path of the pipeline itself leads through one of them and back, and nothing was there,
has it become a directory. -/
theorem failed_keeps_workflow (hprogram : Path.IsPlain a.settings.captureProgram)
    (htree : ws.files.IsPlain) (hbuilder : a.builder.WritesTarget)
    (hfail : a.stageFault? ws = some (l, e)) :
    (a.run.runOn ws).1 = .error e ∧
    ∀ path ∈ [l.workflow, l.config],
      (FileTree.entry? (a.run.runOn ws).2.files (Path.place [] path) =
        ws.files.entry? (Path.place [] path) ∨
      l.Passes (Path.place [] path) ∧ ws.files.entry? (Path.place [] path) = none ∧
        FileTree.entry? (a.run.runOn ws).2.files (Path.place [] path) = some .directory) ∧
      (".." ∉ Path.steps l.root → ¬l.Passes (Path.place [] path)) := by
  obtain ⟨_, _, -, -, hrun⟩ := stageFault?_eq_some hfail
  refine ⟨congrArg Prod.fst hrun, ?_⟩
  have hframe := failed_frame hprogram htree hbuilder hfail
  have hworkflow : ¬l.Owns (Path.place [] l.workflow) := Layout.not_owns (by decide)
    (by decide) (by decide) (by decide) (by decide)
  have hconfig : ¬l.Owns (Path.place [] l.config) := Layout.not_owns (by decide)
    (by decide) (by decide) (by decide) (by decide)
  refine List.forall_mem_cons.2 ⟨?_, List.forall_mem_singleton.2 ?_⟩
  · exact ⟨hframe.keeps _ hworkflow, fun hup => Layout.not_passes hup (by decide)⟩
  · exact ⟨hframe.keeps _ hconfig, fun hup => Layout.not_passes hup (by decide)⟩

/-! A pipeline that was built before, and one whose path leads through its workflow -/

theorem labelling_writesTarget : Container.Builder.WritesTarget Container.Session.labelling := by
  intro target reference w p hp
  change FileTree.entry? ((Job.change _).runOn w).2.files p = _
  rw [Job.runOn_change]
  split
  · rename_i t ht
    obtain ⟨-, q, executable, hq, -, rfl⟩ := FileTree.write_ok ht
    exact FileTree.entryAt_put_of_ne fun hpq => hp (hpq.trans (FileTree.locate_ok hq))
  · rfl

theorem eq_directory {e : Option FileEntry} (h : e.any fun | .directory => true | .file .. => false) :
    e = some .directory := by
  obtain ⟨d, rfl, hd⟩ := (Option.any_eq_true _ _).1 h
  cases d with
  | directory => rfl
  | file => cases hd

/-- The second stage says nothing of its inputs. -/
def unready (location : String) : Assembly where
  location
  settings := .standard
  params := []
  builder := Container.Session.labelling
  stages := [echoing "first" "docker://org/tool:1", { echoing "second" "" with inputs := none }]

def built : Workspace :=
  ⟨⟨[(["out"], .directory), (["out", "main.nf"], .file "old".toUTF8 false)]⟩, [], [], .empty⟩

theorem failed_keeps_workflow_built :
    (unready "out").stageFault? built = some (⟨"/out"⟩, .missingInputs "second") ∧
    ((unready "out").run.runOn built).2.files.isFile [] "/out/org_tool_1.sif" ∧
    FileTree.entry? ((unready "out").run.runOn built).2.files ["out", "main.nf"] =
      some (.file "old".toUTF8 false) := by
  have hfail : (unready "out").stageFault? built = some (⟨"/out"⟩, .missingInputs "second") := by
    decide +kernel
  have hprogram : Path.IsPlain (unready "out").settings.captureProgram := by decide
  have htree : built.files.IsPlain := by decide
  obtain ⟨-, hkeeps⟩ := failed_keeps_workflow hprogram htree labelling_writesTarget hfail
  obtain ⟨hentry, hway⟩ := hkeeps _ List.mem_cons_self
  have hplace : Path.place [] (Layout.workflow ⟨"/out"⟩) = ["out", "main.nf"] := by decide +kernel
  rw [hplace] at hentry hway
  refine ⟨hfail, by decide +kernel, ?_⟩
  exact hentry.resolve_right fun h => hway (by decide) h.1

def roundabout : Assembly := unready "main.nf/.."

/-- The workflow was not there, and is a directory when the pipeline has failed. -/
theorem roundabout_makes_workflow :
    (Path.IsPlain roundabout.settings.captureProgram ∧ Container.Session.emptySpace.files.IsPlain ∧
      roundabout.builder.WritesTarget) ∧
    roundabout.stageFault? Container.Session.emptySpace =
      some (⟨"/main.nf/.."⟩, .missingInputs "second") ∧
    Path.place [] (Layout.workflow ⟨"/main.nf/.."⟩) = ["main.nf"] ∧
    Container.Session.emptySpace.files.entry? ["main.nf"] = none ∧
    FileTree.entry? (roundabout.run.runOn Container.Session.emptySpace).2.files ["main.nf"] =
      some .directory :=
  ⟨⟨by decide, by decide, labelling_writesTarget⟩, by decide +kernel, by decide +kernel, rfl,
    eq_directory (by decide +kernel)⟩

end Assembly
end Pipewright
