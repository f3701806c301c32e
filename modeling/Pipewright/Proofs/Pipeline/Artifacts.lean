import Pipewright.Proofs.Pipeline.Failure

/-! What is in the directory of scripts when a pipeline has been assembled: the scripts of its
stages, and the one that hands captures on. -/
namespace Pipewright

theorem Job.writeExecutable_ok {w w' : Workspace} {path text : String} {u : Unit}
    (h : (writeExecutable path text).runOn w = (.ok u, w')) :
    w'.files.entry? (Path.place w.here path) = some (.file text.toUTF8 true) := by
  obtain ⟨_, w₁, hwrite, hmark⟩ := Job.bind_ok h
  obtain ⟨t, ht, rfl⟩ := change_ok hwrite
  obtain ⟨t', ht', rfl⟩ := change_ok hmark
  obtain ⟨-, ⟨executable, hentry⟩, -⟩ := FileTree.entry_write ht
  exact FileTree.setExecutable_ok ht' hentry

theorem Path.isPlain_script {name : String} (h : '/' ∉ name.toList) : IsPlain (name ++ ".py") := by
  obtain ⟨hidle, hup⟩ := FileTree.says_of_isName (n := ".py") (by decide +kernel) name
  rw [isIdle, Bool.or_eq_false_iff] at hidle
  refine ⟨?_, by simp, by simpa using hidle.2, hup⟩
  rw [String.toList_append, List.mem_append, not_or]
  exact ⟨h, by decide⟩

namespace Layout
variable {l : Layout} {n : String} {s : Stage} {ss : List Stage}

theorem place_scripts (l : Layout) : Path.place [] l.scripts = Path.place [] l.root ++ ["bin"] :=
  Path.place_join (by decide)

/-- The places that stages write: those outside of the directory of scripts, and their scripts. -/
def Writes (l : Layout) (ss : List Stage) (p : Place) : Prop :=
  ¬Path.place [] l.scripts <+: p ∨
    ∃ s ∈ ss, s.command = none ∧ p = Path.place [] (l.script s.name)

theorem writes_of_ne {p : Place} (hn : Path.place [] l.root ++ [n] <+: p) (hbin : n ≠ "bin") :
    l.Writes ss p := by
  refine .inl fun hp => ?_
  rw [place_scripts] at hp
  exact hbin (Place.name_eq hn hp)

theorem writes_room (l : Layout) (ss : List Stage) : l.Room (l.Writes ss) l.Passes where
  packages p hp := by
    rw [Layout.packages, Path.place_join (by decide)] at hp
    exact writes_of_ne hp (by decide)
  passes p hp := by
    refine (passes_join (by decide) hp).imp_left fun hp => ?_
    rw [Path.place_join (by decide)] at hp
    exact writes_of_ne hp (by decide)
  image reference := by
    rw [Container.imagePath, Path.place_join (Container.isPlain_imageFileName reference)]
    refine writes_of_ne List.prefix_rfl fun hbin => ?_
    have hends : ".sif".toList <:+ "bin".toList := by
      rw [← hbin, Container.imageFileName_eq]
      simp
    exact absurd hends (by decide)

/-- A name in the directory of scripts is written by the stages whose scripts have it alone. -/
theorem writes_join_iff (hn : Path.IsPlain n) (hss : ∀ s ∈ ss, '/' ∉ s.name.toList) :
    l.Writes ss (Path.place [] (Path.join l.scripts n)) ↔
      ∃ s ∈ ss, s.command = none ∧ s.name ++ ".py" = n := by
  have hinside : Path.place [] l.scripts <+: Path.place [] (Path.join l.scripts n) := by
    rw [Path.place_join hn]
    exact List.prefix_append _ _
  rw [Writes, or_iff_right (not_not_intro hinside)]
  refine exists_congr fun s => and_congr_right fun hs => and_congr_right fun _ => ?_
  rw [script, Path.place_join hn, Path.place_join (Path.isPlain_script (hss s hs)),
    List.append_cancel_left_eq, List.cons.injEq, and_iff_left rfl, eq_comm]

end Layout

namespace Stage

/-- The script of a stage as its source is now. -/
def makeScript (s : Stage) (l : Layout) (settings : Settings) : Job Script :=
  match s.source with
  | some path => return s.script (← s.readFunction path) l.packages settings
  | none => Job.fail s.sourceFault

/-- A function that is compiled leaves its script in the directory of scripts. -/
theorem compile_writes {s : Stage} {l : Layout} {settings : Settings} {c : CompiledStage}
    {w w' : Workspace} (hroot : Path.isAbsolute l.root = true) (hs : s.command = none)
    (h : (s.compile l settings).runOn w = (.ok c, w')) :
    ∃ script w₁, (s.makeScript l settings).runOn w = (.ok script, w₁) ∧
      w'.files.entry? (Path.place [] (l.script s.name)) = some (.file script.render.toUTF8 true) := by
  have hpath : Path.isAbsolute (l.script s.name) = true :=
    Path.isAbsolute_join (Path.isAbsolute_join hroot)
  rw [compile, hs] at h
  obtain ⟨source, _, hsource, h⟩ := Job.bind_ok h
  obtain ⟨hfound, rfl⟩ := Job.ofExcept_ok hsource
  have hpresent : s.source = some source := by
    split at hfound
    · rename_i path hpath
      exact hpath.trans (congrArg some (Except.ok.inj hfound))
    · cases hfound
  obtain ⟨f, w₁, hf, h⟩ := Job.bind_ok h
  obtain ⟨_, _, -, h⟩ := Job.bind_ok h
  obtain ⟨_, w₂, hwrite, h⟩ := Job.bind_ok h
  obtain ⟨_, w₃, hwarn, h⟩ := Job.bind_ok h
  obtain ⟨wiring, _, hwire, h⟩ := Job.bind_ok h
  obtain ⟨-, rfl⟩ := Job.ofExcept_ok hwire
  obtain ⟨-, rfl⟩ := Job.pure_ok h
  cases hwarn
  refine ⟨s.script f l.packages settings, w₁, ?_, ?_⟩
  · rw [makeScript, hpresent]
    dsimp only
    rw [Job.runOn_bind, hf]
    rfl
  · have hentry := Job.writeExecutable_ok hwrite
    rwa [Path.place_absolute hpath] at hentry

end Stage

/-! How scripts start -/

theorem isPrefix_text_append {cs : List Char} {s : String} (h : cs <+: s.toList) (t : String) :
    cs <+: (s ++ t).toList := by
  rw [String.toList_append]
  exact h.trans (List.prefix_append _ _)

/-- Scripts of stages are run by another program than the one that hands captures on. -/
theorem Script.render_ne (s : Script) (settings : Settings) :
    s.render ≠ Assembly.captureScript settings := by
  have hscript : "#!/u".toList <+: s.render.toList := by
    unfold render
    repeat' first | decide | refine isPrefix_text_append ?_ _
  have hcapture : "#!/b".toList <+: (Assembly.captureScript settings).toList := by
    exact isPrefix_text_append (isPrefix_text_append (by decide) _) _
  intro h
  rw [h] at hscript
  exact absurd (List.prefix_of_prefix_length_le hscript hcapture (by decide)) (by decide)

namespace Assembly
variable {a : Assembly} {ws ws' w : Workspace} {l : Layout} {r : AssemblyReport}
  {earlier later : List Stage} {s : Stage}

/-- The script of a stage that is compiled behind other ones. -/
def scriptAfter (a : Assembly) (earlier : List Stage) (s : Stage) : Job Script := do
  let l ← a.prepare
  let _ ← earlier.foldlM (a.addStage l) default
  s.makeScript l a.settings

/-- What is done when the stages up to one have been compiled. -/
def conclude (a : Assembly) (l : Layout) (later : List Stage) (st : AssemblyState)
    (c : CompiledStage) : Job AssemblyReport := do
  let st ← a.addCompiled l.root st c
  let st ← later.foldlM (a.addStage l) st
  a.finish l st

theorem run_split (h : a.stages = earlier ++ s :: later) : a.run = (do
    let l ← a.prepare
    let st ← earlier.foldlM (a.addStage l) default
    let c ← s.compile l a.settings
    a.conclude l later st c) := by
  rw [run_eq]
  simp only [addStages, h, List.foldlM_append, List.foldlM_cons, addStage, conclude, bind_assoc]

theorem finish_layout {st : AssemblyState} (h : (a.finish l st).runOn w = (.ok r, ws')) :
    r.layout = l := by
  obtain ⟨_, _, -, h⟩ := Job.bind_ok h
  obtain ⟨_, _, -, h⟩ := Job.bind_ok h
  rw [← (Job.pure_ok h).1]
  rfl

theorem conclude_layout {st : AssemblyState} {c : CompiledStage}
    (h : (a.conclude l later st c).runOn w = (.ok r, ws')) : r.layout = l := by
  obtain ⟨_, _, -, h⟩ := Job.bind_ok h
  obtain ⟨_, _, -, h⟩ := Job.bind_ok h
  exact finish_layout h

theorem prepare_writes (hroot : Path.isAbsolute l.root = true) (h : a.prepare.runOn ws = (.ok l, w)) :
    w.files.entry? (Path.place [] (Path.join l.scripts a.settings.captureProgram)) =
      some (.file (captureScript a.settings).toUTF8 true) := by
  rw [runOn_prepare] at h
  obtain rfl := prepareIn_ok h
  obtain ⟨_, _, -, h⟩ := Job.bind_ok h
  obtain ⟨_, _, -, h⟩ := Job.bind_ok h
  obtain ⟨_, w₁, hwrite, h⟩ := Job.bind_ok h
  obtain ⟨_, w₂, hwarn, h⟩ := Job.bind_ok h
  obtain ⟨-, rfl⟩ := Job.pure_ok h
  cases hwarn
  have hscripts : Path.isAbsolute (Layout.scripts _) = true := Path.isAbsolute_join hroot
  have hentry := Job.writeExecutable_ok hwrite
  rw [Path.place_absolute (Path.isAbsolute_join hscripts)] at hentry
  exact hentry

section
variable (hbuilder : a.builder.WritesTarget) (hroot : Path.isAbsolute l.root = true)
include hroot

theorem finish_frame (ss : List Stage) (st : AssemblyState) :
    Job.Frame (l.Writes ss) l.Passes (a.finish l st) := by
  have howned : ∀ n, Path.IsPlain n → n ≠ "bin" →
      l.Writes ss (Path.place [] (Path.join l.root n)) := by
    intro n hn hbin
    rw [Path.place_join hn]
    exact Layout.writes_of_ne List.prefix_rfl hbin
  refine .bind (.writeBytes (Path.isAbsolute_join hroot) (howned _ (by decide) (by decide)) _)
    fun _ => ?_
  exact .bind (.writeBytes (Path.isAbsolute_join hroot) (howned _ (by decide) (by decide)) _)
    fun _ => .pure _

include hbuilder

theorem stages_frame (ss : List Stage) (st : AssemblyState) :
    Job.Frame (l.Writes ss) l.Passes (ss.foldlM (a.addStage l) st) :=
  foldlM_addStage_frame (l.writes_room ss) hbuilder hroot
    (fun s hs hcommand => .inr ⟨s, hs, hcommand, rfl⟩) st

theorem conclude_frame (later : List Stage) (st : AssemblyState) (c : CompiledStage) :
    Job.Frame (l.Writes later) l.Passes (a.conclude l later st c) :=
  .bind (addCompiled_frame (l.writes_room later) hbuilder hroot st c) fun st =>
    .bind (stages_frame hbuilder hroot later st) fun st => finish_frame hroot later st

end

section
variable (hrun : a.run.runOn ws = (.ok r, ws')) (hprogram : Path.IsPlain a.settings.captureProgram)
  (hnames : ∀ s ∈ a.stages, '/' ∉ s.name.toList) (htree : ws.files.IsPlain)
  (hbuilder : a.builder.WritesTarget)
include hrun hprogram hnames htree hbuilder

/-- The script of a function is there when the pipeline has been assembled. -/
theorem run_keeps_script (hd : (a.stages.map Stage.name).Nodup)
    (hstages : a.stages = earlier ++ s :: later) (hs : s.command = none) :
    ∃ script w, (a.scriptAfter earlier s).runOn ws = (.ok script, w) ∧
      ws'.files.entry? (Path.place [] (r.layout.script s.name)) =
        some (.file script.render.toUTF8 true) := by
  rw [run_split hstages] at hrun
  obtain ⟨l, w, hprepare, hrun⟩ := Job.bind_ok hrun
  obtain ⟨st, w₁, hearlier, hrun⟩ := Job.bind_ok hrun
  obtain ⟨c, w₂, hcompile, hrun⟩ := Job.bind_ok hrun
  obtain ⟨hroot, hfirst⟩ := prepare_frame hprogram htree hprepare
  obtain ⟨script, w₃, hscript, hentry⟩ := Stage.compile_writes hroot hs hcompile
  have hlayout : r.layout = l := conclude_layout hrun
  refine ⟨script, w₃, ?_, ?_⟩
  · rw [scriptAfter, Job.runOn_bind, hprepare]
    dsimp only
    rw [Job.runOn_bind, hearlier]
    exact hscript
  -- no later stage has the name
  rw [hstages] at hnames hd
  have hfree : ¬l.Writes later (Path.place [] (l.script s.name)) := by
    have hlater : ∀ t ∈ later, '/' ∉ t.name.toList := fun t ht =>
      hnames t (List.mem_append_right _ (List.mem_cons_of_mem s ht))
    have hname : '/' ∉ s.name.toList :=
      hnames s (List.mem_append_right _ List.mem_cons_self)
    rw [Layout.script, Layout.writes_join_iff (Path.isPlain_script hname) hlater]
    intro htaken
    obtain ⟨t, ht, -, hsame⟩ := htaken
    rw [List.map_append, List.map_cons] at hd
    have hnodup := (List.nodup_cons.1 (List.nodup_append.1 hd).2.1).1
    exact hnodup ((String.append_left_inj _).1 hsame ▸ List.mem_map_of_mem ht)
  have hbefore : w₁.files.IsPlain :=
    ((stages_frame hbuilder hroot earlier default).run (hfirst.plain htree) hearlier).plain
      (hfirst.plain htree)
  have hplain : w₂.files.IsPlain :=
    ((s.compile_frame l.owns_room hroot a.settings fun _ => .script s.name).run hbefore
      hcompile).plain hbefore
  rw [hlayout]
  exact ((conclude_frame hbuilder hroot later st c).run hplain hrun).entry_eq hfree hentry

/-- The script that hands captures on is there until a stage writes its own in its place. -/
theorem run_keeps_capture (h : ∀ s ∈ a.stages, s.command = none →
      s.name ++ ".py" ≠ a.settings.captureProgram) :
    ws'.files.entry? (Path.place [] (Path.join r.layout.scripts a.settings.captureProgram)) =
      some (.file (captureScript a.settings).toUTF8 true) := by
  rw [run_eq] at hrun
  obtain ⟨l, w, hprepare, hrun⟩ := Job.bind_ok hrun
  obtain ⟨st, w₁, hstages, hrun⟩ := Job.bind_ok hrun
  obtain ⟨hroot, hfirst⟩ := prepare_frame hprogram htree hprepare
  have hplain := hfirst.plain htree
  have hrest := ((stages_frame hbuilder hroot a.stages default).run hplain hstages)
  have hlast := (finish_frame hroot a.stages st).run (hrest.plain hplain) hrun
  rw [finish_layout hrun]
  refine (hrest.trans hlast).entry_eq ?_ (prepare_writes hroot hprepare)
  rw [Layout.writes_join_iff hprogram hnames]
  intro htaken
  obtain ⟨s, hs, hcommand, hname⟩ := htaken
  exact h s hs hcommand hname

/-- A stage whose script has the name of the one that hands captures on takes its place. -/
theorem run_keeps_capture_iff (hd : (a.stages.map Stage.name).Nodup) :
    ws'.files.entry? (Path.place [] (Path.join r.layout.scripts a.settings.captureProgram)) =
        some (.file (captureScript a.settings).toUTF8 true) ↔
      ∀ s ∈ a.stages, s.command = none → s.name ++ ".py" ≠ a.settings.captureProgram := by
  refine ⟨fun hcapture s hs hcommand hname => ?_,
    run_keeps_capture hrun hprogram hnames htree hbuilder⟩
  obtain ⟨earlier, later, hstages⟩ := List.append_of_mem hs
  obtain ⟨script, w, -, hscript⟩ :=
    run_keeps_script hrun hprogram hnames htree hbuilder hd hstages hcommand
  rw [← hname] at hcapture
  have hsame : some (FileEntry.file script.render.toUTF8 true) =
      some (.file (captureScript a.settings).toUTF8 true) := hscript.symm.trans hcapture
  simp only [Option.some.injEq, FileEntry.file.injEq, and_true] at hsame
  exact script.render_ne a.settings (String.toByteArray_inj.1 hsame)

/-- When a pipeline has been assembled, every function has its script in the directory of scripts.
The one that hands captures on is there, too, but for a stage whose script has its name. -/
theorem run_artifacts (hd : (a.stages.map Stage.name).Nodup) :
    (∀ earlier s later, a.stages = earlier ++ s :: later → s.command = none →
      ∃ script w, (a.scriptAfter earlier s).runOn ws = (.ok script, w) ∧
        ws'.files.entry? (Path.place [] (r.layout.script s.name)) =
          some (.file script.render.toUTF8 true)) ∧
    (ws'.files.entry? (Path.place [] (Path.join r.layout.scripts a.settings.captureProgram)) =
        some (.file (captureScript a.settings).toUTF8 true) ↔
      ∀ s ∈ a.stages, s.command = none → s.name ++ ".py" ≠ a.settings.captureProgram) :=
  ⟨fun _ _ _ => run_keeps_script hrun hprogram hnames htree hbuilder hd,
    run_keeps_capture_iff hrun hprogram hnames htree hbuilder hd⟩

end

/-! Pipelines of one function -/

def tabulating (name : String) : Assembly where
  location := "pipeline"
  settings := .standard
  params := []
  builder := fun _ _ => pure ()
  stages := [Stage.simple name "capture.py"]

def tableSpace : Workspace where
  files := ⟨[(["capture.py"], .file "def process(a): 0\n".toUTF8 false)]⟩
  here := []
  warnings := []
  output := .empty

theorem idle_writesTarget : Container.Builder.WritesTarget fun _ _ => pure () :=
  fun _ _ _ _ _ => rfl

theorem exists_run_of_isSome
    (h : (a.run.runOn ws).1.toOption.isSome) : ∃ r ws', a.run.runOn ws = (.ok r, ws') := by
  cases hrun : a.run.runOn ws with
  | mk result w =>
    rw [hrun] at h
    cases result with
    | error e => cases h
    | ok r => exact ⟨r, w, rfl⟩

theorem run_artifacts_count : ∃ r ws', (tabulating "count").run.runOn tableSpace = (.ok r, ws') ∧
    (∃ script w,
      ((tabulating "count").scriptAfter [] (Stage.simple "count" "capture.py")).runOn tableSpace =
        (.ok script, w) ∧
      ws'.files.entry? (Path.place [] (r.layout.script "count")) =
        some (.file script.render.toUTF8 true)) ∧
    ws'.files.entry? (Path.place [] (Path.join r.layout.scripts "captureIntoNotebook.py")) =
      some (.file (captureScript .standard).toUTF8 true) := by
  obtain ⟨r, ws', hrun⟩ : ∃ r ws', (tabulating "count").run.runOn tableSpace = (.ok r, ws') :=
    exists_run_of_isSome (by decide +kernel)
  obtain ⟨hscripts, hcapture⟩ := run_artifacts hrun (by decide) (by decide) (by decide)
    idle_writesTarget (by decide)
  exact ⟨r, ws', hrun, hscripts [] _ [] rfl rfl, hcapture.2 (by decide)⟩

/-- The script of this stage has the name of the one that hands captures on. -/
theorem captureIntoNotebook_taken :
    (Path.IsPlain (tabulating "captureIntoNotebook").settings.captureProgram ∧
      (∀ s ∈ (tabulating "captureIntoNotebook").stages, Path.IsPlain s.name) ∧
      ((tabulating "captureIntoNotebook").stages.map Stage.name).Nodup) ∧
    ∃ r ws', (tabulating "captureIntoNotebook").run.runOn tableSpace = (.ok r, ws') ∧
      ws'.files.entry? (Path.place [] (Path.join r.layout.scripts
          (tabulating "captureIntoNotebook").settings.captureProgram)) ≠
        some (.file (captureScript (tabulating "captureIntoNotebook").settings).toUTF8 true) := by
  obtain ⟨r, ws', hrun⟩ :
      ∃ r ws', (tabulating "captureIntoNotebook").run.runOn tableSpace = (.ok r, ws') :=
    exists_run_of_isSome (by decide +kernel)
  refine ⟨by decide, r, ws', hrun, fun hcapture => ?_⟩
  rw [run_keeps_capture_iff hrun (by decide) (by decide) (by decide) idle_writesTarget (by decide)]
    at hcapture
  exact hcapture _ List.mem_cons_self rfl rfl

end Assembly
end Pipewright
