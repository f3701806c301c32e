import Mathlib.Data.List.Forall2
import Pipewright.Proofs.Container.Names
import Pipewright.Proofs.Pipeline.Steps
import Pipewright.Proofs.Stage.Compiled

/-! The images of a pipeline: the calls for them, and what the settings of its processes name. -/
namespace Pipewright.Assembly
open Container
variable {a : Assembly} {layout : Layout} {st st' : AssemblyState} {ws ws' : Workspace}
  {isFile : String → Bool}

/-! Calls -/

def callOf (a : Assembly) (c : CompiledStage) (w : Workspace) : List Call :=
  c.container.toList.map fun reference => ⟨a.builder, reference, w⟩

/-- The calls for images while stages are added, each with what it works on. -/
def stageCalls (a : Assembly) (layout : Layout) :
    AssemblyState → List Stage → Workspace → List Call
  | _, [], _ => []
  | st, s :: ss, w =>
    match (s.compile layout a.settings).runOn w with
    | (.error _, _) => []
    | (.ok c, w₁) =>
      a.callOf c w₁ ++
        match (a.addCompiled layout.root st c).runOn w₁ with
        | (.error _, _) => []
        | (.ok st', w₂) => stageCalls a layout st' ss w₂

/-- The calls for images while a pipeline is assembled. -/
def calls (a : Assembly) (ws : Workspace) : List Call :=
  match a.prepare.runOn ws with
  | (.error _, _) => []
  | (.ok layout, w) => a.stageCalls layout default a.stages w

theorem stageCalls_cons {s : Stage} {ss : List Stage} {c : CompiledStage} {w w₁ w₂ : Workspace}
    (hc : (s.compile layout a.settings).runOn w = (.ok c, w₁))
    (hst : (a.addCompiled layout.root st c).runOn w₁ = (.ok st', w₂)) :
    a.stageCalls layout st (s :: ss) w = a.callOf c w₁ ++ a.stageCalls layout st' ss w₂ := by
  rw [stageCalls, hc]
  simp only [hst]

/-! Settings -/

/-- The settings of the process of a stage, with the image for its container. -/
def settingsWith (image : String → String) (s : Stage) : String × List (String × Literal) :=
  (s.name, (s.processSettings.filter fun p => p.1 ≠ "container") ++
    (s.image?.map fun reference => ("container", .str (image reference))).toList)

/-- The images of references are noted in turn. -/
def noteImages (image : String → String) (containers : List (String × String))
    (references : List String) : List (String × String) :=
  references.foldl (fun known r => addContainer known r (image r)) containers

theorem mem_noteImages {image : String → String} {containers : List (String × String)}
    {references : List String} (h : ∀ e ∈ containers, e.2 = image e.1) :
    ∀ e ∈ noteImages image containers references, e.2 = image e.1 := by
  induction references generalizing containers with
  | nil => exact h
  | cons r rs ih =>
    refine ih fun e he => ?_
    change e ∈ addContainer containers r (image r) at he
    rw [addContainer] at he
    split at he
    · exact h e he
    · rcases List.mem_append.1 he with he | he
      · exact h e he
      · cases List.mem_singleton.1 he
        rfl

/-- Each reference is noted once, with its image. -/
theorem noteImages_nil (image : String → String) (references : List String) :
    noteImages image [] references = references.eraseDups.map fun r => (r, image r) := by
  have hnames : (noteImages image [] references).map Prod.fst = references.eraseDups := by
    have hstep : ∀ (known : List (String × String)) r,
        (addContainer known r (image r)).map Prod.fst =
          if id r ∈ known.map Prod.fst then known.map Prod.fst
          else known.map Prod.fst ++ [id r] := by
      intro known r
      rw [addContainer, id_eq]
      cases hg : Entries.get? r known with
      | some v =>
        have hmem := List.mem_map_of_mem (f := Prod.fst) (Entries.mem_of_get? hg)
        simp [hmem]
      | none =>
        rw [if_neg (Entries.get?_eq_none_iff.1 hg)]
        simp
    have h := Entries.names_foldl hstep references
    rwa [List.map_id] at h
  have hvalues : ∀ e ∈ noteImages image [] references, e.2 = image e.1 :=
    mem_noteImages (List.forall_mem_nil _)
  rw [← hnames, List.map_map]
  exact (List.map_id _).symm.trans (List.map_congr_left fun e he => Prod.ext rfl (hvalues e he))

/-- A compiled stage is added: if it has a container, by a call for its image. -/
theorem addCompiled_ok {root : String} {c : CompiledStage}
    (h : (a.addCompiled root st c).runOn ws = (.ok st', ws')) :
    (c.container = none → st'.images = st.images ∧ st'.containers = st.containers ∧
      st'.processSettings = st.processSettings ++ [(c.name, c.settings)]) ∧
    ∀ reference, c.container = some reference → ∃ image,
      (Call.mk a.builder reference ws).outcome root st.images = .ok (image, st'.images) ∧
      st'.containers = addContainer st.containers reference image ∧
      st'.processSettings = st.processSettings ++
        [(c.name, c.settings ++ [("container", .str image)])] := by
  obtain ⟨r, w, hr, h⟩ := Job.bind_ok h
  obtain ⟨rfl, -⟩ := Job.pure_ok h
  rw [addImage] at hr
  constructor
  · intro hc
    rw [hc] at hr
    obtain ⟨rfl, -⟩ := Job.pure_ok hr
    exact ⟨rfl, rfl, rfl⟩
  · intro reference hc
    rw [hc] at hr
    obtain ⟨⟨image, images⟩, w', hi, hr⟩ := Job.bind_ok hr
    obtain ⟨rfl, -⟩ := Job.pure_ok hr
    refine ⟨image, ?_, rfl, rfl⟩
    rw [Call.outcome, hi]

/-- The answer to a call is among the events that the session is sound about. -/
theorem settled_of_outcome {dir image : String} {images : Cache} {S : Session} {q : Call}
    (hS : S.Sound dir isFile) (hq : q.isFile = isFile q.reference)
    (h : q.outcome dir S.cache = .ok (image, images)) :
    image = Session.settled dir isFile q.reference ∧ (S.call dir q).cache = images := by
  have hanswer : ⟨q.reference, q.asked? dir S.cache, .ok image⟩ ∈ (S.call dir q).events := by
    rw [Session.call, h]
    exact List.mem_append_right _ (List.mem_singleton_self _)
  refine ⟨(hS.call hq).answers _ hanswer image rfl, ?_⟩
  rw [Session.call, h]
  rfl

/-- A stage that is added notes the image of its container and puts it into the settings of its
process. -/
theorem addStage_images {s : Stage} {c : CompiledStage} {w₁ : Workspace} {S : Session}
    (hS : S.Sound layout.root isFile) (hcache : S.cache = st.images)
    (hc : (s.compile layout a.settings).runOn ws = (.ok c, w₁))
    (h : (a.addCompiled layout.root st c).runOn w₁ = (.ok st', ws'))
    (hfile : ∀ q ∈ a.callOf c w₁, q.isFile = isFile q.reference) :
    (∃ S' : Session, S'.Sound layout.root isFile ∧ S'.cache = st'.images) ∧
    st'.containers = noteImages (Session.settled layout.root isFile) st.containers
      s.image?.toList ∧
    st'.processSettings = st.processSettings ++
      [settingsWith (Session.settled layout.root isFile) s] := by
  obtain ⟨hname, hcontainer, hsettings⟩ := Stage.CompilesTo.kept ⟨ws, w₁, hc⟩
  obtain ⟨hplain, himage⟩ := addCompiled_ok h
  rw [hcontainer] at hplain himage
  cases hi : s.image? with
  | none =>
    obtain ⟨himages, hcontainers, hprocess⟩ := hplain hi
    refine ⟨⟨S, hS, hcache.trans himages.symm⟩, hcontainers, ?_⟩
    rw [hprocess, hname, hsettings]
    simp [settingsWith, hi]
  | some reference =>
    obtain ⟨image, hout, hcontainers, hprocess⟩ := himage reference hi
    have hq := hfile ⟨a.builder, reference, w₁⟩ (by simp [callOf, hcontainer, hi])
    obtain ⟨rfl, hnext⟩ := settled_of_outcome hS hq (hcache ▸ hout)
    refine ⟨⟨_, hS.call hq, hnext⟩, hcontainers, ?_⟩
    rw [hprocess, hname, hsettings]
    simp [settingsWith, hi]

/-- Stages that are added one after the other note the images of their containers in turn, and put
them into the settings of their processes. -/
theorem addStages_images {ss : List Stage} {S : Session} (hS : S.Sound layout.root isFile)
    (hcache : S.cache = st.images)
    (h : (ss.foldlM (a.addStage layout) st).runOn ws = (.ok st', ws'))
    (hfile : ∀ q ∈ a.stageCalls layout st ss ws, q.isFile = isFile q.reference) :
    st'.containers = noteImages (Session.settled layout.root isFile) st.containers
      (ss.filterMap Stage.image?) ∧
    st'.processSettings = st.processSettings ++
      ss.map (settingsWith (Session.settled layout.root isFile)) := by
  induction ss generalizing st ws S with
  | nil =>
    obtain ⟨rfl, -⟩ := Job.pure_ok h
    exact ⟨rfl, (List.append_nil _).symm⟩
  | cons s ss ih =>
    rw [List.foldlM_cons] at h
    obtain ⟨st₁, w₂, hs, h⟩ := Job.bind_ok h
    obtain ⟨c, w₁, hc, hs⟩ := Job.bind_ok hs
    rw [stageCalls_cons hc hs] at hfile
    obtain ⟨hcall, hrest⟩ := List.forall_mem_append.1 hfile
    obtain ⟨⟨S', hS', hcache'⟩, hcontainers, hprocess⟩ := addStage_images hS hcache hc hs hcall
    obtain ⟨ihcontainers, ihprocess⟩ := ih hS' hcache' h hrest
    constructor
    · have himages : (s :: ss).filterMap Stage.image? =
          s.image?.toList ++ ss.filterMap Stage.image? := by
        cases hi : s.image? <;> simp [hi]
      rw [ihcontainers, hcontainers, himages, noteImages, noteImages, noteImages,
        List.foldl_append]
    · rw [ihprocess, hprocess, List.append_assoc]
      rfl

/-- A process whose settings name the image that is noted for the container of its stage, and no
other one. -/
structure NamesImage (containers : List (String × String)) (s : Stage)
    (p : String × List (String × Literal)) : Prop where
  name : p.1 = s.name
  bare : s.image? = none → "container" ∉ p.2.map Prod.fst
  image : ∀ reference, s.image? = some reference →
    ∃ image, Entries.get? reference containers = some image ∧
      p.2.filter (fun e => e.1 = "container") = [("container", .str image)]

theorem namesImage_settingsWith {image : String → String} {references : List String} {s : Stage}
    (h : ∀ r, s.image? = some r → r ∈ references) :
    NamesImage (references.eraseDups.map fun r => (r, image r)) s (settingsWith image s) := by
  have hplain : (s.processSettings.filter fun p => p.1 ≠ "container").filter
      (fun e => e.1 = "container") = [] := by
    simp [List.filter_filter]
  refine ⟨rfl, fun hs hmem => ?_, fun reference hs => ⟨image reference, ?_, ?_⟩⟩
  · simp [settingsWith, hs] at hmem
  · have hd : ((references.eraseDups.map fun r => (r, image r)).map Prod.fst).Nodup := by
      rw [List.map_map]
      exact (List.map_id _).symm ▸ Entries.nodup_eraseDups references
    exact Entries.get?_of_mem hd
      (List.mem_map_of_mem (f := fun r => (r, image r)) (List.mem_eraseDups.2 (h reference hs)))
  · rw [settingsWith, hs, List.filter_append, hplain]
    rfl

/-- Where references are files or not once and for all, every reference has one image: a session of
calls is sound, and what is built lies right inside the directory. A call that asks the builder
answers as the build ends; if it fails, the cache is left as it was. The processes of an assembled
pipeline name the images that are reported, each reference once. -/
theorem images_settled (isFile : String → Bool) :
    (∀ dir (qs : List Call), (∀ q ∈ qs, q.isFile = isFile q.reference) →
      (Session.run dir qs).Sound dir isFile ∧
      ∀ r p, Entries.get? r (Session.run dir qs).cache = some p →
        Path.IsInside dir (imageFileName r) p) ∧
    (∀ dir (S : Session) (q : Call), q.asked? dir S.cache ≠ none →
      (S.call dir q).events = S.events ++ [⟨q.reference, q.asked? dir S.cache,
        (q.build dir).map fun _ => imagePath dir q.reference⟩] ∧
      ∀ e, q.build dir = .error e → (S.call dir q).cache = S.cache) ∧
    ∀ (a : Assembly) ws r ws', a.run.runOn ws = (.ok r, ws') →
      (∀ q ∈ a.calls ws, q.isFile = isFile q.reference) →
      (r.containers.map Prod.fst).Nodup ∧
      (∀ reference, reference ∈ r.containers.map Prod.fst ↔
        ∃ s ∈ a.stages, s.image? = some reference) ∧
      ∃ config : WorkflowConfig, List.Forall₂ (NamesImage r.containers) a.stages config.processes ∧
        ws'.files.readBytes ws'.here r.layout.config = .ok config.render.toUTF8 := by
  refine ⟨fun dir qs hqs => ?_, fun dir S q hasked => ?_, fun a ws r ws' hrun hcalls => ?_⟩
  · have hsound := Session.sound_run dir isFile hqs
    refine ⟨hsound, fun r p hp => ?_⟩
    obtain ⟨-, rfl, -⟩ := (hsound.cached r p).1 hp
    exact Path.isInside_join dir (isPlain_imageFileName r)
  · have hout := Session.outcome_of_asked hasked
    constructor
    · rw [Session.call, hout]
      cases q.build dir <;> simp only [Except.map]
    · intro e he
      rw [Session.call, hout, he]
      rfl
  · obtain ⟨st, w, w', hprepare, hst, hr, -, hconfig⟩ := run_steps hrun
    rw [calls, hprepare] at hcalls
    have hstart : (⟨[], []⟩ : Session).Sound r.layout.root isFile :=
      Session.sound_run _ isFile (List.forall_mem_nil _)
    obtain ⟨hcontainers, hprocess⟩ := addStages_images hstart rfl hst hcalls
    have hnoted : r.containers = ((a.stages.filterMap Stage.image?).eraseDups.map fun reference =>
        (reference, Session.settled r.layout.root isFile reference)) := by
      rw [← noteImages_nil, hr]
      exact hcontainers
    have hnames : r.containers.map Prod.fst = (a.stages.filterMap Stage.image?).eraseDups := by
      rw [hnoted, List.map_map]
      exact List.map_id _
    refine ⟨hnames ▸ Entries.nodup_eraseDups _, fun reference => ?_, a.config st, ?_, hconfig⟩
    · rw [hnames, List.mem_eraseDups, List.mem_filterMap]
    · have hall : (a.config st).processes = a.stages.map
          (settingsWith (Session.settled r.layout.root isFile)) := hprocess
      rw [hall, hnoted, List.forall₂_map_right_iff, List.forall₂_same]
      exact fun s hs => namesImage_settingsWith fun reference hi =>
        List.mem_filterMap.2 ⟨s, hs, hi⟩

/-! A pipeline with a shared image and one that is a file -/

def echoing (name container : String) : Stage :=
  { Stage.simple name "" with
    source := none
    command := some "echo"
    inputs := some []
    container := some container }

def contained : Assembly where
  location := "out"
  settings := .standard
  params := []
  builder := Session.labelling
  stages := [echoing "first" "docker://org/tool:1", echoing "second" "local.sif",
    echoing "third" "docker://org/tool:1"]

def withImage : Workspace := ⟨⟨[(["local.sif"], .file "".toUTF8 false)]⟩, [], [], .empty⟩

/-- A build that is refused, two calls after it, and a call for a file. -/
def retried : List Call :=
  [⟨refusing, "docker://org/tool:1", withImage⟩, ⟨Session.labelling, "docker://org/tool:1", withImage⟩,
    ⟨refusing, "docker://org/tool:1", withImage⟩, ⟨refusing, "local.sif", withImage⟩]

theorem images_settled_contained :
    (Session.run "/" retried).Sound "/" (· == "local.sif") ∧
    ∃ r ws', contained.run.runOn withImage = (.ok r, ws') ∧
      r.containers = [("docker://org/tool:1", "/out/org_tool_1.sif"), ("local.sif", "local.sif")] ∧
      (r.containers.map Prod.fst).Nodup := by
  obtain ⟨hcalls, hbuilt, hrun⟩ := images_settled (· == "local.sif")
  refine ⟨(hcalls "/" retried (by decide +kernel)).1, ?_⟩
  have hs : ((contained.run.runOn withImage).1.toOption.map AssemblyReport.containers) =
      some [("docker://org/tool:1", "/out/org_tool_1.sif"), ("local.sif", "local.sif")] := by
    decide +kernel
  cases h : contained.run.runOn withImage with
  | mk result ws' =>
    rw [h] at hs
    cases result with
    | error e => cases hs
    | ok r =>
      have hfile : ∀ q ∈ contained.calls withImage, q.isFile = (q.reference == "local.sif") := by
        decide +kernel
      exact ⟨r, ws', rfl, Option.some.inj hs, (hrun contained withImage r ws' h hfile).1⟩

end Pipewright.Assembly
