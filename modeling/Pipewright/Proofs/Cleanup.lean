import Pipewright.Cleanup
import Pipewright.Proofs.Storage.Directories
import Pipewright.Proofs.Storage.Frames

/-! What a cleanup removes: the leftovers of runs right inside a directory and inside the pipeline in
it, and nothing else. -/
namespace Pipewright.Cleanup
variable {w w' : Workspace} {t t' : FileTree} {dir p q place : Place} {n location path : String}

/-- A name of what runs leave behind. -/
def IsLeftover (n : String) : Prop :=
  ['.'] <+: n.toList ∨ n = "work" ∨ n = "notebook_files" ∨ ∃ s ∈ suffixes, s.toList <:+ n.toList

theorem isLeftover_iff : isLeftover n = true ↔ IsLeftover n := by
  have hdot : n.toList.head? = some '.' ↔ ['.'] <+: n.toList := by
    cases n.toList <;> simp [eq_comm]
  have hlength : ∀ s ∈ suffixes, s.toList.length = 4 := by decide
  have hsuffix : String.ofList (n.toList.drop (n.toList.length - 4)) ∈ suffixes ↔
      ∃ s ∈ suffixes, s.toList <:+ n.toList := by
    constructor
    · intro h
      exact ⟨_, h, by simpa using List.drop_suffix _ n.toList⟩
    · intro ⟨s, hs, hends⟩
      rw [List.suffix_iff_eq_drop, hlength s hs] at hends
      rwa [← hends, String.ofList_toList]
  simp [isLeftover, IsLeftover, hdot, hsuffix, directories, or_assoc]

theorem not_isLeftover_pipeline : ¬IsLeftover "pipeline" := by
  rw [← isLeftover_iff]
  decide

/-! One directory -/

/-- What is left behind right inside a directory, with all below it. -/
def Left (t : FileTree) (dir p : Place) : Prop :=
  ∃ n, IsLeftover n ∧ t.entry? (dir ++ [n]) ≠ none ∧ dir ++ [n] <+: p

/-- The names of what is left behind in a directory. -/
def leftovers (t : FileTree) (dir : Place) : List String := (t.children dir).filter isLeftover

theorem mem_leftovers : n ∈ leftovers t dir ↔ IsLeftover n ∧ t.entry? (dir ++ [n]) ≠ none := by
  rw [leftovers, List.mem_filter, FileTree.mem_children, isLeftover_iff, and_comm]

theorem left_iff : Left t dir p ↔ ∃ n ∈ leftovers t dir, dir ++ [n] <+: p := by
  simp only [mem_leftovers, and_assoc]
  exact Iff.rfl

theorem not_left_self : ¬Left t dir dir := by
  intro ⟨n, _, _, h⟩
  have hlength := h.length_le
  rw [List.length_append, List.length_singleton] at hlength
  omega

theorem not_left_pipeline : ¬Left t dir (dir ++ "pipeline" :: p) := by
  intro ⟨n, hn, _, h⟩
  obtain ⟨rfl, -⟩ := List.cons_prefix_cons.1 ((List.prefix_append_right_inj dir).1 h)
  exact not_isLeftover_pipeline hn

/-- The tree without what is left behind in a directory. -/
def cleaned (t : FileTree) (dir : Place) : FileTree :=
  (leftovers t dir).foldl (fun t n => t.erase (dir ++ [n])) t

theorem without_cleaned (t : FileTree) (dir : Place) :
    FileTree.Without (Left t dir) t (cleaned t dir) :=
  (FileTree.without_foldl_erase t dir _).congr fun _ => left_iff.symm

theorem runOn_removeFrom (h : w.files.openDirectory w.here path = .ok dir) :
    (removeFrom path).runOn w = (.ok ((leftovers w.files dir).map (Path.join path)),
      { w with files := cleaned w.files dir }) := by
  rw [removeFrom, Job.runOn_bind, Job.ask, Job.runOn_askOr, h]
  rfl

theorem openDirectory_of_removeFrom {paths : List String}
    (h : (removeFrom path).runOn w = (.ok paths, w')) :
    ∃ dir, w.files.openDirectory w.here path = .ok dir := by
  obtain ⟨dir, w₁, hask, -⟩ := Job.bind_ok h
  rw [Job.ask, Job.runOn_askOr] at hask
  cases hopen : w.files.openDirectory w.here path with
  | ok dir => exact ⟨dir, rfl⟩
  | error e =>
    rw [hopen] at hask
    cases hask

/-- The paths of what is left behind in a directory, in the order of the names. -/
def Lists (t : FileTree) (here dir : Place) (path : String) (paths : List String) : Prop :=
  ∃ ns : List String, paths = ns.map (Path.join path) ∧ ns.Pairwise (· < ·) ∧
    (∀ n, n ∈ ns ↔ IsLeftover n ∧ t.entry? (dir ++ [n]) ≠ none) ∧
    ∀ n ∈ ns, Path.place here (Path.join path n) = dir ++ [n]

theorem lists_leftovers (ht : t.IsPlain) (here : Place) (hdir : Path.place here path = dir)
    (hsame : ∀ n, t'.entry? (dir ++ [n]) = t.entry? (dir ++ [n])) :
    Lists t here dir path ((leftovers t' dir).map (Path.join path)) := by
  have hmem : ∀ n, n ∈ leftovers t' dir ↔ IsLeftover n ∧ t.entry? (dir ++ [n]) ≠ none := by
    intro n
    rw [mem_leftovers, hsame]
  refine ⟨_, rfl, (t'.pairwise_children dir).filter _, hmem, fun n hn => ?_⟩
  have hplain : Path.IsPlain n := FileTree.isPlain_iff.1 ht _ ((hmem n).1 hn).2 n (by simp)
  rw [Path.place_join hplain, hdir]

theorem left_congr (hsame : ∀ n, t'.entry? (dir ++ [n]) = t.entry? (dir ++ [n])) :
    Left t' dir p ↔ Left t dir p := by
  simp only [Left, hsame]

/-- Nothing is left behind where all of it is gone. -/
theorem leftovers_eq_nil {gone : Place → Prop} (h : FileTree.Without gone t t')
    (hgone : ∀ q, Left t dir q → gone q) : leftovers t' dir = [] := by
  refine List.eq_nil_iff_forall_not_mem.2 fun n hn => ?_
  obtain ⟨hname, hthere⟩ := mem_leftovers.1 hn
  by_cases hq : gone (dir ++ [n])
  · exact hthere ((h _).1 hq)
  · rw [(h _).2 hq] at hthere
    exact hq (hgone _ ⟨n, hname, hthere, List.prefix_rfl⟩)

/-! A directory and the pipeline in it -/

/-- Whether the pipeline in a directory is cleaned. -/
def Asked (t : FileTree) (dir : Place) (withPipeline : Bool) : Prop :=
  withPipeline = true ∧ t.entry? (dir ++ ["pipeline"]) = some .directory

/-- What a cleanup of a directory removes. -/
def Gone (t : FileTree) (dir : Place) (withPipeline : Bool) (p : Place) : Prop :=
  Left t dir p ∨ Asked t dir withPipeline ∧ Left t (dir ++ ["pipeline"]) p

/-- A cleanup removes what is left behind and nothing else, tells the paths of that in order, and
leaves nothing for a second one. -/
def Exact (w : Workspace) (location : String) (withPipeline : Bool) (dir : Place) : Prop :=
  ∃ first second t,
    (run location withPipeline).runOn w = (.ok (first ++ second), { w with files := t }) ∧
    Lists w.files w.here dir location first ∧
    (Asked w.files dir withPipeline →
      Lists w.files w.here (dir ++ ["pipeline"]) (Path.join location "pipeline") second) ∧
    (¬Asked w.files dir withPipeline → second = []) ∧
    FileTree.Without (Gone w.files dir withPipeline) w.files t ∧
    (run location withPipeline).runOn { w with files := t } = (.ok [], { w with files := t })

section
variable {withPipeline : Bool}

theorem isDirectory_pipeline_iff
    (hkept : (cleaned w.files dir).openDirectory w.here location = .ok dir) :
    (cleaned w.files dir).isDirectory w.here (Path.join location "pipeline") = true ↔
      w.files.entry? (dir ++ ["pipeline"]) = some .directory := by
  obtain ⟨-, -, hplace, -⟩ := FileTree.openDirectory_ok_iff.1 hkept
  have hsame := (without_cleaned w.files dir _).2 (not_left_pipeline (p := []))
  rw [FileTree.isDirectory_iff, Path.place_join (by decide), ← hplace,
    FileTree.openDirectory_join (by decide) hkept, hsame]

/-- A cleanup goes on to the pipeline if it is asked to and finds one. -/
theorem runOn_run (hopen : w.files.openDirectory w.here location = .ok dir) :
    (run location withPipeline).runOn w =
      if withPipeline &&
          (cleaned w.files dir).isDirectory w.here (Path.join location "pipeline") then
        ((leftovers w.files dir).map (Path.join location) ++ ·) <$>
            removeFrom (Path.join location "pipeline")
          |>.runOn { w with files := cleaned w.files dir }
      else
        (.ok ((leftovers w.files dir).map (Path.join location)),
          { w with files := cleaned w.files dir }) := by
  have hlook : ∀ path (v : Workspace), (Job.isDirectory path).runOn v =
      (.ok (v.files.isDirectory v.here path), v) := fun _ _ => rfl
  rw [run, Job.runOn_bind, runOn_removeFrom hopen]
  dsimp only
  rw [Job.runOn_bind, hlook]
  dsimp only
  split
  · rw [map_eq_pure_bind]
  · rfl

variable (hopen : w.files.openDirectory w.here location = .ok dir)
  (hkept : (cleaned w.files dir).openDirectory w.here location = .ok dir)
include hopen hkept

theorem runOn_run_of_asked (hasked : Asked w.files dir withPipeline) :
    (run location withPipeline).runOn w =
      (.ok ((leftovers w.files dir).map (Path.join location) ++
        (leftovers (cleaned w.files dir) (dir ++ ["pipeline"])).map
          (Path.join (Path.join location "pipeline"))),
      { w with files := cleaned (cleaned w.files dir) (dir ++ ["pipeline"]) }) := by
  have hpipeline := (FileTree.openDirectory_join (n := "pipeline") (by decide) hkept).2
    (((without_cleaned w.files dir _).2 (not_left_pipeline (p := []))).trans hasked.2)
  rw [runOn_run hopen, hasked.1, (isDirectory_pipeline_iff hkept).2 hasked.2, Bool.and_self,
    if_pos rfl, map_eq_pure_bind, Job.runOn_bind, runOn_removeFrom hpipeline]
  rfl

theorem runOn_run_of_not_asked (hasked : ¬Asked w.files dir withPipeline) :
    (run location withPipeline).runOn w =
      (.ok ((leftovers w.files dir).map (Path.join location)),
      { w with files := cleaned w.files dir }) := by
  rw [runOn_run hopen]
  refine if_neg fun h => ?_
  obtain ⟨hwith, hdir⟩ := Bool.and_eq_true_iff.1 h
  exact hasked ⟨hwith, (isDirectory_pipeline_iff hkept).1 hdir⟩

end

section
variable {withPipeline : Bool}

theorem not_gone_self : ¬Gone t dir withPipeline dir := by
  intro h
  obtain h | ⟨-, n, -, -, h⟩ := h
  · exact not_left_self h
  · have hlength := h.length_le
    simp only [List.length_append, List.length_singleton] at hlength
    omega

theorem not_gone_pipeline : ¬Gone t dir withPipeline (dir ++ ["pipeline"]) := by
  intro h
  obtain h | ⟨-, h⟩ := h
  · exact not_left_pipeline h
  · exact not_left_self h

/-- The path of a directory enters nothing that its cleanup removes. -/
def Spared (w : Workspace) (location : String) (withPipeline : Bool) (dir : Place) : Prop :=
  ∀ q ∈ Place.entered (FileTree.start w.here location) (Path.steps location),
    ¬Gone w.files dir withPipeline q

/-- A path without steps up enters nothing right inside the directory that it leads to. -/
theorem spared_of_no_step_up (hplace : Path.place w.here location = dir)
    (hup : ".." ∉ Path.steps location) : Spared w location withPipeline dir := by
  intro q hq hgone
  have hway : q <+: dir := hplace ▸ Place.mem_entered_of_plain hup hq
  have hlength := hway.length_le
  obtain ⟨n, -, -, h⟩ | ⟨-, n, -, -, h⟩ := hgone
  · have hlonger := h.length_le
    simp only [List.length_append, List.length_singleton] at hlonger
    omega
  · have hlonger := h.length_le
    simp only [List.length_append, List.length_singleton] at hlonger
    omega

variable (hopen : w.files.openDirectory w.here location = .ok dir)
include hopen

/-- Where all that a cleanup removes is gone, it removes nothing. -/
theorem run_again (h : FileTree.Without (Gone w.files dir withPipeline) w.files t)
    (hspared : Spared w location withPipeline dir) :
    (run location withPipeline).runOn { w with files := t } = (.ok [], { w with files := t }) := by
  have hopen' : t.openDirectory w.here location = .ok dir :=
    (h.openDirectory_iff not_gone_self hopen).2 hspared
  have hnone : leftovers t dir = [] := leftovers_eq_nil h fun q hq => .inl hq
  have hclean : cleaned t dir = t := by
    rw [cleaned, hnone]
    rfl
  by_cases hasked : Asked t dir withPipeline
  · have hdir : t.entry? (dir ++ ["pipeline"]) = w.files.entry? (dir ++ ["pipeline"]) :=
      (h _).2 not_gone_pipeline
    have hasked' : Asked w.files dir withPipeline := ⟨hasked.1, hdir ▸ hasked.2⟩
    have hnone' : leftovers t (dir ++ ["pipeline"]) = [] :=
      leftovers_eq_nil h fun q hq => .inr ⟨hasked', hq⟩
    rw [runOn_run_of_asked (w := { w with files := t }) hopen' (hclean.symm ▸ hopen') hasked]
    dsimp only
    rw [hclean, hnone, hnone', cleaned, hnone']
    rfl
  · rw [runOn_run_of_not_asked (w := { w with files := t }) hopen' (hclean.symm ▸ hopen') hasked]
    dsimp only
    rw [hclean, hnone]
    rfl

theorem exact_of_spared (htree : w.files.IsPlain)
    (hspared : Spared w location withPipeline dir) : Exact w location withPipeline dir := by
  obtain ⟨-, -, hplace, -⟩ := FileTree.openDirectory_ok_iff.1 hopen
  have hfirst := without_cleaned w.files dir
  have hkept := (hfirst.openDirectory_iff not_left_self hopen).2
    fun q hq hleft => hspared q hq (.inl hleft)
  have hlists := lists_leftovers htree w.here hplace.symm fun _ => rfl
  by_cases hasked : Asked w.files dir withPipeline
  · have hsame : ∀ n, FileTree.entry? (cleaned w.files dir) (dir ++ ["pipeline"] ++ [n]) =
        w.files.entry? (dir ++ ["pipeline"] ++ [n]) := fun n => by
      rw [List.append_assoc]
      exact (hfirst _).2 not_left_pipeline
    have hgone : FileTree.Without (Gone w.files dir withPipeline) w.files
        (cleaned (cleaned w.files dir) (dir ++ ["pipeline"])) :=
      (hfirst.trans (without_cleaned _ _)).congr fun p =>
        or_congr_right ((left_congr hsame).trans (and_iff_right hasked).symm)
    have hinner : Path.place w.here (Path.join location "pipeline") = dir ++ ["pipeline"] := by
      rw [Path.place_join (by decide), ← hplace]
    exact ⟨_, _, _, runOn_run_of_asked hopen hkept hasked, hlists,
      fun _ => lists_leftovers htree w.here hinner hsame, fun h => absurd hasked h, hgone,
      run_again hopen hgone hspared⟩
  · have hgone : FileTree.Without (Gone w.files dir withPipeline) w.files (cleaned w.files dir) :=
      hfirst.congr fun p => (or_iff_left fun h => hasked h.1).symm
    refine ⟨_, [], _, ?_, hlists, fun h => absurd h hasked, fun _ => rfl, hgone,
      run_again hopen hgone hspared⟩
    rw [List.append_nil]
    exact runOn_run_of_not_asked hopen hkept hasked

end

/-- A cleanup of a directory is exact just if the path that it is given for the directory enters
nothing that the cleanup removes; a path without steps up does not. -/
theorem run_exact_iff (htree : w.files.IsPlain)
    (hopen : w.files.openDirectory w.here location = .ok dir) (withPipeline : Bool) :
    (Exact w location withPipeline dir ↔ Spared w location withPipeline dir) ∧
      (".." ∉ Path.steps location → Exact w location withPipeline dir) := by
  obtain ⟨-, -, hplace, -⟩ := FileTree.openDirectory_ok_iff.1 hopen
  refine ⟨⟨fun h => ?_, exact_of_spared hopen htree⟩, fun hup =>
    exact_of_spared hopen htree (spared_of_no_step_up hplace.symm hup)⟩
  -- A second cleanup follows the path once more, so what it enters is still there.
  obtain ⟨first, second, t, -, -, -, -, hgone, hagain⟩ := h
  intro q hq hleft
  obtain ⟨paths, w₁, hremove, -⟩ := Job.bind_ok hagain
  obtain ⟨dir', hdir⟩ := openDirectory_of_removeFrom hremove
  obtain ⟨-, hentered, -⟩ := FileTree.openDirectory_ok_iff.1 hdir
  have hthere : t.entry? q = some .directory := hentered q hq
  rw [(hgone q).1 hleft] at hthere
  cases hthere

/-! A directory after a run, and one that is named by way of what the run left -/

def leftFile (p : Place) : Place × FileEntry := (p, .file "".toUTF8 false)

def ranTree : FileTree :=
  ⟨[(["work"], .directory), (["work", "ab"], .directory), leftFile ["work", "ab", "keep.tsv"],
    leftFile [".nextflow.log"], leftFile ["keep.tsv"], (["pipeline"], .directory),
    (["pipeline", ".nextflow"], .directory), leftFile ["pipeline", "run.tex"],
    leftFile ["pipeline", "main.nf"]]⟩

def ran : Workspace := ⟨ranTree, [], [], .empty⟩

theorem run_exact_ran : ran.files.IsPlain ∧ ran.files.openDirectory [] "." = .ok [] ∧
    ((run "." true).runOn ran).1.toOption =
      some ["./.nextflow.log", "./work", "./pipeline/.nextflow", "./pipeline/run.tex"] ∧
    Exact ran "." true [] := by
  have htree : ran.files.IsPlain := by decide
  have hplace : Path.place [] "." = [] := by decide +kernel
  have hopen : ran.files.openDirectory ran.here "." = .ok (Path.place [] ".") :=
    FileTree.isDirectory_iff.1 (by decide +kernel)
  rw [hplace] at hopen
  exact ⟨htree, hopen, by decide +kernel, (run_exact_iff htree hopen true).2 (by decide)⟩

def leftTree : FileTree :=
  ⟨[(["work"], .directory), (["pipeline"], .directory), leftFile ["pipeline", "run.tex"]]⟩

def left : Workspace := ⟨leftTree, [], [], .empty⟩

/-- The first step of the path is removed, so the path to the pipeline leads nowhere and what was
left behind in it stays. -/
theorem roundabout_keeps_leftovers : left.files.IsPlain ∧
    left.files.openDirectory [] "work/.." = .ok [] ∧
    ((run "work/.." true).runOn left).1.toOption = some ["work/../work"] ∧
    (FileTree.entry? ((run "work/.." true).runOn left).2.files ["pipeline", "run.tex"]).isSome ∧
    ¬Exact left "work/.." true [] := by
  have hplace : Path.place [] "work/.." = [] := by decide +kernel
  have hopen : left.files.openDirectory [] "work/.." = .ok (Path.place [] "work/..") :=
    FileTree.isDirectory_iff.1 (by decide +kernel)
  have hkept : (FileTree.entry? ((run "work/.." true).runOn left).2.files ["pipeline", "run.tex"]).isSome := by
    decide +kernel
  rw [hplace] at hopen
  refine ⟨by decide, hopen, by decide +kernel, hkept, fun h => ?_⟩
  obtain ⟨first, second, t, hrun, -, -, -, hgone, -⟩ := h
  have hleft : Gone left.files [] true ["pipeline", "run.tex"] :=
    .inr ⟨⟨rfl, rfl⟩, "run.tex", isLeftover_iff.1 (by decide), by decide, by decide⟩
  rw [hrun] at hkept
  dsimp only at hkept
  rw [(hgone _).1 hleft] at hkept
  cases hkept

end Pipewright.Cleanup
