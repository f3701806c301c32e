import Pipewright.Proofs.Container.Names
import Pipewright.Proofs.Pipeline.Steps
import Pipewright.Proofs.Storage.Frames

/-! The places that an assembly owns: its scripts, packages and images. -/
namespace Pipewright
variable {owned way : Place → Prop}

namespace Packages
variable {target destination path : String}
  (howned : ∀ p, Path.place [] target <+: p → owned p)
  (hway : ∀ p, Place.Passes [] (Path.steps target) p → owned p ∨ way p)
include howned hway

theorem copyEntry_frame (h : Path.IsBelow target path) (e : FileEntry) :
    Job.Frame owned way (copyEntry path e) := by
  cases e with
  | directory =>
    refine .makeDirectories h.absolute fun p hp => ?_
    obtain ⟨ns, hns, hsteps⟩ := h.steps
    rw [hsteps] at hp
    cases Place.passes_append hns hp with
    | inl hp => exact hway p hp
    | inr hp =>
      refine .inl (howned p ?_)
      rwa [Path.place_root]
  | file content executable =>
    have hplace := howned _ h.place
    exact .bind (.writeBytes h.absolute hplace content) fun _ =>
      .setExecutable h.absolute hplace executable

theorem copyTo_frame (h : Path.IsBelow target destination) (package : String) :
    Job.Frame owned way (copyTo destination package) := by
  refine .bind (.askOr _ _) fun root =>
    .bind (copyEntry_frame howned hway h.join_empty root) fun _ => ?_
  cases root with
  | file content executable => exact .pure _
  | directory =>
    refine .bind (.askOr _ _) fun place => .look fun t _ ht => .forM fun e he => ?_
    have hplain := FileTree.isPlain_below ht (List.mem_filter.1 he).1
    exact copyEntry_frame howned hway (h.joined hplain) e.2

theorem copy_frame (htarget : Path.isAbsolute target = true) (packages : List String) :
    Job.Frame owned way (copy packages target) := by
  refine .forM fun package _ => ?_
  split
  · rename_i name hname
    exact copyTo_frame howned hway (Path.isBelow_join htarget (Path.plain_of_fileName? hname)) _
  · exact .pure _

end Packages

/-! Layouts -/

/-- The places of a pipeline that its stages may write: what is in its directories, scripts, and
the images of references. -/
inductive Layout.Owns (l : Layout) : Place → Prop
  | scripts {p : Place} (h : Path.place [] l.scripts <+: p) : Owns l p
  | packages {p : Place} (h : Path.place [] l.packages <+: p) : Owns l p
  | script (process : String) : Owns l (Path.place [] (l.script process))
  | image (reference : String) : Owns l (Path.place [] (Container.imagePath l.root reference))

/-- The path of a pipeline leads through a place. -/
def Layout.Passes (l : Layout) (p : Place) : Prop := Place.Passes [] (Path.steps l.root) p

/-- Where the stages of a pipeline write besides their scripts: its packages, with the directories
that lead to them, and its images. -/
structure Layout.Room (l : Layout) (owned way : Place → Prop) : Prop where
  packages : ∀ p, Path.place [] l.packages <+: p → owned p
  passes : ∀ p, Place.Passes [] (Path.steps l.packages) p → owned p ∨ way p
  image : ∀ reference, owned (Path.place [] (Container.imagePath l.root reference))

section
variable {l : Layout} {n : String}

theorem Layout.passes_join {p : Place} (hn : Path.IsPlain n)
    (h : Place.Passes [] (Path.steps (Path.join l.root n)) p) :
    Path.place [] (Path.join l.root n) <+: p ∨ l.Passes p := by
  rw [Path.place_root]
  rw [(Path.isInside_join l.root hn).steps] at h ⊢
  obtain ⟨s, hs, rfl⟩ := h
  cases List.prefix_concat_iff.1 hs with
  | inl hall => exact .inl (hall ▸ List.prefix_refl _)
  | inr hs => exact .inr ⟨s, hs, rfl⟩

theorem Layout.owns_room (l : Layout) : l.Room l.Owns l.Passes where
  packages _ := .packages
  passes _ hp := (passes_join (by decide) hp).imp_left .packages
  image := .image

theorem Layout.getLast?_script (l : Layout) (process : String) :
    ∃ n, (Path.place [] (l.script process)).getLast? = some (n ++ ".py") := by
  have hpath : ∃ q, l.script process = q ++ ".py" := by
    rw [script, Path.join]
    split
    · exact ⟨process, rfl⟩
    · split
      · exact ⟨_, (String.append_assoc ..).symm⟩
      · exact ⟨_, (String.append_assoc ..).symm⟩
  obtain ⟨q, hq⟩ := hpath
  obtain ⟨last, hlast⟩ := Path.getLast?_place q
  exact ⟨last, hq ▸ hlast [] ".py" (by decide +kernel)⟩

/-- A name right inside a pipeline that is none of its parts. -/
theorem Layout.not_owns (hn : Path.IsPlain n) (hbin : n ≠ "bin") (hpackages : n ≠ "packages")
    (hscript : ¬".py".toList <:+ n.toList) (himage : ¬".sif".toList <:+ n.toList) :
    ¬l.Owns (Path.place [] (Path.join l.root n)) := by
  rw [Path.place_join hn]
  have hdir : ∀ m, Path.IsPlain m → n ≠ m →
      ¬Path.place [] (Path.join l.root m) <+: Path.place [] l.root ++ [n] := by
    intro m hm hne hprefix
    rw [Path.place_join hm, List.prefix_append_right_inj, List.cons_prefix_cons] at hprefix
    exact hne hprefix.1.symm
  -- Its directories are told from the name by their own names, scripts and images by their endings.
  intro h
  generalize hp : Path.place [] l.root ++ [n] = p at h
  have hlast : p.getLast? = some n := by rw [← hp, List.getLast?_concat]
  cases h with
  | scripts h => exact hdir "bin" (by decide) hbin (hp ▸ h)
  | packages h => exact hdir "packages" (by decide) hpackages (hp ▸ h)
  | script process =>
    obtain ⟨m, hm⟩ := l.getLast?_script process
    rw [hm, Option.some.injEq] at hlast
    exact hscript (hlast ▸ by simp)
  | image reference =>
    rw [Container.imagePath, Path.place_join (Container.isPlain_imageFileName reference),
      List.getLast?_concat, Option.some.injEq] at hlast
    exact himage (hlast ▸ by simp [Container.imageFileName_eq])

/-- A path without steps up leads through no name right inside the pipeline. -/
theorem Layout.not_passes (hup : ".." ∉ Path.steps l.root) (hn : Path.IsPlain n) :
    ¬l.Passes (Path.place [] (Path.join l.root n)) := by
  have hplain : Place.IsPlain (Path.steps l.root) := fun m hm =>
    Path.plain_of_mem_steps hm fun hm' => hup (hm' ▸ hm)
  rintro ⟨s, hs, hp⟩
  rw [Place.walk_plain fun m hm => hplain m (hs.subset hm), Path.place_join hn, Path.place_root,
    Place.walk_plain hplain] at hp
  have hlength := congrArg List.length hp
  have hle := hs.length_le
  simp only [List.length_append, List.length_nil, List.length_singleton] at hlength
  omega

end
end Pipewright
