import Mathlib.Data.List.Forall2
import Pipewright.Proofs.Container.Calls

/-! Which references have images of one name. -/
namespace Pipewright.Container
variable {dir r r' : String}

/-- What a reference names: what follows the first `://`, or all of it. -/
def named (r : String) : List Char :=
  ((Text.splitOnce "://".toList r.toList).map Prod.snd).getD r.toList

/-- The characters that the name of a file does not tell apart. -/
def Blurred (c d : Char) : Prop := c = d ∨ c ∈ ['/', ':', '_'] ∧ d ∈ ['/', ':', '_']

/-- References that name the same but for slashes, colons and underscores. -/
def Alike (r r' : String) : Prop := List.Forall₂ Blurred (named r) (named r')

def blur (c : Char) : Char := if c = '/' || c = ':' then '_' else c

theorem imageFileName_eq (r : String) :
    imageFileName r = String.ofList ((named r).map blur) ++ ".sif" := rfl

theorem blur_eq_iff {c d : Char} : blur c = blur d ↔ Blurred c d := by
  have hfix : ∀ {c}, c ∉ ['/', ':', '_'] → blur c = c := fun h => by simp_all [blur]
  have hsep : ∀ {c}, c ∈ ['/', ':', '_'] → blur c = '_' := fun h => by
    simp only [List.mem_cons, List.not_mem_nil, or_false] at h
    rcases h with rfl | rfl | rfl <;> rfl
  by_cases hc : c ∈ ['/', ':', '_'] <;> by_cases hd : d ∈ ['/', ':', '_']
  · simp only [hsep hc, hsep hd, Blurred, hc, hd, and_self, or_true]
  · have hne : c ≠ d := fun h => hd (h ▸ hc)
    have hu : '_' ≠ d := by
      rintro rfl
      exact hd (by decide)
    simp [hsep hc, hfix hd, Blurred, hd, hne, hu]
  · have hne : c ≠ d := fun h => hc (h ▸ hd)
    have hu : c ≠ '_' := by
      rintro rfl
      exact hc (by decide)
    simp [hfix hc, hsep hd, Blurred, hc, hne, hu]
  · simp [hfix hc, hfix hd, Blurred, hc]

theorem imageFileName_eq_iff : imageFileName r = imageFileName r' ↔ Alike r r' := by
  have hmap : ∀ cs ds : List Char, cs.map blur = ds.map blur ↔ List.Forall₂ Blurred cs ds := by
    intro cs ds
    rw [← List.forall₂_eq_eq_eq, List.forall₂_map_left_iff, List.forall₂_map_right_iff]
    simp only [blur_eq_iff]
  rw [imageFileName_eq, imageFileName_eq, String.append_left_inj, String.ofList_inj, hmap]
  rfl

theorem isPlain_imageFileName (r : String) : Path.IsPlain (imageFileName r) := by
  have hlen : 4 ≤ (imageFileName r).toList.length := by
    simp [imageFileName_eq]
  have hne : ∀ s : String, s.toList.length < 4 → imageFileName r ≠ s := by
    rintro s hs rfl
    omega
  refine ⟨?_, hne _ (by decide), hne _ (by decide), hne _ (by decide)⟩
  have hblur : ∀ c, blur c ≠ '/' := by
    intro c
    rw [blur]
    split
    · decide
    · simp_all
  simp [imageFileName_eq, hblur]

theorem imagePath_eq_iff : imagePath dir r = imagePath dir r' ↔ Alike r r' := by
  rw [imagePath, imagePath, Path.join_inj (Path.isAbsolute_plain (isPlain_imageFileName r))
    (Path.isAbsolute_plain (isPlain_imageFileName r')), imageFileName_eq_iff]

namespace Session

/-- Where no reference is a file and every build succeeds, every call tells the path of its own
image. -/
theorem run_built {qs : List Call} (hnew : ∀ q ∈ qs, q.isFile = false)
    (hbuild : ∀ q ∈ qs, q.build dir = .ok ()) :
    (run dir qs).events.map (fun e => (e.reference, e.answer)) =
      qs.map fun q => (q.reference, .ok (imagePath dir q.reference)) := by
  induction qs using List.reverseRecOn with
  | nil => rfl
  | append_singleton qs q ih =>
    obtain ⟨hnew, hq⟩ := List.forall_mem_append.1 hnew
    obtain ⟨hbuild, hb⟩ := List.forall_mem_append.1 hbuild
    have hfile := List.forall_mem_singleton.1 hq
    have hsound := sound_run dir (fun _ => false) hnew
    have hlast : ∃ cache asked, call dir (run dir qs) q = ⟨cache, (run dir qs).events ++
        [⟨q.reference, asked, .ok (imagePath dir q.reference)⟩]⟩ := by
      cases hc : Entries.get? q.reference (run dir qs).cache with
      | some path =>
        obtain ⟨-, hpath, -⟩ := (hsound.cached _ _).1 hc
        exact ⟨_, _, hpath ▸ call_known hfile hc⟩
      | none => exact ⟨_, _, call_built hfile hc (hb q (List.mem_singleton_self q))⟩
    obtain ⟨cache, asked, hcall⟩ := hlast
    rw [run_append_singleton, hcall, List.map_append, List.map_append, ih hnew hbuild]
    rfl

/-- References that are no files get the same path just if they are alike, and a build writes to
the path of another reference only if that one is alike. -/
theorem answers_eq_iff_alike {qs : List Call} (hnew : ∀ q ∈ qs, q.isFile = false)
    (hbuild : ∀ q ∈ qs, q.build dir = .ok ()) :
    (run dir qs).events.map Event.reference = qs.map Call.reference ∧
    (∀ e ∈ (run dir qs).events, e.answer = .ok (imagePath dir e.reference)) ∧
    (∀ e ∈ (run dir qs).events, ∀ f ∈ (run dir qs).events,
      (e.answer = f.answer ↔ Alike e.reference f.reference) ∧
      ∀ target built, e.asked = some (target, built) → f.answer = .ok target →
        built = e.reference ∧ Alike e.reference f.reference) := by
  have hrun := run_built hnew hbuild
  have hanswer : ∀ e ∈ (run dir qs).events, e.answer = .ok (imagePath dir e.reference) := by
    intro e he
    have hmem := List.mem_map_of_mem (f := fun e : Event => (e.reference, e.answer)) he
    rw [hrun] at hmem
    obtain ⟨q, -, hq⟩ := List.mem_map.1 hmem
    obtain ⟨href, hans⟩ := Prod.mk.inj hq
    rw [← hans, href]
  refine ⟨?_, hanswer, fun e he f hf => ⟨?_, fun target built hasked htarget => ?_⟩⟩
  · have hnames := congrArg (List.map Prod.fst) hrun
    rwa [List.map_map, List.map_map] at hnames
  · rw [hanswer e he, hanswer f hf, Except.ok.injEq, imagePath_eq_iff]
  · obtain ⟨before, after, hsplit⟩ := List.append_of_mem he
    obtain ⟨hnewly, hknown⟩ := (sound_run dir (fun _ => false) hnew).asks before e after hsplit
    by_cases hk : Known before e.reference
    · rw [(hknown (.inr hk)).1] at hasked
      cases hasked
    · rw [hnewly ⟨rfl, hk⟩, Option.some.injEq, Prod.mk.injEq] at hasked
      rw [hanswer f hf, Except.ok.injEq, ← hasked.1, eq_comm, imagePath_eq_iff] at htarget
      exact ⟨hasked.2.symm, htarget⟩

/-- Builds an image that holds the reference. -/
def labelling : Builder := fun target reference => Job.writeText target reference

def emptySpace : Workspace := ⟨.empty, [], [], .empty⟩

def slashed : List Call :=
  [⟨labelling, "org/tool", emptySpace⟩, ⟨labelling, "org_tool", emptySpace⟩]

/-- Two references get one path, and the second build writes where the first one did. -/
theorem slashed_clash : (∀ q ∈ slashed, q.isFile = false ∧ q.build "/" = .ok ()) ∧
    (run "/" slashed).events =
      [⟨"org/tool", some ("/org_tool.sif", "org/tool"), .ok "/org_tool.sif"⟩,
        ⟨"org_tool", some ("/org_tool.sif", "org_tool"), .ok "/org_tool.sif"⟩] ∧
    ¬∀ e ∈ (run "/" slashed).events, ∀ f ∈ (run "/" slashed).events,
      e.reference ≠ f.reference → e.answer ≠ f.answer := by
  decide +kernel

theorem answers_slashed : (∀ q ∈ slashed, q.isFile = false) ∧
    (∀ q ∈ slashed, q.build "/" = .ok ()) ∧
    ∀ e ∈ (run "/" slashed).events, ∀ f ∈ (run "/" slashed).events,
      (e.answer = f.answer ↔ Alike e.reference f.reference) := by
  have hnew : ∀ q ∈ slashed, q.isFile = false := by decide +kernel
  have hbuild : ∀ q ∈ slashed, q.build "/" = .ok () := by decide +kernel
  obtain ⟨-, -, halike⟩ := answers_eq_iff_alike hnew hbuild
  exact ⟨hnew, hbuild, fun e he f hf => (halike e he f hf).1⟩

end Session

end Pipewright.Container
