import Pipewright.Proofs.Storage.Jobs
import Pipewright.Proofs.Storage.Files

/-! What jobs leave as it is: everything but the places they own, and directories that they make on
a way where nothing was. -/
namespace Pipewright
variable {owned way : Place → Prop}

namespace FileTree
variable {t t' t'' : FileTree} {p q here : Place} {v : FileEntry} {path : String}
  {steps : List String}

/-- A tree as a file system holds it: names are single names. -/
def IsPlain (t : FileTree) : Prop := ∀ e ∈ t.entries, Place.IsPlain e.1

instance : Decidable t.IsPlain := inferInstanceAs (Decidable (∀ _ ∈ t.entries, _))

theorem isPlain_iff : t.IsPlain ↔ ∀ p, t.entry? p ≠ none → Place.IsPlain p := by
  constructor
  · intro h p hp
    rw [ entry?] at hp
    split at hp
    · rename_i hroot
      exact hroot ▸ List.forall_mem_nil _
    · obtain ⟨e, he⟩ := Option.ne_none_iff_exists'.1 (mt Option.map_eq_none_iff.2 hp)
      have hplace : e.1 = p := by simpa using List.find?_some he
      exact hplace ▸ h e (List.mem_of_find?_eq_some he)
  · intro h e he
    refine h e.1 ?_
    rw [ entry?]
    split
    · simp
    · have hfound : (t.entries.find? fun d => d.1 = e.1).isSome := by
        rw [List.find?_isSome]
        exact ⟨e, he, by simp⟩
      simpa [Option.isSome_iff_ne_none] using hfound

theorem isPlain_below {dir : Place} {e : Place × FileEntry}
    (ht : t.IsPlain) (h : e ∈ t.below dir) : Place.IsPlain e.1 := by
  rw [below, List.mem_mergeSort] at h
  obtain ⟨d, hd, he⟩ := List.mem_filterMap.1 h
  split at he
  · cases he
    exact fun n hn => ht d hd n (List.mem_of_mem_drop hn)
  · cases he

/-- The second tree agrees with the first one but for owned places, and for directories made on a
way where nothing was. -/
structure Frame (owned way : Place → Prop) (t t' : FileTree) : Prop where
  plain : t.IsPlain → t'.IsPlain
  keeps : ∀ p, ¬owned p → FileTree.entry? t' p = t.entry? p ∨
    way p ∧ t.entry? p = none ∧ FileTree.entry? t' p = some .directory

theorem Frame.refl (t : FileTree) : Frame owned way t t := ⟨id, fun _ _ => .inl rfl⟩

theorem Frame.trans (h : Frame owned way t t') (h' : Frame owned way t' t'') :
    Frame owned way t t'' := by
  refine ⟨fun ht => h'.plain (h.plain ht), fun p hp => ?_⟩
  cases h'.keeps p hp with
  | inl hlast => exact (h.keeps p hp).imp hlast.trans fun ⟨hway, hnone, hdir⟩ =>
      ⟨hway, hnone, hlast.trans hdir⟩
  | inr hmade =>
    obtain ⟨hway, hnone, hdir⟩ := hmade
    cases h.keeps p hp with
    | inl hfirst => exact .inr ⟨hway, hfirst.symm.trans hnone, hdir⟩
    | inr hfirst => cases hfirst.2.2.symm.trans hnone

/-- What is there stays there, but for owned places. -/
theorem Frame.entry_eq (h : Frame owned way t t') (hp : ¬owned p) {e : FileEntry}
    (he : t.entry? p = some e) : FileTree.entry? t' p = some e := by
  cases h.keeps p hp with
  | inl hsame => exact hsame.trans he
  | inr hmade => cases hmade.2.1.symm.trans he

theorem isPlain_of_single (hq : Place.IsPlain q)
    (h : ∀ p, p ≠ q → FileTree.entry? t' p = t.entry? p) (ht : t.IsPlain) : t'.IsPlain := by
  rw [isPlain_iff] at ht ⊢
  intro p hp
  by_cases hpq : p = q
  · exact hpq ▸ hq
  · exact ht p (h p hpq ▸ hp)

theorem Frame.single (hq : Place.IsPlain q) (howned : owned q)
    (h : ∀ p, p ≠ q → FileTree.entry? t' p = t.entry? p) : Frame owned way t t' :=
  ⟨isPlain_of_single hq h, fun p hp => .inl (h p fun hpq => hp (hpq ▸ howned))⟩

theorem Frame.put (hp : Place.IsPlain p) (howned : owned p) : Frame owned way t (t.put p v) :=
  .single hp howned fun _ => entryAt_put_of_ne

theorem Frame.put_directory (hp : Place.IsPlain p) (hway : owned p ∨ way p)
    (hnone : t.entry? p = none) : Frame owned way t (t.put p .directory) := by
  refine ⟨isPlain_of_single hp fun _ => entryAt_put_of_ne, fun q hq => ?_⟩
  by_cases hqp : q = p
  · subst hqp
    have hroot : q ≠ [] := by
      rintro rfl
      cases t.entryAt_root.symm.trans hnone
    exact .inr ⟨hway.resolve_left hq, hnone, entryAt_put_self hroot⟩
  · exact .inl (entryAt_put_of_ne hqp)

theorem write_frame {content : ByteArray} (h : t.write here path content = .ok t')
    (hpath : Path.isAbsolute path = true) (howned : owned (Path.place [] path)) :
    Frame owned way t t' := by
  obtain ⟨-, p, executable, hp, -, rfl⟩ := write_ok h
  have hplace : p = Path.place [] path := (locate_ok hp).trans (Path.place_absolute hpath)
  exact .put (hplace ▸ Path.isPlain_place path) (hplace ▸ howned)

theorem setExecutable_frame {executable : Bool}
    (h : t.setExecutable here path executable = .ok t') (hpath : Path.isAbsolute path = true)
    (howned : owned (Path.place [] path)) : Frame owned way t t' := by
  obtain ⟨p, hp, h⟩ := bind_ok h
  have hplace : p = Path.place [] path := (locate_ok hp).trans (Path.place_absolute hpath)
  split at h
  · cases h
    exact .put (hplace ▸ Path.isPlain_place path) (hplace ▸ howned)
  · cases h
    exact .refl t
  · cases h

theorem makeSteps_frame (hhere : Place.IsPlain here)
    (hsteps : ∀ n ∈ steps, n ≠ ".." → Path.IsPlain n)
    (h : ∀ p, Place.Passes here steps p → owned p ∨ way p) :
    Frame owned way t (t.makeSteps here steps).1 := by
  -- Places that are there stay as they are, so the frame of each step is that of one directory.
  induction steps generalizing here t with
  | nil => exact .refl t
  | cons n ns ih =>
    obtain ⟨hn, hns⟩ := List.forall_mem_cons.1 hsteps
    have hrest : ∀ p, Place.Passes (Place.enter here n) ns p → owned p ∨ way p :=
      fun p hp => h p (Place.passes_cons hp)
    have hplain : Place.IsPlain (Place.enter here n) :=
      Place.isPlain_enter hhere hn
    have hpassed : owned (Place.enter here n) ∨ way (Place.enter here n) :=
      hrest _ ⟨[], List.nil_prefix, rfl⟩
    by_cases hup : n = ".."
    · subst hup
      rw [makeSteps]
      exact ih hplain hns hrest
    · rw [Place.enter, if_neg hup] at hrest hplain hpassed
      rw [makeSteps]
      · split
        · exact ih hplain hns hrest
        · exact .refl t
        · rename_i hnone
          exact .trans (.put_directory hplain hpassed hnone) (ih hplain hns hrest)
      · exact hup

end FileTree

namespace Job
variable {α β : Type} {x : Job α} {path : String}

/-- A job that leaves all places as they are but those it owns, and directories that it makes on a
way. -/
def Frame (owned way : Place → Prop) (x : Job α) : Prop :=
  ∀ w, w.files.IsPlain → FileTree.Frame owned way w.files (x.runOn w).2.files

theorem Frame.run (h : Frame owned way x) {w w' : Workspace} {r : Except Fault α}
    (hw : w.files.IsPlain) (hrun : x.runOn w = (r, w')) :
    FileTree.Frame owned way w.files w'.files := by
  have hframe := h w hw
  rwa [hrun] at hframe

theorem Frame.quiet (h : ∀ w, (x.runOn w).2.files = w.files) : Frame owned way x :=
  fun w _ => (h w).symm ▸ .refl w.files

theorem Frame.pure (a : α) : Frame owned way (Pure.pure a : Job α) := .quiet fun _ => rfl

theorem Frame.ofExcept (r : Except Fault α) : Frame owned way (Job.ofExcept r) := .quiet fun _ => rfl

theorem Frame.warn (texts : List String) : Frame owned way (Job.warn texts) := .quiet fun _ => rfl

theorem Frame.bind {f : α → Job β} (hx : Frame owned way x) (hf : ∀ a, Frame owned way (f a)) :
    Frame owned way (x >>= f) := by
  intro w hw
  have hfirst := hx w hw
  rw [runOn_bind]
  cases hr : x.runOn w with
  | mk r w₁ =>
    rw [hr] at hfirst
    cases r with
    | error e => exact hfirst
    | ok a => exact hfirst.trans (hf a w₁ (hfirst.plain hw))

/-- What follows a look at the files may rely on their names. -/
theorem Frame.look {f : FileTree → Place → α} {g : α → Job β}
    (h : ∀ t here, t.IsPlain → Frame owned way (g (f t here))) :
    Frame owned way (Job.look f >>= g) :=
  fun w hw => h w.files w.here hw w hw

theorem Frame.askOr (tell : FileFault → Fault) (f : FileTree → Place → Except FileFault α) :
    Frame owned way (Job.askOr tell f) :=
  .quiet fun w => by rw [runOn_askOr]

theorem Frame.forM {γ : Type} {f : γ → Job PUnit} {xs : List γ}
    (h : ∀ c ∈ xs, Frame owned way (f c)) : Frame owned way (xs.forM f) := by
  induction xs with
  | nil => exact .pure _
  | cons c cs ih =>
    obtain ⟨hc, hcs⟩ := List.forall_mem_cons.1 h
    exact .bind hc fun _ => ih hcs

theorem Frame.foldlM {γ : Type} {f : β → γ → Job β} {xs : List γ}
    (h : ∀ c ∈ xs, ∀ b, Frame owned way (f b c)) (b : β) : Frame owned way (xs.foldlM f b) := by
  induction xs generalizing b with
  | nil => exact .pure b
  | cons c cs ih =>
    obtain ⟨hc, hcs⟩ := List.forall_mem_cons.1 h
    rw [List.foldlM_cons]
    exact .bind (hc b) (ih hcs)

theorem Frame.change {f : FileTree → Place → Except FileFault FileTree}
    (h : ∀ t here t', f t here = .ok t' → FileTree.Frame owned way t t') :
    Frame owned way (Job.change f) := by
  intro w _
  rw [runOn_change]
  split
  · rename_i t ht
    exact h _ _ _ ht
  · exact .refl w.files

variable (hpath : Path.isAbsolute path = true) (howned : owned (Path.place [] path))
include hpath howned

theorem Frame.writeBytes (content : ByteArray) : Frame owned way (Job.writeBytes path content) :=
  .change fun _ _ _ h => FileTree.write_frame h hpath howned

theorem Frame.setExecutable (executable : Bool) :
    Frame owned way (Job.change fun t here => t.setExecutable here path executable) :=
  .change fun _ _ _ h => FileTree.setExecutable_frame h hpath howned

theorem Frame.writeExecutable (text : String) : Frame owned way (Job.writeExecutable path text) :=
  .bind (Frame.writeBytes hpath howned _) fun _ => Frame.setExecutable hpath howned true

omit howned in
theorem Frame.makeDirectories
    (h : ∀ p, Place.Passes [] (Path.steps path) p → owned p ∨ way p) :
    Frame owned way (Job.makeDirectories path) := by
  intro w _
  have hframe := FileTree.makeSteps_frame (t := w.files) (List.forall_mem_nil _)
    (fun n => Path.plain_of_mem_steps) h
  have hrun : ((Job.makeDirectories path).runOn w).2.files =
      (w.files.makeSteps [] (Path.steps path)).1 := by
    have hstart : FileTree.start w.here path = [] := if_pos hpath
    have hmade : w.files.makeDirectories w.here path =
        w.files.makeSteps [] (Path.steps path) := by rw [FileTree.makeDirectories, hstart]
    rw [← hmade]
    rfl
  exact hrun ▸ hframe

end Job
end Pipewright
