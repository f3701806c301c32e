import Mathlib.Data.List.Induction
import Pipewright.Proofs.Storage.Files

/-! Directories: the names inside of them, the paths that lead to them, and what remains of both when
some places are gone. -/
namespace Pipewright

namespace Place
variable {here p q : Place} {s r : List String} {n : String}

/-- The places that steps enter by a name. A step up enters none. -/
def entered (here : Place) : List String → List Place
  | [] => []
  | n :: r =>
    if n = ".." then entered (enter here n) r else enter here n :: entered (enter here n) r

theorem entered_append (here : Place) (s r : List String) :
    entered here (s ++ r) = entered here s ++ entered (walk here s) r := by
  induction s generalizing here with
  | nil => rfl
  | cons n s ih =>
    have hwalk : walk here (n :: s) = walk (enter here n) s := rfl
    rw [List.cons_append, entered, entered, ih, hwalk]
    split <;> rfl

theorem isPrefix_walk (hs : ".." ∉ s) : here <+: walk here s := by
  induction s generalizing here with
  | nil => exact List.prefix_rfl
  | cons n s ih =>
    rw [List.mem_cons, not_or] at hs
    have hwalk : walk here (n :: s) = walk (here ++ [n]) s :=
      congrArg (walk · s) (if_neg (Ne.symm hs.1))
    rw [hwalk]
    exact (List.prefix_append here [n]).trans (ih hs.2)

/-- Steps without a step up enter places on the way to where they lead. -/
theorem mem_entered_of_plain (hs : ".." ∉ s) (h : q ∈ entered here s) :
    q <+: walk here s := by
  induction s generalizing here with
  | nil => cases h
  | cons n s ih =>
    rw [List.mem_cons, not_or] at hs
    have hwalk : walk here (n :: s) = walk (enter here n) s := rfl
    rw [entered, if_neg (Ne.symm hs.1), List.mem_cons] at h
    rw [hwalk]
    obtain rfl | h := h
    · exact isPrefix_walk hs.2
    · exact ih hs.2 h

theorem entered_singleton (here : Place) (hn : n ≠ "..") : entered here [n] = [here ++ [n]] := by
  rw [entered, if_neg hn, enter, if_neg hn]
  rfl

end Place

namespace FileTree
variable {t t' t'' : FileTree} {p q here dir : Place} {path n : String} {ns : List String}

theorem entry_ne_none_iff (hp : p ≠ []) : t.entry? p ≠ none ↔ ∃ e ∈ t.entries, e.1 = p := by
  rw [ entry?, if_neg hp, ne_eq, Option.map_eq_none_iff, ← ne_eq, ← Option.isSome_iff_ne_none,
    List.find?_isSome]
  simp

/-! Names in directories -/

theorem mem_insertName {m : String} : m ∈ insertName n ns ↔ m = n ∨ m ∈ ns := by
  induction ns with
  | nil => simp [insertName]
  | cons k ns ih =>
    rw [insertName]
    split
    · exact List.mem_cons
    · split
      · rename_i heq
        simp [heq]
      · rw [List.mem_cons, ih, List.mem_cons, or_left_comm]

theorem pairwise_insertName (h : ns.Pairwise (· < ·)) : (insertName n ns).Pairwise (· < ·) := by
  induction ns with
  | nil => exact List.pairwise_singleton _ _
  | cons k ns ih =>
    obtain ⟨hk, hns⟩ := List.pairwise_cons.1 h
    rw [insertName]
    split
    · rename_i hlt
      refine List.pairwise_cons.2 ⟨List.forall_mem_cons.2 ⟨hlt, fun m hm => ?_⟩, h⟩
      exact String.lt_trans hlt (hk m hm)
    · split
      · exact h
      · rename_i hnlt hne
        have hgt : k < n := by grind
        refine List.pairwise_cons.2 ⟨fun m hm => ?_, ih hns⟩
        obtain rfl | hm := mem_insertName.1 hm
        · exact hgt
        · exact hk m hm

theorem mem_sortNames : n ∈ sortNames ns ↔ n ∈ ns := by
  induction ns using List.reverseRecOn with
  | nil => exact Iff.rfl
  | append_singleton ns m ih =>
    rw [sortNames, List.foldl_append]
    change n ∈ insertName m (sortNames ns) ↔ _
    rw [mem_insertName, ih, List.mem_append, List.mem_singleton, or_comm]

theorem pairwise_sortNames (ns : List String) : (sortNames ns).Pairwise (· < ·) := by
  induction ns using List.reverseRecOn with
  | nil => exact .nil
  | append_singleton ns m ih =>
    rw [sortNames, List.foldl_append]
    exact pairwise_insertName ih

theorem childName?_eq_some_iff : childName? dir p = some n ↔ p = dir ++ [n] := by
  rw [childName?]
  constructor
  · intro h
    split at h
    · rename_i m hm
      split at h
      · rename_i hprefix
        obtain ⟨r, rfl⟩ := List.isPrefixOf_iff_prefix.1 hprefix
        rw [List.drop_left] at hm
        rw [hm, Option.some.inj h]
      · cases h
    · cases h
  · intro h
    simp [h]

/-- The children of a directory are the names of what is there right inside of it. -/
theorem mem_children : n ∈ t.children dir ↔ t.entry? (dir ++ [n]) ≠ none := by
  rw [children, mem_sortNames, List.mem_filterMap, entry_ne_none_iff (by simp)]
  exact exists_congr fun e => and_congr_right fun _ => childName?_eq_some_iff

theorem pairwise_children (t : FileTree) (dir : Place) : (t.children dir).Pairwise (· < ·) :=
  pairwise_sortNames _

/-! Paths to directories -/

theorem follow_directory_iff {asDirectory : Bool} {steps : List String} :
    t.follow asDirectory here steps = .ok p ∧ t.entry? p = some .directory ↔
      (∀ q ∈ Place.entered here steps, t.entry? q = some .directory) ∧
        p = Place.walk here steps ∧ t.entry? p = some .directory := by
  induction steps generalizing here with
  | nil => simp [follow, Place.entered, Place.walk, eq_comm]
  | cons n steps ih =>
    by_cases hup : n = ".."
    · subst hup
      rw [follow, Place.entered, if_pos rfl]
      exact ih
    · have hnext : Place.enter here n = here ++ [n] := if_neg hup
      rw [follow, Place.entered, if_neg hup, List.forall_mem_cons]
      · have hwalk : Place.walk here (n :: steps) = Place.walk (Place.enter here n) steps := rfl
        rw [hwalk, hnext, and_assoc]
        split
        · rename_i hdir
          rw [ih, and_iff_right hdir]
        · rename_i hfile
          refine iff_of_false (fun h => ?_) fun h => ?_
          · obtain ⟨hp, hdir⟩ := h
            split at hp
            · rw [← Except.ok.inj hp, hfile] at hdir
              cases hdir
            · cases hp
          · cases hfile.symm.trans h.1
        · rename_i hnone
          refine iff_of_false (fun h => ?_) fun h => ?_
          · obtain ⟨hp, hdir⟩ := h
            split at hp
            · rw [← Except.ok.inj hp, hnone] at hdir
              cases hdir
            · cases hp
          · cases hnone.symm.trans h.1
      · exact hup

/-- A path leads to a directory just if all places that it enters are directories. -/
theorem openDirectory_ok_iff : t.openDirectory here path = .ok p ↔
    path.isEmpty = false ∧
      (∀ q ∈ Place.entered (start here path) (Path.steps path), t.entry? q = some .directory) ∧
      p = Path.place here path ∧ t.entry? p = some .directory := by
  have hlocate : t.openDirectory here path = .ok p ↔
      t.locate here path = .ok p ∧ t.entry? p = some .directory := by
    rw [openDirectory]
    cases t.locate here path with
    | error e => simp [bind, Except.bind]
    | ok q =>
      simp only [bind, Except.bind, Except.ok.injEq]
      constructor
      · intro h
        split at h
        · rename_i hdir
          cases h
          exact ⟨rfl, hdir⟩
        · cases h
        · cases h
      · intro ⟨hq, hdir⟩
        rw [hq, hdir]
  rw [hlocate, locate]
  split
  · rename_i hempty
    simp [hempty]
  · rename_i hempty
    rw [follow_directory_iff, and_iff_right (eq_false_of_ne_true hempty)]
    rfl

theorem isDirectory_iff : t.isDirectory here path = true ↔
    t.openDirectory here path = .ok (Path.place here path) := by
  constructor
  · intro h
    rw [isDirectory] at h
    split at h
    · rename_i hfind
      obtain ⟨p, hp, h⟩ := bind_ok hfind
      rw [← locate_ok hp, openDirectory, hp]
      split at h
      · rename_i e he
        cases h
        simp only [bind, Except.bind, he]
      · cases h
    · cases h
  · intro h
    obtain ⟨p, hp, hdir⟩ := bind_ok h
    rw [isDirectory, FileTree.find?, hp]
    split at hdir
    · rename_i he
      simp only [bind, Except.bind, he]
    · cases hdir
    · cases hdir

/-- A path that goes on by a name leads to a directory just if there is one of that name. -/
theorem openDirectory_join (hn : Path.IsPlain n) (h : t.openDirectory here path = .ok p) :
    t.openDirectory here (Path.join path n) = .ok (p ++ [n]) ↔
      t.entry? (p ++ [n]) = some .directory := by
  obtain ⟨-, hentered, rfl, -⟩ := openDirectory_ok_iff.1 h
  have hinside := Path.isInside_join path hn
  have hempty : (Path.join path n).isEmpty = false := by
    rw [Bool.eq_false_iff, ne_eq, String.isEmpty_iff]
    intro hnil
    rw [hnil] at hinside
    cases hinside.fileName
  have hstart : start here (Path.join path n) = start here path := by
    rw [start, start, hinside.absolute]
  rw [openDirectory_ok_iff, and_iff_right hempty, hstart, hinside.steps, Place.entered_append,
    Place.entered_singleton _ hn.2.2.2, Path.place_join hn]
  constructor
  · intro h
    exact h.2.2
  · intro hdir
    exact ⟨List.forall_mem_append.2 ⟨hentered, List.forall_mem_singleton.2 hdir⟩, rfl, hdir⟩

/-! Trees without some places -/

/-- The second tree has what the first one has, but for places that are gone. -/
def Without (gone : Place → Prop) (t t' : FileTree) : Prop :=
  ∀ p, (gone p → t'.entry? p = none) ∧ (¬gone p → t'.entry? p = t.entry? p)

section
variable {gone gone' : Place → Prop}

theorem Without.trans (h : Without gone t t') (h' : Without gone' t' t'') :
    Without (fun p => gone p ∨ gone' p) t t'' := by
  intro p
  constructor
  · intro hp
    by_cases hp' : gone' p
    · exact (h' p).1 hp'
    · rw [(h' p).2 hp', (h p).1 (hp.resolve_right hp')]
  · intro hp
    rw [not_or] at hp
    rw [(h' p).2 hp.2, (h p).2 hp.1]

theorem Without.congr (h : Without gone t t') (hgone : ∀ p, gone p ↔ gone' p) :
    Without gone' t t' := by
  intro p
  rw [← hgone p]
  exact h p

/-- A path still leads to a directory just if it enters nothing that is gone. -/
theorem Without.openDirectory_iff (h : Without gone t t') (hp : ¬gone p)
    (hopen : t.openDirectory here path = .ok p) : t'.openDirectory here path = .ok p ↔
      ∀ q ∈ Place.entered (start here path) (Path.steps path), ¬gone q := by
  obtain ⟨hempty, hentered, hplace, hdir⟩ := openDirectory_ok_iff.1 hopen
  rw [openDirectory_ok_iff, and_iff_right hempty, (h p).2 hp,
    and_iff_left (⟨hplace, hdir⟩ : _ ∧ _)]
  refine forall₂_congr fun q hq => ?_
  by_cases hgone : gone q
  · rw [(h q).1 hgone]
    exact iff_of_false nofun (not_not_intro hgone)
  · rw [(h q).2 hgone]
    exact iff_of_true (hentered q hq) hgone

end

theorem without_erase (t : FileTree) (hp : p ≠ []) : Without (p <+: ·) t (t.erase p) := by
  intro q
  have hfind : (t.erase p).entries.find? (fun e => e.1 = q) =
      t.entries.find? fun e => !p.isPrefixOf q && e.1 = q := by
    rw [erase, List.find?_filter]
    congr 1
    funext e
    by_cases he : e.1 = q <;> simp [he]
  constructor
  · intro hq
    have hroot : q ≠ [] := fun hnil => hp (List.prefix_nil.1 (hnil ▸ hq))
    rw [ entry?, if_neg hroot, hfind, List.isPrefixOf_iff_prefix.2 hq]
    simp
  · intro hq
    have hnot : p.isPrefixOf q = false := eq_false_of_ne_true (mt List.isPrefixOf_iff_prefix.1 hq)
    rw [ entry?, hfind, hnot]
    simp [ entry?]

/-- Removing names from a directory removes them with what is below them. -/
theorem without_foldl_erase (t : FileTree) (dir : Place) (ns : List String) :
    Without (fun p => ∃ n ∈ ns, dir ++ [n] <+: p) t
      (ns.foldl (fun t n => t.erase (dir ++ [n])) t) := by
  induction ns generalizing t with
  | nil => exact fun p => ⟨fun h => (by simp at h), fun _ => rfl⟩
  | cons n ns ih =>
    refine ((t.without_erase (by simp)).trans (ih _)).congr fun p => ?_
    rw [List.exists_mem_cons_iff]

end FileTree
end Pipewright
