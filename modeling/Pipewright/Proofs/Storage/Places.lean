import Pipewright.Proofs.Storage.Paths
import Pipewright.Storage.Tree

/-! Where paths lead, told from the paths alone. -/
namespace Pipewright

namespace Place
variable {here p q : Place} {steps ns : List String} {n : String}

/-- A step from a directory. -/
def enter (here : Place) (n : String) : Place := if n = ".." then here.dropLast else here ++ [n]

/-- Where steps lead to if nothing is in their way. -/
def walk (here : Place) (steps : List String) : Place := steps.foldl enter here

/-- Steps lead through a place, or to it. -/
def Passes (here : Place) (steps : List String) (p : Place) : Prop :=
  ∃ s, s <+: steps ∧ walk here s = p

/-- A place that a file or directory can have. -/
def IsPlain (p : Place) : Prop := ∀ n ∈ p, Path.IsPlain n

instance : Decidable (IsPlain p) := inferInstanceAs (Decidable (∀ _ ∈ p, _))

theorem walk_append (here : Place) (s s' : List String) :
    walk here (s ++ s') = walk (walk here s) s' := List.foldl_append

theorem walk_plain (h : IsPlain ns) : walk here ns = here ++ ns := by
  induction ns generalizing here with
  | nil => exact (List.append_nil here).symm
  | cons n ns ih =>
    obtain ⟨hn, hns⟩ := List.forall_mem_cons.1 h
    change walk (enter here n) ns = _
    rw [ih hns, enter, if_neg hn.2.2.2, List.append_assoc]
    rfl

theorem passes_cons (h : Passes (enter here n) ns p) : Passes here (n :: ns) p := by
  obtain ⟨s, hs, hp⟩ := h
  exact ⟨n :: s, List.cons_prefix_cons.2 ⟨rfl, hs⟩, hp⟩

/-- Steps that go on by names lead through what they led through before, and below where they led
to. -/
theorem passes_append (hns : IsPlain ns) (h : Passes here (steps ++ ns) p) :
    Passes here steps p ∨ walk here steps <+: p := by
  obtain ⟨s, hs, rfl⟩ := h
  cases List.prefix_or_prefix_of_prefix hs (List.prefix_append steps ns) with
  | inl hs => exact .inl ⟨s, hs, rfl⟩
  | inr hbeyond =>
    obtain ⟨r, rfl⟩ := hbeyond
    have hr := (List.prefix_append_right_inj steps).1 hs
    have hplain : IsPlain r := fun n hn => hns n (hr.subset hn)
    rw [walk_append, walk_plain hplain]
    exact .inr (List.prefix_append _ r)

theorem isPlain_enter (hhere : IsPlain here) (hn : n ≠ ".." → Path.IsPlain n) :
    IsPlain (enter here n) := by
  rw [enter]
  split
  · exact fun m hm => hhere m (List.dropLast_subset here hm)
  · rename_i hup
    exact List.forall_mem_append.2 ⟨hhere, List.forall_mem_singleton.2 (hn hup)⟩

theorem isPlain_walk (hhere : IsPlain here)
    (hsteps : ∀ n ∈ steps, n ≠ ".." → Path.IsPlain n) : IsPlain (walk here steps) := by
  induction steps generalizing here with
  | nil => exact hhere
  | cons n ns ih =>
    obtain ⟨hn, hns⟩ := List.forall_mem_cons.1 hsteps
    exact ih (isPlain_enter hhere hn) hns

/-- A place is below one entry of a directory only. -/
theorem name_eq {d : Place} {m : String} (hm : d ++ [m] <+: p) (hn : d ++ [n] <+: p) : m = n := by
  have hprefix : d ++ [m] <+: d ++ [n] := List.prefix_of_prefix_length_le hm hn (by simp)
  have heq : d ++ [m] = d ++ [n] := hprefix.eq_of_length (by simp)
  exact (List.cons.inj (List.append_cancel_left heq)).1

end Place

namespace FileTree

/-- A name of a file that stands for itself, whatever it is appended to. -/
def isName (n : String) : Bool :=
  !Path.isAbsolute n && !n.toList.contains '/' && decide (2 < n.toList.length)

theorem relative_of_isName {n : String} (hn : isName n) : Path.isAbsolute n = false := by
  simp_all [isName]

theorem says_of_isName {n : String} (hn : isName n) (last : String) :
    Path.isIdle (last ++ n) = false ∧ last ++ n ≠ ".." := by
  have hlen : 2 < n.toList.length := by simp_all [isName]
  have hne : ∀ s : String, s.toList.length ≤ 2 → last ++ n ≠ s := by
    intro s hs he
    have hl := congrArg (fun t => t.toList.length) he
    simp only [String.toList_append, List.length_append] at hl
    omega
  refine ⟨?_, hne ".." (by decide)⟩
  have hdot := hne "." (by decide)
  have hempty := hne "" (by decide)
  simp_all [Path.isIdle]

end FileTree

namespace Path
variable {base n path : String} {here : Place}

theorem plain_of_mem_pieces (h : n ∈ pieces '/' path) (hidle : isIdle n = false)
    (hup : n ≠ "..") : IsPlain n := by
  obtain ⟨l, hl, rfl⟩ := List.mem_map.1 h
  have hsep := Text.not_mem_of_mem_splitAt hl
  simp_all [IsPlain, isIdle]

theorem plain_of_mem_steps (h : n ∈ steps path) (hup : n ≠ "..") : IsPlain n := by
  obtain ⟨hpiece, hidle⟩ := List.mem_filter.1 h
  exact plain_of_mem_pieces hpiece (by simpa using hidle) hup

/-- The place that a path leads to from a directory if nothing is in its way. -/
def place (here : Place) (path : String) : Place :=
  Place.walk (FileTree.start here path) (steps path)

theorem place_absolute (h : isAbsolute path = true) : place here path = place [] path := by
  simp [place, FileTree.start, h]

theorem place_root (path : String) : place [] path = Place.walk [] (steps path) := by
  rw [place, FileTree.start, ite_self]

theorem isPlain_place (path : String) : Place.IsPlain (place [] path) := by
  rw [place_root]
  exact Place.isPlain_walk (List.forall_mem_nil _) fun n => plain_of_mem_steps

theorem place_join (hn : IsPlain n) : place here (join base n) = place here base ++ [n] := by
  have hstart : FileTree.start here (join base n) = FileTree.start here base := by
    rw [FileTree.start, FileTree.start, (isInside_join base hn).absolute]
  rw [place, place, hstart, (isInside_join base hn).steps, Place.walk_append]
  exact Place.walk_plain (List.forall_mem_singleton.2 hn)

/-- Names that are appended to one text end its last piece. -/
theorem pieces_append (q : String) : ∃ init last, ∀ n, FileTree.isName n →
    pieces '/' (q ++ n) = init ++ [last ++ n] := by
  obtain ⟨init, last, hsplit⟩ := Text.splitAt_append '/' q.toList
  refine ⟨init.map String.ofList, String.ofList last, fun n hn => ?_⟩
  have hsep : '/' ∉ n.toList := by simp_all [FileTree.isName]
  rw [pieces, String.toList_append, hsplit _ hsep, List.map_append, List.map_singleton,
    String.ofList_append, String.ofList_toList]

/-- Names that are appended to one text end the names of the places they lead to. -/
theorem getLast?_place (q : String) : ∃ last, ∀ here n, FileTree.isName n →
    (place here (q ++ n)).getLast? = some (last ++ n) := by
  obtain ⟨init, last, hpieces⟩ := pieces_append q
  refine ⟨last, fun here n hn => ?_⟩
  obtain ⟨hidle, hup⟩ := FileTree.says_of_isName hn last
  have hsteps : steps (q ++ n) =
      init.filter (fun part => !isIdle part) ++ [last ++ n] := by
    rw [steps, hpieces n hn, List.filter_append]
    simp [hidle]
  rw [place, hsteps, Place.walk_append]
  change (Place.enter _ _).getLast? = _
  rw [Place.enter, if_neg hup, List.getLast?_concat]

end Path

/-! Paths that go on by names -/

namespace Path
variable {base n path p q : String} {ns : Place}

theorem isAbsolute_append (h : isAbsolute p = true) : isAbsolute (p ++ q) = true := by
  rw [isAbsolute_iff, String.toList_append] at *
  exact h.trans (List.prefix_append _ _)

theorem steps_append_slash (p q : String) : steps (p ++ "/" ++ q) = steps p ++ steps q := by
  simp [steps, pieces, Text.splitAt_append_sep]

theorem mem_pieces_of_mem_activeParts (h : n ∈ activeParts p) : n ∈ pieces '/' p := by
  rw [activeParts] at h
  cases hp : pieces '/' p with
  | nil => simp [hp, dropIdle] at h
  | cons first rest =>
    rw [hp, dropIdle, List.mem_cons, List.mem_reverse] at h
    refine List.mem_cons.2 (h.imp_right fun hrest => ?_)
    exact List.mem_reverse.1 ((List.dropWhile_sublist _).subset hrest)

theorem plain_of_fileName? (h : fileName? p = some n) : IsPlain n := by
  rw [fileName?] at h
  split at h
  · rename_i m hm
    split at h
    · cases h
    · rename_i hsays
      cases h
      have hpiece := mem_pieces_of_mem_activeParts (List.mem_of_getLast? hm)
      simp only [Bool.or_eq_true, decide_eq_true_eq, not_or, Bool.not_eq_true] at hsays
      exact plain_of_mem_pieces hpiece hsays.1 hsays.2
  · cases h

/-- A path that goes on from another one by names. -/
structure IsBelow (base path : String) : Prop where
  absolute : isAbsolute path = true
  steps : ∃ ns, Place.IsPlain ns ∧ Path.steps path = Path.steps base ++ ns

theorem isBelow_join (hbase : isAbsolute base = true) (hn : IsPlain n) :
    IsBelow base (join base n) :=
  ⟨isAbsolute_join hbase, [n], List.forall_mem_singleton.2 hn, (isInside_join base hn).steps⟩

theorem IsBelow.join_empty (h : IsBelow base path) : IsBelow base (join path "") := by
  obtain ⟨ns, hns, hsteps⟩ := h.steps
  refine ⟨isAbsolute_join h.absolute, ns, hns, ?_⟩
  rw [steps_join (by decide), hsteps]
  exact List.append_nil _

theorem IsBelow.joined (h : IsBelow base path) (hns : Place.IsPlain ns) :
    IsBelow base (joined "/" (path :: ns)) := by
  induction ns generalizing path with
  | nil => exact h
  | cons n ns ih =>
    obtain ⟨hn, hrest⟩ := List.forall_mem_cons.1 hns
    obtain ⟨ms, hms, hsteps⟩ := h.steps
    have hnext : IsBelow base (path ++ "/" ++ n) := by
      refine ⟨?_, ms ++ [n], List.forall_mem_append.2 ⟨hms, List.forall_mem_singleton.2 hn⟩, ?_⟩
      · rw [String.append_assoc]
        exact isAbsolute_append h.absolute
      · rw [steps_append_slash, hsteps, steps_plain hn, List.append_assoc]
    exact ih hnext hrest

theorem IsBelow.place (h : IsBelow base path) : place [] base <+: place [] path := by
  obtain ⟨ns, hns, hsteps⟩ := h.steps
  rw [place_root, place_root, hsteps, Place.walk_append, Place.walk_plain hns]
  exact List.prefix_append _ _

end Path

namespace FileTree
variable {t : FileTree} {here p : Place} {steps : List String}

/-- Steps that can be followed lead where they lead if nothing is in their way. -/
theorem follow_ok {asDirectory : Bool} (h : t.follow asDirectory here steps = .ok p) :
    p = Place.walk here steps := by
  induction steps generalizing here with
  | nil =>
    cases h
    rfl
  | cons n ns ih =>
    by_cases hup : n = ".."
    · subst hup
      rw [follow] at h
      exact ih h
    · have hnext : Place.walk here (n :: ns) = Place.walk (here ++ [n]) ns := by
        change Place.walk (Place.enter here n) ns = _
        rw [Place.enter, if_neg hup]
      rw [hnext]
      rw [follow] at h
      · split at h
        · exact ih h
        · split at h
          · simp_all [Place.walk]
          · cases h
        · split at h
          · simp_all [Place.walk]
          · cases h
      · exact hup

theorem locate_ok {path : String} (h : t.locate here path = .ok p) : p = Path.place here path := by
  rw [locate] at h
  split at h
  · cases h
  · exact follow_ok h

end FileTree
end Pipewright
