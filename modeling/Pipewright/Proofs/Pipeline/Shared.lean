import Mathlib.Data.List.Forall2
import Pipewright.Manifest

/-! Channels that stages share, and the ones that stages declare themselves. -/
namespace Pipewright

/-- Whether two channels declare a name in common. -/
def Channel.Meets (c d : Channel) : Prop := ∃ n ∈ c.name.toList, n ∈ d.name.toList

namespace Manifest

/-- Channels to which shared ones are added one after the other, each of them if no channel in the
list so far declares one of its names. -/
inductive Supplements : (own shared result : List Channel) → Prop where
  | nil (own : List Channel) : Supplements own [] own
  | added {own shared result : List Channel} {c : Channel} (hfree : ∀ d ∈ own, ¬d.Meets c)
      (h : Supplements (own ++ [c]) shared result) : Supplements own (c :: shared) result
  | kept {own shared result : List Channel} {c : Channel} (htaken : ∃ d ∈ own, d.Meets c)
      (h : Supplements own shared result) : Supplements own (c :: shared) result

/-- Own channels come first, shared ones supplement them, and no name is declared by two channels
of the list that are not both its own. -/
structure Replaces (own shared result : List Channel) : Prop where
  front : own <+: result
  follow : Supplements own shared result
  once : ∀ before c after, result = own ++ before ++ c :: after → ∀ d ∈ own ++ before, ¬d.Meets c

section
variable {own shared result : List Channel} {c : Channel}

/-- What is added to a list is a part of the shared channels, and declares no name again. -/
theorem Supplements.added_once (h : Supplements own shared result) :
    ∃ added, result = own ++ added ∧ added.Sublist shared ∧
      ∀ before c after, added = before ++ c :: after → ∀ d ∈ own ++ before, ¬d.Meets c := by
  induction h with
  | nil own => exact ⟨[], by simp⟩
  | @added own shared result c hfree h ih =>
    obtain ⟨added, rfl, hsub, honce⟩ := ih
    refine ⟨c :: added, by simp, hsub.cons_cons c, fun before e after he => ?_⟩
    cases before with
    | nil =>
      obtain ⟨rfl, -⟩ := List.cons.inj he
      simpa using hfree
    | cons b before =>
      obtain ⟨rfl, htail⟩ := List.cons.inj he
      simpa using honce before e after htail
  | kept _ _ ih =>
    obtain ⟨added, rfl, hsub, honce⟩ := ih
    exact ⟨added, rfl, hsub.cons _, honce⟩

theorem Supplements.replaces (h : Supplements own shared result) : Replaces own shared result := by
  obtain ⟨added, rfl, -, honce⟩ := h.added_once
  refine ⟨List.prefix_append own added, h, fun before c after he => honce before c after ?_⟩
  rw [List.append_assoc] at he
  exact List.append_cancel_left he

/-! Adding by whole names -/

theorem addShared_of_named (h : ∃ d ∈ own, d.name = c.name) : addShared own c = own := by
  simpa [addShared] using h

theorem addShared_of_unnamed (h : ¬∃ d ∈ own, d.name = c.name) : addShared own c = own ++ [c] := by
  simpa [addShared] using h

/-- A list has the names of all channels that it was offered. -/
theorem exists_name_iff (before : List Channel) (name : Names) :
    (∃ d ∈ addShared own c ++ before, d.name = name) ↔
      ∃ d ∈ own ++ c :: before, d.name = name := by
  by_cases h : ∃ d ∈ own, d.name = c.name
  · obtain ⟨e, he, hname⟩ := h
    rw [addShared_of_named ⟨e, he, hname⟩]
    constructor
    · rintro ⟨d, hd, hn⟩
      exact ⟨d, (List.sublist_cons_self c before).append_left own |>.subset hd, hn⟩
    · rintro ⟨d, hd, hn⟩
      obtain hd | hd := List.mem_append.1 hd
      · exact ⟨d, List.mem_append_left _ hd, hn⟩
      obtain rfl | hd := List.mem_cons.1 hd
      · exact ⟨e, List.mem_append_left _ he, hname.trans hn⟩
      · exact ⟨d, List.mem_append_right _ hd, hn⟩
  · rw [addShared_of_unnamed h, List.append_assoc, List.singleton_append]

/-- Whether a channel meets one of a list is told by the names of the list. -/
theorem exists_meets_of_names {cs ds : List Channel}
    (h : ∀ name, (∃ d ∈ cs, d.name = name) ↔ ∃ d ∈ ds, d.name = name) (e : Channel) :
    (∃ d ∈ cs, d.Meets e) ↔ ∃ d ∈ ds, d.Meets e := by
  constructor <;> rintro ⟨d, hd, n, hn⟩
  · obtain ⟨b, hb, hname⟩ := (h d.name).1 ⟨d, hd, rfl⟩
    exact ⟨b, hb, n, hname ▸ hn⟩
  · obtain ⟨b, hb, hname⟩ := (h d.name).2 ⟨d, hd, rfl⟩
    exact ⟨b, hb, n, hname ▸ hn⟩

/-- What is added by whole names has a new name each time. -/
theorem foldl_addShared (own shared : List Channel) :
    ∃ added, shared.foldl addShared own = own ++ added ∧ added.Sublist shared ∧
      ∀ c ∈ added.head?, ¬∃ d ∈ own, d.name = c.name := by
  induction shared generalizing own with
  | nil => exact ⟨[], by simp⟩
  | cons c shared ih =>
    rw [List.foldl_cons]
    by_cases h : ∃ d ∈ own, d.name = c.name
    · rw [addShared_of_named h]
      obtain ⟨added, hadded, hsub, hhead⟩ := ih own
      exact ⟨added, hadded, hsub.cons c, hhead⟩
    · obtain ⟨added, hadded, hsub, -⟩ := ih (own ++ [c])
      rw [addShared_of_unnamed h, hadded, List.append_assoc]
      exact ⟨c :: added, rfl, hsub.cons_cons c, by simpa using h⟩

/-- One shared channel is treated right if its name as a whole is in the list just when one of its
names is. -/
theorem supplements_cons_iff (own shared : List Channel) (c : Channel) :
    Supplements own (c :: shared) ((c :: shared).foldl addShared own) ↔
      ((∃ d ∈ own, d.name = c.name) ↔ ∃ d ∈ own, d.Meets c) ∧
        Supplements (addShared own c) shared (shared.foldl addShared (addShared own c)) := by
  rw [List.foldl_cons]
  by_cases hname : ∃ d ∈ own, d.name = c.name
  · rw [addShared_of_named hname]
    obtain ⟨added, hadded, -, hhead⟩ := foldl_addShared own shared
    constructor
    · intro h
      cases h with
      | added hfree h =>
        -- The channel would be the first one added, although its name is there.
        obtain ⟨more, hmore, -⟩ := h.added_once
        rw [hadded, List.append_assoc] at hmore
        obtain rfl := List.append_cancel_left hmore
        exact absurd hname (hhead c rfl)
      | kept htaken h => exact ⟨iff_of_true hname htaken, h⟩
    · rintro ⟨hiff, h⟩
      exact .kept (hiff.1 hname) h
  · rw [addShared_of_unnamed hname]
    obtain ⟨added, hadded, -⟩ := foldl_addShared (own ++ [c]) shared
    constructor
    · intro h
      cases h with
      | added hfree h =>
        exact ⟨iff_of_false hname fun ⟨d, hd, hmeets⟩ => hfree d hd hmeets, h⟩
      | kept htaken h =>
        obtain ⟨more, hmore, -, honce⟩ := h.added_once
        rw [hadded, List.append_assoc] at hmore
        obtain ⟨d, hd, hmeets⟩ := htaken
        have hmore := List.append_cancel_left hmore
        exact absurd hmeets (honce [] c added hmore.symm d (by simpa using hd))
    · rintro ⟨hiff, h⟩
      exact .added (fun d hd hmeets => hname (hiff.2 ⟨d, hd, hmeets⟩)) h

/-- Shared channels supplement a list just if each one meets a channel of the list or an earlier
shared one when its name as a whole is the name of such a channel, and only then. -/
theorem supplements_iff (own shared : List Channel) :
    Supplements own shared (shared.foldl addShared own) ↔
      ∀ before c after, shared = before ++ c :: after →
        ((∃ d ∈ own ++ before, d.name = c.name) ↔ ∃ d ∈ own ++ before, d.Meets c) := by
  induction shared generalizing own with
  | nil => exact iff_of_true (.nil own) (by simp)
  | cons c shared ih =>
    have hnames := @exists_name_iff own c
    have hmeets := fun before => exists_meets_of_names (hnames before)
    rw [supplements_cons_iff, ih]
    constructor
    · rintro ⟨hc, h⟩ before e after he
      cases before with
      | nil =>
        obtain ⟨rfl, -⟩ := List.cons.inj he
        simpa using hc
      | cons b before =>
        obtain ⟨rfl, htail⟩ := List.cons.inj he
        rw [← hnames, ← hmeets]
        exact h before e after htail
    · intro h
      refine ⟨by simpa using h [] c shared rfl, fun before e after he => ?_⟩
      rw [hnames, hmeets]
      exact h (c :: before) e after (congrArg _ he)

end

/-- The channels of a stage are its own, in their order, and some of the shared ones, in theirs. In
the list the shared channels take no name that is declared already just if each of them that meets
an own channel of the stage or an earlier shared one has the name of such a channel as a whole, and
each one that is left out declares a name. -/
theorem stages_replace_iff (m : Manifest) :
    List.Forall₂ (fun own stage => ∃ added, stage = { own with channels := own.channels ++ added } ∧
      added.Sublist m.shared ∧
      (Replaces own.channels m.shared stage.channels ↔
        ∀ before c after, m.shared = before ++ c :: after →
          ((∃ d ∈ own.channels ++ before, d.name = c.name) ↔
            ∃ d ∈ own.channels ++ before, d.Meets c))) m.ownStages m.stages := by
  refine List.forall₂_map_right_iff.2 (List.forall₂_same.2 fun own _ => ?_)
  obtain ⟨added, hadded, hsub, -⟩ := foldl_addShared own.channels m.shared
  refine ⟨added, by rw [withShared, hadded], hsub, ?_⟩
  rw [← supplements_iff]
  exact ⟨Replaces.follow, Supplements.replaces⟩

/-- A channel of two names that all stages share, and a stage that declares one of the names. -/
def forkedManifest : Manifest :=
  { name := "counts", target := none, params := [], settings := .standard, base := "/work"
    shared := [{ Channel.simple "" "file" "x" none with name := .list ["tables", "plots"] }]
    ownStages := [{ Stage.simple "count" "count.py" with
      channels := [.simple "tables" "file" "'counts.tsv'" none] }] }

/-- A name that a stage declares is declared again by a shared channel of several names. -/
theorem forked_declared_twice :
    forkedManifest.stages.map (fun s => s.channels.map Channel.name) =
        [[.one "tables", .list ["tables", "plots"]]] ∧
      ¬List.Forall₂ (fun own stage => Replaces own.channels forkedManifest.shared stage.channels)
        forkedManifest.ownStages forkedManifest.stages := by
  refine ⟨rfl, fun h => ?_⟩
  obtain ⟨hreplaces, -⟩ := List.forall₂_cons.1 h
  exact hreplaces.once [] _ [] rfl _ List.mem_cons_self ⟨"tables", by decide, by decide⟩

end Manifest
end Pipewright
