import Mathlib.Data.List.Nodup
import Mathlib.Data.List.Sort
import Mathlib.Logic.Relation
import Pipewright.Flow.Links

/-! The loops of links are the classes of points that lead to each other. -/
namespace Pipewright.Links
variable {size d k m p q : Nat} {links : Links} {rows : List (List Nat)}

/-- Links lead from a point to another one, in one or more steps. -/
def LeadsTo (links : Links) : Nat → Nat → Prop := Relation.TransGen fun p q => (p, q) ∈ links

/-! Rows -/

theorem lt_length_of_mem_rowOf (h : q ∈ rowOf rows p) : p < rows.length := by
  by_contra hp
  rw [rowOf, List.getElem?_eq_none (Nat.le_of_not_lt hp)] at h
  exact absurd h List.not_mem_nil

theorem mem_rowOf_next : q ∈ rowOf (next size links) p ↔ p < size ∧ (p, q) ∈ links := by
  by_cases hp : p < size
  · have hrow : rowOf (next size links) p =
        ((links.filter fun l => l.1 = p).map Prod.snd).eraseDups := by
      simp [rowOf, next, hp]
    rw [hrow, List.mem_eraseDups]
    simp only [List.mem_map, List.mem_filter, decide_eq_true_eq, hp, true_and]
    constructor
    · rintro ⟨⟨a, b⟩, ⟨hl, rfl⟩, rfl⟩
      exact hl
    · intro hl
      exact ⟨(p, q), ⟨hl, rfl⟩, rfl⟩
  · have hrow : rowOf (next size links) p = [] := by
      simp [rowOf, next, hp]
    simp [hrow, hp]

theorem mem_rowOf_through : q ∈ rowOf (through rows k) p ↔
    q ∈ rowOf rows p ∨ k ∈ rowOf rows p ∧ q ∈ rowOf rows k := by
  have hrow : rowOf (through rows k) p =
      if (rowOf rows p).contains k then
        rowOf rows p ++ (rowOf rows k).filter fun q => !(rowOf rows p).contains q
      else rowOf rows p := by
    cases hp : rows[p]? with
    | none => simp [rowOf, through, hp]
    | some row => simp [rowOf, through, hp]
  rw [hrow]
  by_cases hk : k ∈ rowOf rows p
  · by_cases hq : q ∈ rowOf rows p <;> simp [hk, hq]
  · simp [hk]

/-- What leads to a point leads to all that the point leads to. -/
def ClosedAt (rows : List (List Nat)) (k : Nat) : Prop :=
  ∀ p q, k ∈ rowOf rows p → q ∈ rowOf rows k → q ∈ rowOf rows p

theorem closedAt_through_self (rows : List (List Nat)) (k : Nat) :
    ClosedAt (through rows k) k := by
  intro p q hp hq
  rw [mem_rowOf_through] at hp hq ⊢
  have hpk : k ∈ rowOf rows p := hp.elim id And.left
  have hkq : q ∈ rowOf rows k := hq.elim id And.right
  exact .inr ⟨hpk, hkq⟩

theorem ClosedAt.through (h : ClosedAt rows m) (k : Nat) : ClosedAt (through rows k) m := by
  intro p q hp hq
  rw [mem_rowOf_through] at hp hq ⊢
  rcases hp with hp | ⟨hpk, hkm⟩
  · rcases hq with hq | ⟨hmk, hkq⟩
    · exact .inl (h p q hp hq)
    · exact .inr ⟨h p k hp hmk, hkq⟩
  · rcases hq with hq | ⟨-, hkq⟩
    · exact .inr ⟨hpk, h k q hkm hq⟩
    · exact .inr ⟨hpk, hkq⟩

theorem ClosedAt.foldl_through (h : ClosedAt rows m) (ks : List Nat) :
    ClosedAt (ks.foldl Links.through rows) m := by
  induction ks generalizing rows with
  | nil => exact h
  | cons k ks ih => exact ih (h.through k)

theorem closedAt_foldl_through {ks : List Nat} (hk : k ∈ ks) :
    ClosedAt (ks.foldl through rows) k := by
  induction ks generalizing rows with
  | nil => cases hk
  | cons j ks ih =>
    rcases List.mem_cons.1 hk with rfl | hk
    · exact (closedAt_through_self rows k).foldl_through ks
    · exact ih hk

theorem mem_rowOf_foldl_through (ks : List Nat) (h : q ∈ rowOf rows p) :
    q ∈ rowOf (ks.foldl through rows) p := by
  induction ks generalizing rows with
  | nil => exact h
  | cons k ks ih => exact ih (mem_rowOf_through.2 (.inl h))

theorem leadsTo_of_mem_foldl_through {ks : List Nat}
    (hrows : ∀ p q, q ∈ rowOf rows p → LeadsTo links p q)
    (h : q ∈ rowOf (ks.foldl through rows) p) : LeadsTo links p q := by
  induction ks generalizing rows with
  | nil => exact hrows p q h
  | cons k ks ih =>
    refine ih (fun a b hab => ?_) h
    rcases mem_rowOf_through.1 hab with hab | ⟨hak, hkb⟩
    · exact hrows a b hab
    · exact (hrows a k hak).trans (hrows k b hkb)

/-- The rows that are left when all points have been passed through hold what links lead to. -/
theorem mem_rowOf_reached (hlinks : ∀ l ∈ links, l.1 < size) :
    q ∈ rowOf (reached size links) p ↔ LeadsTo links p q := by
  constructor
  · refine leadsTo_of_mem_foldl_through fun a b hab => ?_
    exact .single (mem_rowOf_next.1 hab).2
  · intro h
    have hone : ∀ {a b}, (a, b) ∈ links → b ∈ rowOf (reached size links) a := fun hab =>
      mem_rowOf_foldl_through _ (mem_rowOf_next.2 ⟨hlinks _ hab, hab⟩)
    induction h with
    | single hq => exact hone hq
    | tail _ hbc ih =>
      exact closedAt_foldl_through (List.mem_range.2 (hlinks _ hbc)) p _ ih (hone hbc)

/-! The order of visits -/

/-- From one state of a visit to a later one no point is forgotten, and every point that is new
among the seen ones has been finished. -/
structure Settles (st st' : List Nat × List Nat) : Prop where
  seen : ∀ x ∈ st.1, x ∈ st'.1
  finished : ∀ x ∈ st.2, x ∈ st'.2
  fresh : ∀ x ∈ st'.1, x ∈ st.1 ∨ x ∈ st'.2

theorem Settles.refl (st : List Nat × List Nat) : Settles st st :=
  ⟨fun _ h => h, fun _ h => h, fun _ h => .inl h⟩

theorem Settles.trans {st st' st'' : List Nat × List Nat} (h : Settles st st')
    (h' : Settles st' st'') : Settles st st'' := by
  refine ⟨fun x hx => h'.seen x (h.seen x hx), fun x hx => h'.finished x (h.finished x hx), ?_⟩
  intro x hx
  rcases h'.fresh x hx with hx | hx
  · exact (h.fresh x hx).imp id (h'.finished x)
  · exact .inr hx

theorem settles_foldl {f : List Nat × List Nat → Nat → List Nat × List Nat}
    (hf : ∀ st p, Settles st (f st p)) (ps : List Nat) (st : List Nat × List Nat) :
    Settles st (ps.foldl f st) := by
  induction ps generalizing st with
  | nil => exact .refl st
  | cons p ps ih => exact (hf st p).trans (ih (f st p))

theorem settles_visit (links : Links) (d : Nat) (st : List Nat × List Nat) (p : Nat) :
    Settles st (visit links d st p) := by
  induction d generalizing st p with
  | zero => exact .refl st
  | succ d ih =>
    obtain ⟨seen, finished⟩ := st
    rw [visit]
    split
    · exact .refl _
    · have h := settles_foldl ih (before links p) (p :: seen, finished)
      refine ⟨fun x hx => h.seen x (List.mem_cons_of_mem p hx),
        fun x hx => List.mem_append_left _ (h.finished x hx), fun x hx => ?_⟩
      rcases h.fresh x hx with hx | hx
      · rcases List.mem_cons.1 hx with rfl | hx
        · exact .inr (List.mem_append_right _ (List.mem_singleton_self x))
        · exact .inl hx
      · exact .inr (List.mem_append_left _ hx)

theorem mem_seen_visit (links : Links) (d : Nat) (st : List Nat × List Nat) (p : Nat) :
    p ∈ (visit links (d + 1) st p).1 := by
  obtain ⟨seen, finished⟩ := st
  rw [visit]
  split
  · rename_i h
    exact List.contains_iff_mem.1 h
  · exact (settles_foldl (settles_visit links d) (before links p) (p :: seen, finished)).seen p
      List.mem_cons_self

theorem mem_finishOrder (links : Links) (hp : p < size) : p ∈ finishOrder size links := by
  have hseen : ∀ (ps : List Nat) st, p ∈ ps →
      p ∈ (ps.foldl (visit links (size + 1)) st).1 := by
    intro ps
    induction ps with
    | nil => intro st hp; cases hp
    | cons k ps ih =>
      intro st hp
      rcases List.mem_cons.1 hp with rfl | hp
      · exact (settles_foldl (settles_visit links _) ps _).seen p (mem_seen_visit links _ st p)
      · exact ih _ hp
  have h := settles_foldl (settles_visit links (size + 1)) (List.range size) ([], [])
  exact (h.fresh p (hseen _ _ (List.mem_range.2 hp))).resolve_left List.not_mem_nil

/-! Loops -/

theorem mem_loopOf : q ∈ loopOf rows p ↔ q ∈ rowOf rows p ∧ p ∈ rowOf rows q := by
  simp only [loopOf, List.mem_filter, List.mem_range, Bool.and_eq_true, List.contains_iff_mem]
  exact ⟨And.right, fun h => ⟨lt_length_of_mem_rowOf h.2, h⟩⟩

theorem pairwise_loopOf (rows : List (List Nat)) (p : Nat) :
    (loopOf rows p).Pairwise (· < ·) := List.pairwise_lt_range.filter _

theorem mem_addLoop {loops : List (List Nat)} {K L : List Nat} :
    K ∈ addLoop loops L ↔ K ∈ loops ∨ K = L ∧ K ≠ [] := by
  rw [addLoop]
  split
  · rename_i h
    simp only [Bool.or_eq_true, List.isEmpty_iff, List.contains_iff_mem] at h
    constructor
    · exact .inl
    · rintro (hK | ⟨rfl, hne⟩)
      · exact hK
      · exact h.resolve_left hne
  · rename_i h
    simp only [Bool.or_eq_true, List.isEmpty_iff, List.contains_iff_mem, not_or] at h
    rw [List.mem_append, List.mem_singleton]
    refine or_congr_right ⟨?_, And.left⟩
    rintro rfl
    exact ⟨rfl, h.1⟩

theorem mem_foldl_addLoop {loops Ls : List (List Nat)} {K : List Nat} :
    K ∈ Ls.foldl addLoop loops ↔ K ∈ loops ∨ K ∈ Ls ∧ K ≠ [] := by
  induction Ls generalizing loops with
  | nil => simp
  | cons L Ls ih =>
    rw [List.foldl_cons, ih, mem_addLoop, List.mem_cons, or_and_right, or_assoc]

theorem nodup_foldl_addLoop {loops : List (List Nat)} (h : loops.Nodup)
    (Ls : List (List Nat)) : (Ls.foldl addLoop loops).Nodup := by
  induction Ls generalizing loops with
  | nil => exact h
  | cons L Ls ih =>
    refine ih ?_
    rw [addLoop]
    split
    · exact h
    · rename_i hL
      simp only [Bool.or_eq_true, List.contains_iff_mem, not_or] at hL
      exact h.append (List.nodup_singleton L) (List.disjoint_singleton.2 hL.2)

theorem nodup_loops (size : Nat) (links : Links) : (loops size links).Nodup :=
  nodup_foldl_addLoop List.nodup_nil _

theorem lt_of_leadsTo (hlinks : ∀ l ∈ links, l.1 < size) (h : LeadsTo links p q) : p < size := by
  induction h using Relation.TransGen.head_induction_on with
  | single h => exact hlinks _ h
  | head h _ _ => exact hlinks _ h

/-- Each loop holds, in order, the points that lead to one of its points and back. -/
theorem mem_loops (hlinks : ∀ l ∈ links, l.1 < size) {K : List Nat} : K ∈ loops size links ↔
    K.Pairwise (· < ·) ∧ ∃ p ∈ K, ∀ q, q ∈ K ↔ LeadsTo links p q ∧ LeadsTo links q p := by
  have hloop : ∀ p q, q ∈ loopOf (reached size links) p ↔
      LeadsTo links p q ∧ LeadsTo links q p := by
    intro p q
    rw [mem_loopOf, mem_rowOf_reached hlinks, mem_rowOf_reached hlinks]
  rw [loops, mem_foldl_addLoop, or_iff_right List.not_mem_nil, List.mem_map]
  constructor
  · rintro ⟨⟨p, -, rfl⟩, hne⟩
    obtain ⟨q, hq⟩ := List.exists_mem_of_ne_nil _ hne
    obtain ⟨hpq, hqp⟩ := (hloop p q).1 hq
    exact ⟨pairwise_loopOf _ p, p, (hloop p p).2 ⟨hpq.trans hqp, hpq.trans hqp⟩, hloop p⟩
  · rintro ⟨hsorted, p, hp, hK⟩
    have hpp := ((hK p).1 hp).1
    have hmem : ∀ q, q ∈ loopOf (reached size links) p ↔ q ∈ K := fun q =>
      (hloop p q).trans (hK q).symm
    have heq : loopOf (reached size links) p = K :=
      (pairwise_loopOf _ p).eq_of_mem_iff hsorted hmem
    refine ⟨⟨p, List.mem_reverse.2 (mem_finishOrder links (lt_of_leadsTo hlinks hpp)), heq⟩, ?_⟩
    exact List.ne_nil_of_mem hp

end Pipewright.Links
