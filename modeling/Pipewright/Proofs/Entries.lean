import Mathlib.Data.List.Basic
import Mathlib.Data.List.Induction
import Mathlib.Data.List.Nodup
import Pipewright.Entries

/-! Lookups in lists of named entries, and what setting an entry does to names and values. -/
namespace Pipewright.Entries
variable {α : Type*}

theorem get?_cons (name : String) (e : String × α) (es : List (String × α)) :
    get? name (e :: es) = if e.1 = name then some e.2 else get? name es := by
  by_cases h : e.1 = name <;> simp [get?, h]

theorem get?_eq_none_iff {name : String} {es : List (String × α)} :
    get? name es = none ↔ name ∉ es.map Prod.fst := by
  induction es with
  | nil => simp [get?]
  | cons e es ih =>
    by_cases h : e.1 = name
    · simp [get?_cons, h]
    · have hn : name ≠ e.1 := Ne.symm h
      simp [get?_cons, h, hn, ih]

theorem get?_append (name : String) (es fs : List (String × α)) :
    get? name (es ++ fs) = (get? name es).or (get? name fs) := by
  rw [get?, List.find?_append, Option.map_or]
  rfl

theorem mem_of_get? {name : String} {v : α} {es : List (String × α)} (h : get? name es = some v) :
    (name, v) ∈ es := by
  induction es with
  | nil => cases h
  | cons e es ih =>
    rw [get?_cons] at h
    split at h
    · rename_i he
      cases h
      exact he ▸ List.mem_cons_self
    · exact List.mem_cons_of_mem e (ih h)

/-- Where names are distinct, every entry is found. -/
theorem get?_of_mem {e : String × α} {es : List (String × α)}
    (hd : (es.map Prod.fst).Nodup) (h : e ∈ es) : get? e.1 es = some e.2 := by
  induction es with
  | nil => simp at h
  | cons f es ih =>
    rw [List.map_cons, List.nodup_cons] at hd
    rw [get?_cons]
    rcases List.mem_cons.1 h with rfl | h
    · simp
    · have hne : f.1 ≠ e.1 := fun he => hd.1 (he ▸ List.mem_map_of_mem h)
      rw [if_neg hne, ih hd.2 h]

theorem get?_put_self (name : String) (v : α) (es : List (String × α)) :
    get? name (put name v es) = some v := by
  induction es with
  | nil => simp [put, get?_cons]
  | cons e es ih =>
    by_cases h : e.1 = name
    · simp [put, get?_cons, h]
    · simp [put, get?_cons, h, ih]

theorem get?_put_of_ne {name other : String} (h : other ≠ name) (v : α)
    (es : List (String × α)) : get? other (put name v es) = get? other es := by
  induction es with
  | nil => simp [put, get?, Ne.symm h]
  | cons e es ih =>
    by_cases he : e.1 = name
    · simp [put, get?_cons, he, Ne.symm h]
    · simp [put, get?_cons, he, ih]

theorem put_of_not_mem {name : String} {es : List (String × α)} (h : name ∉ es.map Prod.fst)
    (v : α) : put name v es = es ++ [(name, v)] := by
  induction es with
  | nil => rfl
  | cons e es ih =>
    rw [List.map_cons, List.mem_cons, not_or] at h
    simp [put, Ne.symm h.1, ih h.2]

theorem names_put (name : String) (v : α) (es : List (String × α)) :
    (put name v es).map Prod.fst =
      if name ∈ es.map Prod.fst then es.map Prod.fst else es.map Prod.fst ++ [name] := by
  induction es with
  | nil => simp [put]
  | cons e es ih =>
    by_cases he : e.1 = name
    · simp [put, he]
    · have hn : name ≠ e.1 := Ne.symm he
      by_cases hm : name ∈ es.map Prod.fst
      · simp only [put, he, if_false, List.map_cons, ih, hm, if_true, List.mem_cons, or_true]
      · simp only [put, he, if_false, List.map_cons, ih, hm, List.mem_cons, hn, or_self,
          List.cons_append]

/-- Where the keys of a list are distinct, one element has the key of a member. -/
theorem filter_key {β : Type*} [DecidableEq β] {key : α → β} {a : α} {as : List α}
    (hd : (as.map key).Nodup) (ha : a ∈ as) : as.filter (fun c => key c = key a) = [a] := by
  induction as with
  | nil => simp at ha
  | cons c as ih =>
    rw [List.map_cons, List.nodup_cons] at hd
    rcases List.mem_cons.1 ha with rfl | ha
    · have hn : ∀ c ∈ as, ¬key c = key a := fun c hc he =>
        hd.1 (he ▸ List.mem_map_of_mem hc)
      simpa using hn
    · have hne : key c ≠ key a := fun he => hd.1 (he ▸ List.mem_map_of_mem ha)
      simpa [hne] using ih hd.2 ha

/-! Setting one entry after the other -/

/-- The entries that are left when all of a list are set in turn. -/
def putAll (es : List (String × α)) : List (String × α) :=
  es.foldl (fun set e => put e.1 e.2 set) []

theorem putAll_append_singleton (es : List (String × α)) (e : String × α) :
    putAll (es ++ [e]) = put e.1 e.2 (putAll es) := by
  rw [putAll, List.foldl_append]
  rfl

/-- Entries of distinct names are left as they are. -/
theorem putAll_of_nodup {es : List (String × α)} (h : (es.map Prod.fst).Nodup) :
    putAll es = es := by
  induction es using List.reverseRecOn with
  | nil => rfl
  | append_singleton es e ih =>
    rw [List.map_append, List.map_singleton] at h
    obtain ⟨hes, -, hapart⟩ := List.nodup_append.1 h
    have hnew : e.1 ∉ es.map Prod.fst := fun hm => hapart e.1 hm e.1 (List.mem_singleton_self _) rfl
    rw [putAll_append_singleton, ih hes, put_of_not_mem hnew]

theorem nodup_names_put {es : List (String × α)} (h : (es.map Prod.fst).Nodup) (name : String)
    (v : α) : ((put name v es).map Prod.fst).Nodup := by
  rw [names_put]
  split
  · exact h
  · rename_i hn
    rw [List.nodup_append]
    refine ⟨h, List.nodup_singleton name, ?_⟩
    intro a ha b hb he
    rw [List.mem_singleton.1 hb] at he
    exact hn (he ▸ ha)

section
variable {β : Type*} {key : β → String}

/-- Names stand in the order in which they first came, if each step adds a name just if it is new,
whatever it does to values. -/
theorem names_foldl {step : List (String × α) → β → List (String × α)}
    (hstep : ∀ es b, (step es b).map Prod.fst =
      if key b ∈ es.map Prod.fst then es.map Prod.fst else es.map Prod.fst ++ [key b])
    (bs : List β) : (bs.foldl step []).map Prod.fst = (bs.map key).eraseDups := by
  induction bs using List.reverseRecOn with
  | nil => rfl
  | append_singleton bs b ih =>
    rw [List.foldl_append, List.foldl_cons, List.foldl_nil, hstep, ih, List.map_append,
      List.eraseDups_append]
    by_cases hm : key b ∈ bs.map key
    · have hr : [key b].removeAll (bs.map key) = [] := by
        simpa [List.removeAll] using hm
      rw [if_pos (List.mem_eraseDups.2 hm), List.map_singleton, hr, List.eraseDups_nil,
        List.append_nil]
    · have hr : [key b].removeAll (bs.map key) = [key b] := by
        simpa [List.removeAll] using hm
      rw [if_neg fun h => hm (List.mem_eraseDups.1 h), List.map_singleton, hr]
      rfl

theorem names_foldl_put (value : List (String × α) → β → α) (bs : List β) :
    (bs.foldl (fun es b => put (key b) (value es b) es) []).map Prod.fst =
      (bs.map key).eraseDups :=
  names_foldl (fun es b => names_put (key b) (value es b) es) bs

theorem nodup_names_foldl_put (value : List (String × α) → β → α) (bs : List β) :
    ((bs.foldl (fun es b => put (key b) (value es b) es) []).map Prod.fst).Nodup := by
  induction bs using List.reverseRecOn with
  | nil => exact List.nodup_nil
  | append_singleton bs b ih =>
    rw [List.foldl_append]
    exact nodup_names_put ih (key b) _

end

theorem nodup_eraseDups (names : List String) : names.eraseDups.Nodup := by
  have hput : (names.foldl (fun es n => put n () es) []).map Prod.fst = (names.map id).eraseDups :=
    names_foldl_put (fun _ _ => ()) names
  rw [← List.map_id names, ← hput]
  exact nodup_names_foldl_put _ names

theorem nodup_names_putAll (es : List (String × α)) : ((putAll es).map Prod.fst).Nodup :=
  nodup_names_foldl_put (fun _ e => e.2) es

theorem names_putAll (es : List (String × α)) :
    (putAll es).map Prod.fst = (es.map Prod.fst).eraseDups :=
  names_foldl_put (fun _ e => e.2) es

theorem get?_putAll (name : String) (es : List (String × α)) :
    get? name (putAll es) = ((es.filter fun e => e.1 = name).getLast?).map Prod.snd := by
  induction es using List.reverseRecOn with
  | nil => rfl
  | append_singleton es e ih =>
    rw [putAll_append_singleton, List.filter_append]
    by_cases he : e.1 = name
    · subst he
      rw [get?_put_self]
      simp
    · rw [get?_put_of_ne (Ne.symm he), ih]
      simp [he]

/-- Every entry that is left is the last one of its name. -/
theorem getLast?_of_mem_putAll {es : List (String × α)} {e : String × α} (h : e ∈ putAll es) :
    (es.filter fun d => d.1 = e.1).getLast? = some e := by
  have hget := get?_of_mem (nodup_names_putAll es) h
  rw [get?_putAll] at hget
  obtain ⟨d, hd, hv⟩ := Option.map_eq_some_iff.1 hget
  have hn : d.1 = e.1 := of_decide_eq_true (List.mem_filter.1 (List.mem_of_getLast? hd)).2
  rw [hd, Prod.ext hn hv]

/-! Entries in the order of their names -/

/-- Entries in the order of their names, each name once. -/
def Ordered (es : List (String × α)) : Prop := es.Pairwise fun e f => e.1 < f.1

instance (es : List (String × α)) : Decidable (Ordered es) :=
  inferInstanceAs (Decidable (es.Pairwise fun e f => e.1 < f.1))

theorem putSorted_of_lt {name : String} {es : List (String × α)} (h : ∀ e ∈ es, e.1 < name)
    (v : α) : putSorted name v es = es ++ [(name, v)] := by
  induction es with
  | nil => rfl
  | cons e es ih =>
    obtain ⟨he, hes⟩ := List.forall_mem_cons.1 h
    simp [putSorted, String.ne_of_lt he, String.lt_asymm he, ih hes]

/-- What is in order stays as it is. -/
theorem sort_of_ordered {es : List (String × α)} (h : Ordered es) : sort es = es := by
  induction es using List.reverseRecOn with
  | nil => rfl
  | append_singleton es e ih =>
    obtain ⟨hes, -, hlt⟩ := List.pairwise_append.1 h
    have hs : es.foldl (fun sorted e => putSorted e.1 e.2 sorted) [] = es := ih hes
    rw [sort, List.foldl_append, hs]
    exact putSorted_of_lt (fun d hd => hlt d hd e (List.mem_singleton_self e)) e.2

theorem mem_putSorted {name : String} {v : α} {e : String × α} {es : List (String × α)}
    (h : Ordered es) : e ∈ putSorted name v es ↔ e = (name, v) ∨ e ∈ es ∧ e.1 ≠ name := by
  induction es with
  | nil => simp [putSorted]
  | cons d es ih =>
    obtain ⟨hd, hes⟩ := List.pairwise_cons.1 h
    have hlater : ∀ c ∈ es, name = d.1 ∨ name < d.1 → c.1 ≠ name := by
      intro c hc hname he
      have hgt : d.1 < name := he ▸ hd c hc
      obtain heq | hlt := hname
      · exact String.lt_irrefl _ (heq ▸ hgt)
      · exact String.lt_asymm hlt hgt
    rw [putSorted]
    split
    · rename_i heq
      have hkept : e ∈ es → e.1 ≠ name := fun he => hlater e he (.inl heq.symm)
      grind
    · split
      · rename_i hne hlt
        have hkept : e ∈ es → e.1 ≠ name := fun he => hlater e he (.inr hlt)
        grind
      · have := ih hes
        grind

theorem ordered_putSorted {es : List (String × α)} (h : Ordered es) (name : String) (v : α) :
    Ordered (putSorted name v es) := by
  induction es with
  | nil => exact List.pairwise_singleton _ _
  | cons d es ih =>
    obtain ⟨hd, hes⟩ := List.pairwise_cons.1 h
    rw [putSorted]
    split
    · rename_i heq
      exact List.pairwise_cons.2 ⟨fun c hc => heq ▸ hd c hc, hes⟩
    · split
      · rename_i hlt
        refine List.pairwise_cons.2 ⟨List.forall_mem_cons.2 ⟨hlt, fun c hc => ?_⟩, h⟩
        exact String.lt_trans hlt (hd c hc)
      · rename_i hne hnlt
        have hgt : d.1 < name := by grind
        refine List.pairwise_cons.2 ⟨fun c hc => ?_, ih hes⟩
        obtain rfl | ⟨hc, -⟩ := (mem_putSorted hes).1 hc
        · exact hgt
        · exact hd c hc

theorem sort_append_singleton (es : List (String × α)) (e : String × α) :
    sort (es ++ [e]) = putSorted e.1 e.2 (sort es) := by
  rw [sort, List.foldl_append]
  rfl

theorem ordered_sort (es : List (String × α)) : Ordered (sort es) := by
  induction es using List.reverseRecOn with
  | nil => exact List.Pairwise.nil
  | append_singleton es e ih =>
    rw [sort_append_singleton]
    exact ordered_putSorted ih e.1 e.2

theorem Ordered.nodup_names {es : List (String × α)} (h : Ordered es) :
    (es.map Prod.fst).Nodup :=
  List.pairwise_map.2 (h.imp fun hlt => String.ne_of_lt hlt)

theorem mem_put {name : String} {v : α} {e : String × α} {es : List (String × α)}
    (h : (es.map Prod.fst).Nodup) : e ∈ put name v es ↔ e = (name, v) ∨ e ∈ es ∧ e.1 ≠ name := by
  induction es with
  | nil => simp [put]
  | cons d es ih =>
    rw [List.map_cons, List.nodup_cons] at h
    have hlater : ∀ c ∈ es, c.1 ≠ d.1 := fun c hc he => h.1 (he ▸ List.mem_map_of_mem hc)
    rw [put]
    split
    · rename_i heq
      have hkept : e ∈ es → e.1 ≠ name := fun he => heq ▸ hlater e he
      grind
    · have := ih h.2
      grind

/-- Sorting leaves the same entries as setting them in turn. -/
theorem sort_perm_putAll (es : List (String × α)) : (sort es).Perm (putAll es) := by
  induction es using List.reverseRecOn with
  | nil => exact .refl _
  | append_singleton es e ih =>
    have hsorted := (ordered_putSorted (ordered_sort es) e.1 e.2).nodup_names
    have hput := nodup_names_put (nodup_names_putAll es) e.1 e.2
    rw [sort_append_singleton, putAll_append_singleton]
    refine (List.perm_ext_iff_of_nodup (.of_map _ hsorted) (.of_map _ hput)).2 fun d => ?_
    rw [mem_putSorted (ordered_sort es), mem_put (nodup_names_putAll es), ih.mem_iff]

theorem mem_of_mem_sort {es : List (String × α)} {e : String × α} (h : e ∈ sort es) : e ∈ es := by
  have hlast := getLast?_of_mem_putAll ((sort_perm_putAll es).mem_iff.1 h)
  exact List.mem_of_mem_filter (List.mem_of_getLast? hlast)

theorem putSorted_map {β : Type*} (f : α → β) (name : String) (v : α) (es : List (String × α)) :
    putSorted name (f v) (es.map fun e => (e.1, f e.2)) =
      (putSorted name v es).map fun e => (e.1, f e.2) := by
  induction es with
  | nil => rfl
  | cons d es ih =>
    rw [List.map_cons, putSorted, putSorted, ih]
    split
    · rfl
    · split <;> rfl

theorem sort_map {β : Type*} (f : α → β) (es : List (String × α)) :
    sort (es.map fun e => (e.1, f e.2)) = (sort es).map fun e => (e.1, f e.2) := by
  induction es using List.reverseRecOn with
  | nil => rfl
  | append_singleton es e ih =>
    rw [List.map_append, List.map_singleton, sort_append_singleton, sort_append_singleton, ih]
    exact putSorted_map f e.1 e.2 (sort es)

end Pipewright.Entries
