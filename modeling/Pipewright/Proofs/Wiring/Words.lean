import Pipewright.Proofs.Binding.Table
import Pipewright.Proofs.Channel.Sides
import Pipewright.Proofs.Wiring.Ledger

/-! The words of a command that are for one parameter: one for each entry that binds it. -/
namespace Pipewright.Wiring

/-- Whether an entry binds a parameter. -/
def binds (param : String) (e : String × String) : Bool := !isStarred e.1 && e.1 = param

/-- The entries of channels that name a parameter, with stars or without. -/
def naming (param : String) (cs : List Channel) : List (String × String) :=
  (cs.flatMap entriesOf).filter fun e => withoutStars e.1 = param

/-- The words of a command that are for one parameter. -/
def wordsFor (b : Binding) (w : Wiring) (param : String) : List String :=
  (w.flags.filter fun f => f.param = param).map FlagWord.text ++
    (b.arguments.filter fun a => a.param = param).filterMap fun a =>
      Entries.get? a.param w.positionals

/-! Stars -/

theorem withoutStars_of_not_starred {s : String} (h : isStarred s = false) :
    withoutStars s = s := by
  rw [withoutStars]
  cases hs : s.toList with
  | nil => rw [List.dropWhile_nil, ← hs, String.ofList_toList]
  | cons c cs =>
    have hc : c ≠ '*' := by simpa [isStarred, hs] using h
    rw [List.dropWhile_cons_of_neg (by simpa using hc), ← hs, String.ofList_toList]

theorem eq_of_binds {param : String} {e : String × String} :
    binds param e = true ↔ withoutStars e.1 = param ∧ isStarred e.1 = false := by
  simp only [binds, Bool.and_eq_true, Bool.not_eq_true', decide_eq_true_eq]
  constructor
  · rintro ⟨hs, rfl⟩
    exact ⟨withoutStars_of_not_starred hs, hs⟩
  · rintro ⟨rfl, hs⟩
    exact ⟨hs, (withoutStars_of_not_starred hs).symm⟩

/-! Entries of channels -/

theorem mem_links {r : ResolvedChannel} {e : String × String} (h : e ∈ links r) :
    ∃ (i : Nat) (v : String), r.params[i]? = some (some e.1) ∧ r.vars[i]? = some v ∧
      e.2 = shellReference v := by
  obtain ⟨⟨p, v⟩, hm, he⟩ := List.mem_filterMap.1 h
  obtain ⟨p', rfl, rfl⟩ := Option.map_eq_some_iff.1 he
  obtain ⟨i, hi⟩ := List.mem_iff_getElem?.1 hm
  obtain ⟨hp, hv⟩ := List.getElem?_zip_eq_some.1 hi
  exact ⟨i, v, hp, hv, rfl⟩

theorem map_fst_links {ps : List (Option String)} {vs : List String}
    (h : ps.length ≤ vs.length) :
    ((ps.zip vs).filterMap fun (p, v) => p.map fun p => (p, shellReference v)).map Prod.fst =
      ps.filterMap id := by
  induction ps generalizing vs with
  | nil => rfl
  | cons p ps ih =>
    cases vs with
    | nil => simp at h
    | cons v vs =>
      have hl : ps.length ≤ vs.length := by simpa using h
      cases p with
      | none => simpa using ih hl
      | some p => simpa using ih hl

theorem paramNames_eq (c : Channel) :
    c.paramNames = (entriesOf c).map fun e => withoutStars e.1 := by
  cases h : c.resolve with
  | error e => simp [Channel.paramNames, entriesOf, h]
  | ok r =>
    have hl : (links r).map Prod.fst = r.params.filterMap id := map_fst_links (Channel.length_params_le h)
    simp only [Channel.paramNames, entriesOf, h, ← hl, List.map_map]
    rfl

theorem naming_eq_nil_iff {param : String} {cs : List Channel} :
    naming param cs = [] ↔ ∀ c ∈ cs, param ∉ c.paramNames := by
  simp only [naming, List.filter_eq_nil_iff, List.mem_flatMap, paramNames_eq, List.mem_map,
    decide_eq_true_eq, not_exists, not_and]
  exact ⟨fun h c hc e he => h e ⟨c, hc, he⟩, fun h e ⟨c, hc, he⟩ => h c hc e he⟩

theorem filter_naming (param : String) (cs : List Channel) :
    (naming param cs).filter (fun e => !isStarred e.1) =
      (cs.flatMap entriesOf).filter (binds param) := by
  rw [naming, List.filter_filter]
  refine List.filter_congr fun e _ => ?_
  rw [Bool.eq_iff_iff, eq_of_binds]
  simp [and_comm]

theorem mem_live {c : Channel} {cs : List Channel} :
    c ∈ live cs ↔ c ∈ cs ∧ c.isSkipped = false := by
  simp [live]

/-- Entries that bind no parameter twice bind each at most once. -/
theorem length_filter_binds {es : List (String × String)} (h : (boundNames es).Nodup)
    (param : String) : (es.filter (binds param)).length ≤ 1 := by
  have hc := List.nodup_iff_count_le_one.1 h param
  rw [boundNames, List.count, List.countP_map, List.countP_filter, List.countP_eq_length_filter]
    at hc
  refine le_of_eq_of_le (congrArg List.length (List.filter_congr fun e _ => ?_)) hc
  rw [Bool.eq_iff_iff]
  simp [binds, and_comm]

/-! Words for one parameter -/

section
variable {b : Binding} {a : Argument} {w : Wiring} {param : String}

theorem param_of_mem_flagWords {e : String × String} {f : FlagWord} (h : f ∈ flagWords b e) :
    binds f.param e = true := by
  by_cases hs : isStarred e.1
  · simp [flagWords, emit, empty, hs] at h
  · simp only [flagWords, emit, empty, hs, Bool.false_eq_true, if_false] at h
    split at h
    · simp at h
    · simp only [List.nil_append, List.mem_singleton] at h
      simp [h, binds, hs]
    · simp only [List.nil_append, List.mem_singleton] at h
      simp [h, binds, hs]

theorem filter_flagWords {es : List (String × String)} (h : ∀ e ∈ es, ¬binds param e) :
    (es.flatMap (flagWords b)).filter (fun f => f.param = param) = [] := by
  refine List.filter_eq_nil_iff.2 fun f hf he => ?_
  obtain ⟨e, hm, hf⟩ := List.mem_flatMap.1 hf
  exact h e hm (of_decide_eq_true he ▸ param_of_mem_flagWords hf)

theorem get?_place_of_not_binds {e : String × String} (h : ¬binds param e)
    (ps : List (String × String)) :
    Entries.get? param (place b ps e) = Entries.get? param ps := by
  rw [place]
  split
  · rename_i hp
    have hne : param ≠ e.1 := by
      rintro rfl
      rw [Bool.and_eq_true] at hp
      exact h (by simpa [binds] using hp.1)
    exact Entries.get?_put_of_ne hne e.2 ps
  · rfl

theorem get?_foldl_place {es : List (String × String)} (h : ∀ e ∈ es, ¬binds param e)
    (ps : List (String × String)) :
    Entries.get? param (es.foldl (place b) ps) = Entries.get? param ps := by
  induction es generalizing ps with
  | nil => rfl
  | cons e es ih =>
    obtain ⟨he, hes⟩ := List.forall_mem_cons.1 h
    rw [List.foldl_cons, ih hes, get?_place_of_not_binds he]

variable (hc : b.Coherent) (hd : (b.arguments.map Argument.param).Nodup) (ha : a ∈ b.arguments)

include hc hd ha in
theorem flagWords_argument {e : String × String} (he : binds a.param e) :
    flagWords b e = if a.spelling = "" then [] else [⟨a.param, a.word e.2⟩] := by
  simp only [binds, Bool.and_eq_true, Bool.not_eq_true', decide_eq_true_eq] at he
  obtain ⟨hs, hp⟩ := he
  rw [hp] at hs
  have hg := Binding.get?_flagTable hc hd ha
  have hq := Binding.argument?_of_mem hd ha
  by_cases hsp : a.spelling = ""
  · simp [flagWords, emit, empty, hs, hp, hg, hsp]
  · by_cases hm : a.takesMany <;>
      simp [flagWords, emit, empty, hs, hg, hq, hsp, hm, Argument.word, hp]

include hc hd ha in
theorem place_argument {e : String × String} (he : binds a.param e)
    (ps : List (String × String)) :
    place b ps e = if a.spelling = "" then Entries.put a.param e.2 ps else ps := by
  simp only [binds, Bool.and_eq_true, Bool.not_eq_true', decide_eq_true_eq] at he
  obtain ⟨hs, hp⟩ := he
  rw [hp] at hs
  simp [place, hs, hp, Binding.get?_flagTable hc hd ha]

variable {es : List (String × String)} (hf : w.flags = es.flatMap (flagWords b))
  (hp : w.positionals = es.foldl (place b) [])

include hd ha hf hp in
/-- What is passed on without binding an argument leaves no word for it. -/
theorem wordsFor_of_unbound (h : es.filter (binds a.param) = []) :
    wordsFor b w a.param = [] := by
  have hn : ∀ e ∈ es, ¬binds a.param e := List.filter_eq_nil_iff.1 h
  have hplaces : Entries.get? a.param (es.foldl (place b) []) = none := by
    rw [get?_foldl_place hn]; rfl
  rw [wordsFor, hf, hp, filter_flagWords hn, Entries.filter_key hd ha]
  simp [hplaces]

include hc hd ha in
/-- A positional argument that is bound once has its reference in place. -/
theorem get?_place_of_bound {e : String × String} (h : es.filter (binds a.param) = [e]) :
    Entries.get? a.param (es.foldl (place b) []) = if a.spelling = "" then some e.2 else none := by
  obtain ⟨l₁, l₂, rfl, h₁, he, h₂⟩ := List.filter_eq_cons_iff.1 h
  have h₂ : ∀ e ∈ l₂, ¬binds a.param e := List.filter_eq_nil_iff.1 h₂
  rw [List.foldl_append, List.foldl_cons, get?_foldl_place h₂, place_argument hc hd ha he]
  split
  · rw [Entries.get?_put_self]
  · rw [get?_foldl_place h₁]; rfl

include hc hd ha hf hp in
/-- An argument that is bound once gets one word: a flag or a positional one. -/
theorem wordsFor_of_bound {e : String × String} (h : es.filter (binds a.param) = [e]) :
    wordsFor b w a.param = [a.word e.2] := by
  have hplaces := get?_place_of_bound hc hd ha h
  rw [← hp] at hplaces
  obtain ⟨l₁, l₂, rfl, h₁, he, h₂⟩ := List.filter_eq_cons_iff.1 h
  have h₂ : ∀ e ∈ l₂, ¬binds a.param e := List.filter_eq_nil_iff.1 h₂
  have hflags : w.flags.filter (fun f => f.param = a.param) =
      if a.spelling = "" then [] else [⟨a.param, a.word e.2⟩] := by
    rw [hf, List.flatMap_append, List.flatMap_cons, List.filter_append, List.filter_append,
      filter_flagWords h₁, filter_flagWords h₂, flagWords_argument hc hd ha he]
    split <;> simp
  rw [wordsFor, hflags, Entries.filter_key hd ha]
  by_cases hs : a.spelling = "" <;> simp [hplaces, hs, Argument.word]

end

end Pipewright.Wiring
