import Mathlib.Data.List.Infix
import Mathlib.Data.List.SplitBy
import Pipewright.Proofs.Text.Pieces

/-! Texts split at the occurrences of a mark, and at blanks. -/
namespace Pipewright.Text

/-! All occurrences of a mark -/

section
variable {mark w rest cs : List Char} {c : Char}

theorem startsWith_iff : startsWith cs mark = true ↔ mark <+: cs := List.isPrefixOf_iff_prefix

theorem splitBy_ne_nil (mark : List Char) (n : Nat) (cs : List Char) : splitBy mark n cs ≠ [] := by
  induction cs generalizing n with
  | nil => cases n <;> simp [splitBy]
  | cons c cs ih =>
    cases n with
    | succ n => exact ih n
    | zero =>
      rw [splitBy]
      split
      · simp
      · split <;> simp

theorem splitBy_cons (h : ¬mark <+: c :: cs) :
    splitBy mark 0 (c :: cs) = (splitBy mark 0 cs).modifyHead (c :: ·) := by
  rw [splitBy, if_neg fun hs => h (startsWith_iff.1 hs)]
  cases hs : splitBy mark 0 cs with
  | nil => exact absurd hs (splitBy_ne_nil mark 0 cs)
  | cons l ls => rfl

/-- A text in which no occurrence starts stays in one piece with what follows it. -/
theorem splitBy_append (h : ∀ v, v <:+ w → v ≠ [] → ¬mark <+: v ++ rest) :
    splitBy mark 0 (w ++ rest) = (splitBy mark 0 rest).modifyHead (w ++ ·) := by
  induction w with
  | nil =>
    cases hs : splitBy mark 0 rest with
    | nil => exact absurd hs (splitBy_ne_nil mark 0 rest)
    | cons l ls => exact hs
  | cons c w ih =>
    have hhere := h (c :: w) List.suffix_rfl (List.cons_ne_nil c w)
    have hrest := ih fun v hv => h v (hv.trans (List.suffix_cons c w))
    rw [List.cons_append] at hhere ⊢
    rw [splitBy_cons hhere, hrest, List.modifyHead_modifyHead]
    rfl

theorem splitBy_skip (mark w rest : List Char) :
    splitBy mark w.length (w ++ rest) = splitBy mark 0 rest := by
  induction w with
  | nil => rfl
  | cons c w ih => exact ih

theorem splitBy_mark (hm : mark ≠ []) (rest : List Char) :
    splitBy mark 0 (mark ++ rest) = [] :: splitBy mark 0 rest := by
  obtain ⟨c, w, rfl⟩ := List.exists_cons_of_ne_nil hm
  have hstart : startsWith (c :: (w ++ rest)) (c :: w) = true :=
    startsWith_iff.2 (List.prefix_append (c :: w) rest)
  rw [List.cons_append, splitBy, if_pos hstart, List.length_cons, Nat.add_sub_cancel,
    splitBy_skip]

/-- A mark that starts in front of a character it does not hold ends in front of it, too. -/
theorem isPrefix_of_append_cons {front : List Char} (hc : c ∉ mark)
    (h : mark <+: front ++ c :: rest) : mark <+: front := by
  obtain hfront | ⟨more, rfl⟩ :=
    List.prefix_or_prefix_of_prefix h (List.prefix_append front (c :: rest))
  · exact hfront
  · cases more with
    | nil => simp
    | cons d more =>
      have hd : d = c := (List.cons_prefix_cons.1 ((List.prefix_append_right_inj front).1 h)).1
      exact absurd (List.mem_append_right front (hd ▸ List.mem_cons_self)) hc

/-! The first occurrence of a mark -/

theorem afterLead?_eq_some_iff {lead cs r : List Char} :
    afterLead? lead cs = some r ↔ cs = lead ++ r :=
  ⟨eq_of_afterLead?, fun h => h ▸ afterLead?_append lead r⟩

/-- A text is split at the first place at which the mark stands. -/
theorem splitOnce_eq_some_iff {a b : List Char} :
    splitOnce mark cs = some (a, b) ↔
      cs = a ++ (mark ++ b) ∧ ∀ v, v <:+ a → v ≠ [] → ¬mark <+: v ++ (mark ++ b) := by
  induction cs generalizing a with
  | nil =>
    simp only [splitOnce, Option.map_eq_some_iff, afterLead?_eq_some_iff, Prod.mk.injEq]
    constructor
    · rintro ⟨r, hr, rfl, rfl⟩
      exact ⟨hr, fun v hv hne => absurd (List.suffix_nil.1 hv) hne⟩
    · rintro ⟨h, -⟩
      obtain ⟨rfl, -⟩ := List.append_eq_nil_iff.1 h.symm
      exact ⟨b, h, rfl, rfl⟩
  | cons c cs ih =>
    rw [splitOnce]
    cases hlead : afterLead? mark (c :: cs) with
    | some r =>
      have hr := eq_of_afterLead? hlead
      simp only [Option.some.injEq, Prod.mk.injEq]
      constructor
      · rintro ⟨rfl, rfl⟩
        exact ⟨hr, fun v hv hne => absurd (List.suffix_nil.1 hv) hne⟩
      · rintro ⟨h, hfirst⟩
        by_cases ha : a = []
        · subst ha
          exact ⟨rfl, List.append_cancel_left (hr.symm.trans h)⟩
        · exact absurd ⟨r, hr.symm.trans h⟩ (hfirst a List.suffix_rfl ha)
    | none =>
      have hnot : ¬mark <+: c :: cs := by
        rintro ⟨r, hr⟩
        rw [afterLead?_eq_some_iff.2 hr.symm] at hlead
        cases hlead
      simp only [Option.map_eq_some_iff, Prod.mk.injEq, Prod.exists]
      constructor
      · rintro ⟨a, b, h, rfl, rfl⟩
        obtain ⟨rfl, hfirst⟩ := ih.1 h
        refine ⟨rfl, fun v hv hne => ?_⟩
        obtain rfl | hv := List.suffix_cons_iff.1 hv
        · exact hnot
        · exact hfirst v hv hne
      · rintro ⟨h, hfirst⟩
        cases a with
        | nil => exact absurd ⟨b, h.symm⟩ hnot
        | cons d a =>
          obtain ⟨rfl, rfl⟩ := List.cons.inj h
          exact ⟨a, b, ih.2 ⟨rfl, fun v hv => hfirst v (hv.trans (List.suffix_cons c a))⟩, rfl,
            rfl⟩

theorem splitOnce_first {front : List Char} (h : c ∉ front) (rest : List Char) :
    splitOnce [c] (front ++ c :: rest) = some (front, rest) := by
  refine splitOnce_eq_some_iff.2 ⟨rfl, fun v hv hne hstart => ?_⟩
  obtain ⟨d, v, rfl⟩ := List.exists_cons_of_ne_nil hne
  obtain rfl : c = d := (List.cons_prefix_cons.1 hstart).1
  exact h (hv.subset List.mem_cons_self)

theorem eq_of_append_cons {a b r s : List Char} (ha : c ∉ a) (hb : c ∉ b)
    (h : a ++ c :: r = b ++ c :: s) : a = b ∧ r = s := by
  have hsplit := splitOnce_first ha r
  rw [h, splitOnce_first hb s] at hsplit
  exact Prod.mk.inj (Option.some.inj hsplit.symm)

theorem splitOnce_isSome_iff : (splitOnce mark cs).isSome = true ↔ mark <:+: cs := by
  induction cs with
  | nil =>
    rw [splitOnce, Option.isSome_map, Option.isSome_iff_exists, List.infix_nil]
    simp only [afterLead?_eq_some_iff, List.nil_eq, List.append_eq_nil_iff, exists_and_left,
      exists_eq, and_true]
  | cons c cs ih =>
    have hstart : (afterLead? mark (c :: cs)).isSome = true ↔ mark <+: c :: cs := by
      simp only [Option.isSome_iff_exists, afterLead?_eq_some_iff, eq_comm (a := c :: cs)]
      rfl
    rw [List.infix_cons_iff, ← hstart, ← ih, splitOnce]
    cases afterLead? mark (c :: cs) with
    | some r => simp
    | none => simp

/-! The pieces of a text in order -/

theorem splitBy_of_not_mem (h : ¬mark <:+: cs) : splitBy mark 0 cs = [cs] := by
  have hnone : ∀ v, v <:+ cs → v ≠ [] → ¬mark <+: v ++ [] := fun v hv _ hmark =>
    h ((List.append_nil v ▸ hmark).isInfix.trans hv.isInfix)
  have hsplit := splitBy_append hnone
  rwa [List.append_nil, splitBy, List.modifyHead_cons, List.append_nil] at hsplit

theorem splitBy_of_splitOnce {a b : List Char} (hm : mark ≠ [])
    (h : splitOnce mark cs = some (a, b)) : splitBy mark 0 cs = a :: splitBy mark 0 b := by
  obtain ⟨rfl, hfirst⟩ := splitOnce_eq_some_iff.1 h
  rw [splitBy_append hfirst, splitBy_mark hm, List.modifyHead_cons, List.append_nil]

theorem joinWith_splitBy (hm : mark ≠ []) (cs : List Char) :
    joinWith mark (splitBy mark 0 cs) = cs := by
  induction hn : cs.length using Nat.strong_induction_on generalizing cs with
  | _ n ih =>
    subst hn
    cases h : splitOnce mark cs with
    | none =>
      have hnone : ¬mark <:+: cs := by
        rw [← splitOnce_isSome_iff, h]
        exact Bool.false_ne_true
      rw [splitBy_of_not_mem hnone]
      rfl
    | some parts =>
      obtain ⟨a, b⟩ := parts
      have hcs := (splitOnce_eq_some_iff.1 h).1
      have hpos := List.length_pos_of_ne_nil hm
      have hb := ih b.length (by simp [hcs]; omega) b rfl
      rw [splitBy_of_splitOnce hm h, ← List.singleton_append,
        joinWith_append mark (List.cons_ne_nil a []) (splitBy_ne_nil mark 0 b), hb, hcs]
      rfl

end

/-! Words -/

/-- A part in which neighbours are blank together shows nothing, or shows all of its characters. -/
theorem isBlank_of_isChain {g : List Char} (h : g.IsChain fun a b => isBlank a == isBlank b) :
    ∀ c ∈ g, ∀ d ∈ g, isBlank c = isBlank d := by
  have htrans : Trans (fun a b => (isBlank a == isBlank b) = true)
      (fun a b => (isBlank a == isBlank b) = true) fun a b => (isBlank a == isBlank b) = true :=
    ⟨fun hab hbc => beq_iff_eq.2 ((beq_iff_eq.1 hab).trans (beq_iff_eq.1 hbc))⟩
  have hsymm : Std.Symm fun a b => isBlank a = isBlank b := ⟨fun _ _ hab => hab.symm⟩
  have hpairs : g.Pairwise fun a b => isBlank a = isBlank b :=
    (List.isChain_iff_pairwise.1 h).imp fun hab => beq_iff_eq.1 hab
  exact hpairs.forall_of_forall fun _ _ => rfl

section
variable {cs w bs : List Char}

theorem allBlank_iff : allBlank cs = true ↔ ∀ c ∈ cs, isBlank c = true := List.all_eq_true

theorem words_append {ds : List Char} (h : ∀ c ∈ cs.getLast?, ∀ d ∈ ds.head?,
    isBlank c ≠ isBlank d) : words (cs ++ ds) = words cs ++ words ds := by
  rw [words, List.splitBy_append fun c hc d hd => beq_eq_false_iff_ne.2 (h c hc d hd),
    List.filter_append]
  rfl

theorem words_blanks (h : ∀ c ∈ bs, isBlank c) : words bs = [] := by
  refine List.filter_eq_nil_iff.2 fun g hg => ?_
  have hsub : ∀ c ∈ g, c ∈ bs := fun c hc => by
    rw [← List.flatten_splitBy (fun a b => isBlank a == isBlank b) bs]
    exact List.mem_flatten_of_mem hg hc
  simp [allBlank_iff.2 fun c hc => h c (hsub c hc)]

theorem words_word (hne : w ≠ []) (h : ∀ c ∈ w, isBlank c = false) : words w = [w] := by
  have hchain : w.IsChain fun a b => isBlank a == isBlank b :=
    (List.pairwise_of_forall_mem_list fun c hc d hd =>
      beq_iff_eq.2 ((h c hc).trans (h d hd).symm)).isChain
  have hshown : allBlank w = false := by
    rw [← Bool.not_eq_true, allBlank_iff]
    obtain ⟨c, w, rfl⟩ := List.exists_cons_of_ne_nil hne
    exact fun hall => by simp [h c List.mem_cons_self] at hall
  rw [words, List.splitBy_of_isChain hne hchain]
  simp [hshown]

/-- A text is one word just if it is so but for blanks around it. -/
theorem words_eq_singleton_iff :
    words cs = [w] ↔ w ≠ [] ∧ (∀ c ∈ w, isBlank c = false) ∧
      ∃ a b, (∀ c ∈ a, isBlank c) ∧ (∀ c ∈ b, isBlank c) ∧ cs = a ++ (w ++ b) := by
  constructor
  · intro h
    obtain ⟨front, behind, hsplit, hfront, hw, hbehind⟩ := List.filter_eq_cons_iff.1 h
    have hcs := List.flatten_splitBy (fun a b => isBlank a == isBlank b) cs
    have hgroup : w ∈ cs.splitBy fun a b => isBlank a == isBlank b := by simp [hsplit]
    have hblank : ∀ gs : List (List Char), (∀ g ∈ gs, ¬(!allBlank g) = true) →
        ∀ c ∈ gs.flatten, isBlank c := by
      intro gs hgs c hc
      obtain ⟨g, hg, hc⟩ := List.mem_flatten.1 hc
      exact allBlank_iff.1 (by simpa using hgs g hg) c hc
    refine ⟨List.ne_nil_of_mem_splitBy hgroup, fun c hc => ?_, front.flatten, behind.flatten,
      hblank front hfront, hblank behind (List.filter_eq_nil_iff.1 hbehind), ?_⟩
    · rw [← Bool.not_eq_true]
      intro hb
      have hall : allBlank w = true := allBlank_iff.2 fun d hd =>
        (isBlank_of_isChain (List.isChain_of_mem_splitBy hgroup) d hd c hc).trans hb
      simp [hall] at hw
    · rw [← hcs, hsplit]
      simp
  · rintro ⟨hne, hw, a, b, ha, hb, rfl⟩
    have hwb : words (w ++ b) = words w ++ words b := words_append fun c hc d hd => by
      simp [hw c (List.mem_of_getLast? hc), hb d (List.mem_of_mem_head? hd)]
    have hawb : words (a ++ (w ++ b)) = words a ++ words (w ++ b) :=
      words_append fun c hc d hd => by
        rw [List.head?_append_of_ne_nil w hne] at hd
        simp [hw d (List.mem_of_mem_head? hd), ha c (List.mem_of_getLast? hc)]
    rw [hawb, hwb, words_blanks ha, words_blanks hb, words_word hne hw]
    rfl

end

end Pipewright.Text
