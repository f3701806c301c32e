import Pipewright.Docstring
import Pipewright.Proofs.Text.Lines

/-! Where a documentation text is cut: at the first header that blanks stand before. -/
namespace Pipewright.Docstring
open Text

def titles : List String := ["Parameters", "Returns"]

/-- A title stands here, with blanks and three dashes behind it. -/
def Heads (cs : List Char) : Prop :=
  ∃ t ∈ titles, ∃ bs r, bs ≠ [] ∧ (∀ c ∈ bs, isBlank c) ∧
    cs = t.toList ++ (bs ++ '-' :: '-' :: '-' :: r)

/-! Single headers -/

theorem exists_of_afterUnderline? {cs after : List Char} (h : afterUnderline? cs = some after) :
    ∃ bs r, bs ≠ [] ∧ (∀ c ∈ bs, isBlank c) ∧ cs = bs ++ '-' :: '-' :: '-' :: r := by
  simp only [afterUnderline?] at h
  split at h
  · rename_i hcond
    obtain ⟨hlt, hdashes⟩ := Bool.and_eq_true_iff.1 hcond
    have hlt := of_decide_eq_true hlt
    have hdashes := of_decide_eq_true hdashes
    have hsplit := List.takeWhile_append_dropWhile (p := isBlank) (l := cs)
    have hcut := List.takeWhile_append_dropWhile (p := (· = '-')) (l := cs.dropWhile isBlank)
    have hall : ∀ c ∈ (cs.dropWhile isBlank).takeWhile (· = '-'), c = '-' := by
      intro c hc
      have hd := List.mem_takeWhile_imp hc
      exact of_decide_eq_true hd
    obtain ⟨k, hk⟩ := Nat.exists_eq_add_of_le' hdashes
    rw [List.eq_replicate_of_mem hall, hk] at hcut
    refine ⟨cs.takeWhile isBlank, List.replicate k '-' ++
      (cs.dropWhile isBlank).dropWhile (· = '-'), ?_, fun c hc => List.mem_takeWhile_imp hc, ?_⟩
    · intro hnil
      rw [hnil, List.nil_append] at hsplit
      rw [hsplit] at hlt
      exact Nat.lt_irrefl _ hlt
    · exact hsplit.symm.trans (congrArg (cs.takeWhile isBlank ++ ·) hcut.symm)
  · cases h

theorem heads_of_afterHeader? {ts : List String} (hts : ∀ t ∈ ts, t ∈ titles) {cs after : List Char}
    (h : afterHeader? ts cs = some after) : Heads cs := by
  obtain ⟨t, ht, hafter⟩ := List.exists_of_findSome?_eq_some h
  obtain ⟨r, hr, hunder⟩ := Option.bind_eq_some_iff.1 hafter
  obtain ⟨bs, d, hne, hblank, rfl⟩ := exists_of_afterUnderline? hunder
  exact ⟨t, hts t ht, bs, d, hne, hblank, eq_of_afterLead? hr⟩

theorem isSome_afterHeader?_of_heads {cs : List Char} (h : Heads cs) :
    (afterHeader? titles cs).isSome := by
  obtain ⟨t, ht, bs, r, hne, hblank, rfl⟩ := h
  have hdash : isBlank '-' = false := by decide
  have hdrop : (bs ++ '-' :: '-' :: '-' :: r).dropWhile isBlank = '-' :: '-' :: '-' :: r :=
    dropWhile_append hblank (by simpa using hdash)
  have hpos := List.length_pos_of_ne_nil hne
  have hunder : (afterUnderline? (bs ++ '-' :: '-' :: '-' :: r)).isSome := by
    simp only [afterUnderline?, hdrop]
    rw [if_pos]
    · rfl
    · simp [hpos]
  rw [afterHeader?, List.findSome?_isSome_iff]
  refine ⟨t, ht, ?_⟩
  rw [afterLead?_append]
  exact hunder

instance : DecidablePred Heads := fun cs =>
  decidable_of_iff ((afterHeader? titles cs).isSome = true)
    ⟨fun h => by
      obtain ⟨after, ha⟩ := Option.isSome_iff_exists.1 h
      exact heads_of_afterHeader? (fun _ ht => ht) ha,
    isSome_afterHeader?_of_heads⟩

/-- The line of dashes under a title, behind the newline and a margin. -/
def underline (margin : List Char) (more : Nat) : List Char :=
  '\n' :: (margin ++ List.replicate (more + 3) '-')

/-- A title with its underline. -/
def header (title : String) (margin : List Char) (more : Nat) : List Char :=
  title.toList ++ underline margin more

theorem afterUnderline?_underline {margin rest : List Char} (hm : ∀ c ∈ margin, isBlank c)
    (hr : ∀ c ∈ rest.head?, c ≠ '-') (more : Nat) :
    afterUnderline? (underline margin more ++ rest) = some rest := by
  have hdash : ∀ c ∈ List.replicate (more + 3) '-', decide (c = '-') := fun c hc =>
    decide_eq_true (List.eq_of_mem_replicate hc)
  have hdrop : (underline margin more ++ rest).dropWhile isBlank =
      List.replicate (more + 3) '-' ++ rest := by
    have hnl : ∀ c ∈ '\n' :: margin, isBlank c := List.forall_mem_cons.2 ⟨by decide, hm⟩
    have hcut : underline margin more ++ rest =
        ('\n' :: margin) ++ (List.replicate (more + 3) '-' ++ rest) := by simp [underline]
    rw [hcut, dropWhile_append hnl]
    intro c hc
    cases hc
    decide
  have htake : (List.replicate (more + 3) '-' ++ rest).takeWhile (· = '-') =
      List.replicate (more + 3) '-' :=
    takeWhile_append hdash fun c hc => decide_eq_false (hr c hc)
  have hrest : (List.replicate (more + 3) '-' ++ rest).dropWhile (· = '-') = rest :=
    dropWhile_append hdash fun c hc => decide_eq_false (hr c hc)
  simp only [afterUnderline?, hdrop, htake, hrest]
  rw [if_pos]
  simp only [underline, List.length_append, List.length_cons, List.length_replicate,
    Bool.and_eq_true, decide_eq_true_eq]
  omega

theorem afterHeader?_header {title : String} (ts : List String) {margin rest : List Char}
    (hm : ∀ c ∈ margin, isBlank c) (hr : ∀ c ∈ rest.head?, c ≠ '-') (more : Nat) :
    afterHeader? (title :: ts) (header title margin more ++ rest) = some rest := by
  rw [header, List.append_assoc]
  simp only [afterHeader?, List.findSome?_cons, afterLead?_append, Option.bind_some,
    afterUnderline?_underline hm hr]

theorem head_header {title : String} (ht : title ∈ titles) (margin : List Char) (more : Nat)
    (rest : List Char) :
    ∃ c cs, isBlank c = false ∧ header title margin more ++ rest = c :: cs := by
  have hhead : ∀ t ∈ titles, t.toList.head?.any (fun c => !isBlank c) = true := by decide
  have hany := hhead title ht
  cases hcs : title.toList with
  | nil =>
    rw [hcs] at hany
    cases hany
  | cons c cs =>
    have hblank : isBlank c = false := by simpa [hcs] using hany
    exact ⟨c, cs ++ underline margin more ++ rest, hblank, by rw [header, hcs]; simp⟩

/-! The first header -/

/-- A newline, a blank line and a margin. -/
def blankLine (gap margin : List Char) : List Char := '\n' :: (gap ++ '\n' :: margin)

theorem two_le_blankLine (gap margin : List Char) : 2 ≤ (blankLine gap margin).length := by
  rw [blankLine, List.length_cons, List.length_append, List.length_cons]
  omega

theorem isBlank_blankLine {gap margin : List Char} (hg : ∀ c ∈ gap, isBlank c)
    (hm : ∀ c ∈ margin, isBlank c) : ∀ c ∈ blankLine gap margin, isBlank c :=
  List.forall_mem_cons.2 ⟨by decide,
    List.forall_mem_append.2 ⟨hg, List.forall_mem_cons.2 ⟨by decide, hm⟩⟩⟩

/-- What follows the header behind the blanks at the start, if those are two at least. -/
def afterBlanks? (ts : List String) (cs : List Char) : Option (List Char) :=
  let r := cs.dropWhile isBlank
  if r.length + 2 ≤ cs.length then afterHeader? ts r else none

/-- Behind a blank line, a header is sought right at a title. -/
theorem afterBlanks?_blankLine {title : String} (ht : title ∈ titles) (ts : List String)
    {gap margin : List Char} (hg : ∀ c ∈ gap, isBlank c) (hm : ∀ c ∈ margin, isBlank c)
    (more : Nat) (rest : List Char) :
    afterBlanks? ts (blankLine gap margin ++ (header title margin more ++ rest)) =
      afterHeader? ts (header title margin more ++ rest) := by
  obtain ⟨c, cs, hc, hhead⟩ := head_header ht margin more rest
  have hdrop : (blankLine gap margin ++ (header title margin more ++ rest)).dropWhile isBlank =
      header title margin more ++ rest :=
    dropWhile_append (isBlank_blankLine hg hm) (by simpa [hhead] using hc)
  have htwo := two_le_blankLine gap margin
  rw [afterBlanks?, hdrop, if_pos]
  simp only [List.length_append]
  omega

/-- A header behind a blank line is found there. -/
theorem afterBlanks?_header {title : String} (ht : title ∈ titles) (ts : List String)
    {gap margin rest : List Char} (hg : ∀ c ∈ gap, isBlank c) (hm : ∀ c ∈ margin, isBlank c)
    (hr : ∀ c ∈ rest.head?, c ≠ '-') (more : Nat) :
    afterBlanks? (title :: ts) (blankLine gap margin ++ (header title margin more ++ rest)) =
      some rest := by
  rw [afterBlanks?_blankLine ht _ hg hm, afterHeader?_header ts hm hr]

/-- Where no blanks stand no header is found. -/
theorem afterBlanks?_header_here {title : String} (ht : title ∈ titles) (ts : List String)
    (margin : List Char) (more : Nat) (rest : List Char) :
    afterBlanks? ts (header title margin more ++ rest) = none := by
  obtain ⟨c, cs, hc, hhead⟩ := head_header ht margin more rest
  rw [afterBlanks?, hhead, List.dropWhile_cons_of_neg (by simp [hc]), if_neg (by omega)]

/-- Cuts at the first place where a test succeeds. -/
def cutFirst? (test : List Char → Option (List Char)) :
    List Char → Option (List Char × List Char)
  | [] => none
  | c :: cs =>
    match test (c :: cs) with
    | some after => some ([], after)
    | none => (cutFirst? test cs).map fun (a, b) => (c :: a, b)

theorem splitHeader?_eq (ts : List String) (cs : List Char) :
    splitHeader? ts cs = cutFirst? (afterBlanks? ts) cs := by
  induction cs with
  | nil => rfl
  | cons c cs ih =>
    rw [splitHeader?, cutFirst?, ih]
    rfl

/-- What follows a `Returns` header and the blanks behind it, if there are any. -/
def afterReturns? (cs : List Char) : Option (List Char) :=
  ((afterBlanks? ["Returns"] cs).filter fun a => a.head?.any isBlank).map fun a =>
    a.dropWhile isBlank

theorem splitReturns?_eq (cs : List Char) : splitReturns? cs = cutFirst? afterReturns? cs := by
  induction cs with
  | nil => rfl
  | cons c cs ih =>
    rw [splitReturns?, cutFirst?, ih, afterReturns?, afterBlanks?]
    simp only []
    split
    · rename_i h
      rw [h]
      rfl
    · rename_i h
      rw [h]
      rfl

section
variable {test : List Char → Option (List Char)} {front rest : List Char}

/-- Places at which a test fails are passed. -/
theorem cutFirst?_append (h : ∀ before after, front = before ++ after → after ≠ [] →
    test (after ++ rest) = none) :
    cutFirst? test (front ++ rest) = (cutFirst? test rest).map fun p => (front ++ p.1, p.2) := by
  induction front with
  | nil => cases hc : cutFirst? test rest <;> simp [hc]
  | cons c front ih =>
    have hhere : test (c :: (front ++ rest)) = none :=
      h [] (c :: front) rfl (List.cons_ne_nil c front)
    have hlater := ih fun before after he hne => h (c :: before) after (by rw [he]; rfl) hne
    rw [List.cons_append, cutFirst?, hhere, hlater]
    simp only [Option.map_map]
    rfl

theorem cutFirst?_none (h : ∀ before after, front = before ++ after → after ≠ [] →
    test after = none) : cutFirst? test front = none := by
  have hpass : ∀ before after, front = before ++ after → after ≠ [] →
      test (after ++ []) = none := fun before after he hne => by
    rw [List.append_nil]
    exact h before after he hne
  have hcut := cutFirst?_append hpass
  rw [List.append_nil] at hcut
  rw [hcut]
  rfl

theorem cutFirst?_here {after : List Char} (hne : rest ≠ []) (h : test rest = some after) :
    cutFirst? test rest = some ([], after) := by
  cases rest with
  | nil => exact absurd rfl hne
  | cons c cs => rw [cutFirst?, h]

end

/-- Where no header stands in a text that ends with more than blanks, none is found before it
ends. -/
theorem afterBlanks?_none {ts : List String} (hts : ∀ t ∈ ts, t ∈ titles) {cs rest : List Char}
    (hl : ∃ c ∈ cs.getLast?, isBlank c = false)
    (h : ∀ before after, cs = before ++ after → after ≠ [] → ¬Heads (after ++ rest)) :
    afterBlanks? ts (cs ++ rest) = none := by
  have hne : cs.dropWhile isBlank ≠ [] := trimStart_ne_nil hl
  have hdrop : (cs ++ rest).dropWhile isBlank = cs.dropWhile isBlank ++ rest := by
    rw [List.dropWhile_append, if_neg fun he => hne (List.isEmpty_iff.1 he)]
  have hno := h (cs.takeWhile isBlank) (cs.dropWhile isBlank)
    List.takeWhile_append_dropWhile.symm hne
  rw [afterBlanks?, hdrop]
  split
  · cases ha : afterHeader? ts (cs.dropWhile isBlank ++ rest) with
    | none => rfl
    | some after => exact absurd (heads_of_afterHeader? hts ha) hno
  · rfl

end Pipewright.Docstring
