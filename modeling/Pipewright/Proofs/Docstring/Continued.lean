import Mathlib.Data.List.DropRight
import Pipewright.Proofs.Docstring.Pages

/-! Help texts of several lines. A line behind the first whose last word could be a name is read as
that name, and the line behind it as its help. -/
namespace Pipewright.Docstring
open Text

/-- A line behind a newline. -/
structure Line where
  margin : List Char
  text : List Char

def Line.chars (l : Line) : List Char := '\n' :: (l.margin ++ l.text)

/-- The line below a margin. -/
def Line.under (indent : List Char) (l : Line) : Line := ⟨indent ++ l.margin, l.text⟩

/-- A parameter whose help may go on below its first line. The margins are those below the name. -/
structure Item where
  name : List Char
  first : Line
  more : List Line

def lastWord (cs : List Char) : List Char := cs.rtakeWhile fun c => !isBlank c

/-- Whether the last word of a text could be a name. -/
def endsInName (cs : List Char) : Bool := (lastWord cs).all isNameChar

/-- What is taken for names and their help, line by line. -/
def found : List Line → List (List Char × List Char)
  | l :: m :: ls =>
    if endsInName l.text then (lastWord l.text, m.text) :: found ls else found (m :: ls)
  | _ => []

/-- The lines of a parameter on a page. -/
def Item.lines (indent : List Char) (i : Item) : List Line :=
  ⟨indent, i.name⟩ :: i.first.under indent :: i.more.map (Line.under indent)

/-- A parameter with all lines of its help. -/
def Item.entry (indent : List Char) (i : Item) : Entry :=
  ⟨i.name, i.first.margin, i.first.text ++ (i.more.map (Line.under indent)).flatMap Line.chars⟩

/-- Each name with the first line of its help. -/
def documented (items : List Item) : List (List Char × List Char) :=
  items.map fun i => (i.name, i.first.text)

/-- Whether none of the lines ends in what could be a name; the last line of all may. -/
def quiet (ls : List Line) (last : Bool) : Bool :=
  (if last then ls.dropLast else ls).all fun l => !endsInName l.text

/-- Whether the lines behind the first of each help are quiet. -/
def steady : List Item → Bool
  | [] => true
  | i :: items => quiet i.more items.isEmpty && steady items

/-- A line with a margin and a text that starts and ends with no blank. -/
structure Line.Proper (l : Line) : Prop where
  margin_ne : l.margin ≠ []
  margin : ∀ c ∈ l.margin, isBlank c
  text_ne : l.text ≠ []
  trimmed : trim l.text = l.text
  single : '\n' ∉ l.text

/-- A name with help texts of which no line is a name itself. -/
structure Item.Canonical (i : Item) : Prop where
  name_ne : i.name ≠ []
  named : ∀ c ∈ i.name, isNameChar c
  lines : ∀ l ∈ i.first :: i.more, l.Proper
  phrases : ∀ l ∈ i.first :: i.more, l.text.all isNameChar = false

/-! Words -/

section
variable {bs cs : List Char} {c : Char}

theorem lastWord_of_word (h : ∀ c ∈ cs, isBlank c = false) : lastWord cs = cs :=
  List.rtakeWhile_eq_self_iff.2 fun c hc => by simp [h c hc]

/-- Only what stands behind the last blank counts. -/
theorem lastWord_append (hne : bs ≠ []) (hb : ∀ c ∈ bs, isBlank c) (w cs : List Char) :
    lastWord (w ++ (bs ++ cs)) = lastWord cs := by
  obtain ⟨bs, b, rfl⟩ := (List.eq_nil_or_concat bs).resolve_left hne
  have hlast : isBlank b := hb b (by simp)
  have hstop : (b :: (bs.reverse ++ w.reverse)).takeWhile (fun c => !isBlank c) = [] := by
    simp [hlast]
  have hreverse : (w ++ (bs.concat b ++ cs)).reverse =
      cs.reverse ++ b :: (bs.reverse ++ w.reverse) := by simp
  rw [lastWord, lastWord, List.rtakeWhile, List.rtakeWhile, hreverse, List.takeWhile_append, hstop]
  split
  · rename_i hall
    rw [List.append_nil, (List.takeWhile_prefix _).eq_of_length hall]
  · rfl

theorem isBlank_of_mem_lastWord (h : c ∈ lastWord cs) : isBlank c = false := by
  simpa using List.mem_rtakeWhile_imp h

theorem lastWord_ne_nil (hne : cs ≠ []) (h : trim cs = cs) : lastWord cs ≠ [] := by
  intro hnil
  have hlast := List.rtakeWhile_eq_nil_iff.1 hnil hne
  have hblank := last_of_trimmed h (cs.getLast hne) (List.getLast?_eq_some_getLast hne)
  simp [hblank] at hlast

/-- A text is one word, or starts with a word and blanks. -/
theorem exists_word (hne : cs ≠ []) (h : trim cs = cs) :
    ∃ w, w ≠ [] ∧ (∀ c ∈ w, isBlank c = false) ∧ (cs = w ∨ ∃ bs u, bs ≠ [] ∧
      (∀ c ∈ bs, isBlank c) ∧ u ≠ [] ∧ trim u = u ∧ cs = w ++ (bs ++ u)) := by
  have hword := List.takeWhile_append_dropWhile (p := fun c => !isBlank c) (l := cs)
  generalize hw : cs.takeWhile (fun c => !isBlank c) = w at hword
  generalize hr : cs.dropWhile (fun c => !isBlank c) = r at hword
  have hplain : ∀ c ∈ w, isBlank c = false := by
    intro c hc
    rw [← hw] at hc
    simpa using List.mem_takeWhile_imp hc
  have hwne : w ≠ [] := by
    rintro rfl
    obtain ⟨c, cs, rfl⟩ := List.exists_cons_of_ne_nil hne
    simp [head_of_trimmed h c rfl] at hw
  refine ⟨w, hwne, hplain, ?_⟩
  by_cases hnil : r = []
  · rw [hnil, List.append_nil] at hword
    exact .inl hword.symm
  right
  have hhead : ∀ c ∈ r.head?, isBlank c := by
    intro c hc
    have hnot := List.head?_dropWhile_not (fun c => !isBlank c) cs
    rw [hr, Option.mem_def.1 hc] at hnot
    simpa using hnot
  have hend : ∃ c ∈ r.getLast?, isBlank c = false := by
    have hlast := Page.exists_last hne h
    rwa [← hword, List.getLast?_append_of_ne_nil _ hnil] at hlast
  refine ⟨r.takeWhile isBlank, trimStart r, ?_, fun c hc => List.mem_takeWhile_imp hc,
    trimStart_ne_nil hend, trim_trimStart hend, ?_⟩
  · obtain ⟨c, r, rfl⟩ := List.exists_cons_of_ne_nil hnil
    simp [hhead c rfl]
  · rw [← hword]
    exact congrArg (w ++ ·) List.takeWhile_append_dropWhile.symm

end

/-! Entries of a text, word by word -/

/-- What is found from the start of a word on. -/
def scan (cs : List Char) : List (List Char × List Char) :=
  match entry? cs with
  | some (name, doc, rest) => (name, doc) :: Docstring.entries rest
  | none => Docstring.entries cs

section
variable {bs w text rest : List Char} {c : Char} {m : Line}

theorem entries_cons_blank (hc : isBlank c) (cs : List Char) :
    Docstring.entries (c :: cs) = scan (cs.dropWhile isBlank) := by
  rw [Docstring.entries.eq_def]
  dsimp only
  rw [if_pos hc, scan]
  split
  · rename_i h
    rw [h]
  · rename_i h
    rw [h]

theorem entries_blanks (hne : bs ≠ []) (hb : ∀ c ∈ bs, isBlank c)
    (hr : ∀ c ∈ rest.head?, isBlank c = false) : Docstring.entries (bs ++ rest) = scan rest := by
  obtain ⟨b, bs, rfl⟩ := List.exists_cons_of_ne_nil hne
  obtain ⟨hhere, hlater⟩ := List.forall_mem_cons.1 hb
  rw [List.cons_append, entries_cons_blank hhere, dropWhile_append hlater hr]

theorem entries_word (hw : ∀ c ∈ w, isBlank c = false) (rest : List Char) :
    Docstring.entries (w ++ rest) = Docstring.entries rest := by
  induction w with
  | nil => rfl
  | cons c w ih =>
    obtain ⟨hc, hw⟩ := List.forall_mem_cons.1 hw
    rw [List.cons_append, Docstring.entries.eq_def]
    dsimp only
    rw [if_neg (by simp [hc]), ih hw]

/-- A word is no name if one of its characters is of none, or if it does not end its line. -/
theorem entry?_word (hw : ∀ c ∈ w, isBlank c = false) (hr : ∀ c ∈ rest.head?, isBlank c)
    (h : w.all isNameChar = false ∨ rest.head? ≠ some '\n') : entry? (w ++ rest) = none := by
  have hend : ∀ cs, (w ++ rest).dropWhile isNameChar ≠ '\n' :: cs := by
    intro cs hcs
    cases hall : w.all isNameChar with
    | true =>
      have hstop : ∀ c ∈ rest.head?, isNameChar c = false := fun c hc =>
        isNameChar_of_isBlank (hr c hc)
      rw [dropWhile_append (List.all_eq_true.1 hall) hstop] at hcs
      exact h.resolve_left (by simp [hall]) (by rw [hcs]; rfl)
    | false =>
      have hne : ¬(w.dropWhile isNameChar).isEmpty := fun he => by
        rw [List.isEmpty_iff, List.dropWhile_eq_nil_iff] at he
        rw [List.all_eq_true.2 he] at hall
        cases hall
      rw [List.dropWhile_append, if_neg hne] at hcs
      cases hd : w.dropWhile isNameChar with
      | nil => exact hne (List.isEmpty_iff.2 hd)
      | cons d ds =>
        rw [hd, List.cons_append] at hcs
        cases hcs
        have hmem : '\n' ∈ w := (List.dropWhile_sublist _).subset (hd ▸ List.mem_cons_self)
        have hblank := hw '\n' hmem
        exact absurd hblank (by decide)
  rw [ entry?]
  split
  · rename_i r hcs
    exact absurd hcs (hend r)
  · rfl

theorem scan_word (hw : ∀ c ∈ w, isBlank c = false) (hr : ∀ c ∈ rest.head?, isBlank c)
    (h : w.all isNameChar = false ∨ rest.head? ≠ some '\n') :
    scan (w ++ rest) = Docstring.entries rest := by
  rw [scan, entry?_word hw hr h]
  exact entries_word hw rest

/-- Of a line only the last word can be a name. -/
theorem scan_line (hne : text ≠ []) (ht : trim text = text) (hline : '\n' ∉ text)
    (hr : ∀ c ∈ rest.head?, c = '\n') :
    scan (text ++ rest) =
      if endsInName text then scan (lastWord text ++ rest) else Docstring.entries rest := by
  have hstart : ∀ c ∈ rest.head?, isBlank c := fun c hc => by
    rw [hr c hc]
    decide
  -- The words before the last one are passed one after another.
  induction hn : text.length using Nat.strong_induction_on generalizing text with
  | _ n ih =>
    obtain ⟨w, hwne, hw, rfl | ⟨bs, u, hbs, hb, hune, hu, rfl⟩⟩ := exists_word hne ht
    · rw [endsInName, lastWord_of_word hw]
      split
      · rfl
      · rename_i hall
        exact scan_word hw hstart (.inl (by simpa using hall))
    · have hlater : scan (u ++ rest) =
          if endsInName u then scan (lastWord u ++ rest) else Docstring.entries rest := by
        refine ih u.length ?_ hune hu (fun hm => hline (by simp [hm])) rfl
        have hpos := List.length_pos_of_ne_nil hwne
        simp only [List.length_append] at hn
        omega
      have hblank : ∀ c ∈ (bs ++ (u ++ rest)).head?, isBlank c :=
        forall_head_append hbs (fun c hc => hb c (List.mem_of_mem_head? hc)) _
      have hinside : (bs ++ (u ++ rest)).head? ≠ some '\n' := by
        intro hc
        rw [List.head?_append_of_ne_nil _ hbs] at hc
        exact hline (by simp [List.mem_of_mem_head? hc])
      have hword : ∀ c ∈ (u ++ rest).head?, isBlank c = false :=
        forall_head_append hune (head_of_trimmed hu) rest
      rw [endsInName, lastWord_append hbs hb, ← endsInName, ← hlater, List.append_assoc,
        List.append_assoc, scan_word hw hblank (.inr hinside), entries_blanks hbs hb hword]

/-- A line that ends in a name gives an entry with the line behind it. -/
theorem scan_name (hw : ∀ c ∈ w, isNameChar c) (hne : w ≠ []) (hm : m.Proper)
    (hr : ∀ c ∈ rest.head?, c = '\n') :
    scan (w ++ (m.chars ++ rest)) = (w, m.text) :: Docstring.entries rest := by
  have hentry : (⟨w, m.margin, m.text⟩ : Entry).Canonical :=
    ⟨hne, hw, hm.margin_ne, hm.margin, hm.text_ne, hm.trimmed, hm.single⟩
  have hread : entry? (w ++ '\n' :: ([] ++ (m.margin ++ (m.text ++ rest)))) =
      some (w, m.text, rest) := entry?_text hentry nofun hr
  rw [List.nil_append] at hread
  rw [scan, Line.chars, List.cons_append, List.append_assoc, hread]

end

/-! Entries of lines -/

section
variable {l : Line} {ls : List Line}

theorem found_cons (h : endsInName l.text = false) (ls : List Line) :
    found (l :: ls) = found ls := by
  cases ls with
  | nil => rfl
  | cons m ls => rw [found, if_neg (by simp [h])]

theorem found_name (h : endsInName l.text) (m : Line) (ls : List Line) :
    found (l :: m :: ls) = (lastWord l.text, m.text) :: found ls := by
  rw [found, if_pos h]

theorem head_chars (ls : List Line) : ∀ c ∈ (ls.flatMap Line.chars).head?, c = '\n' := by
  intro c hc
  cases ls with
  | nil => cases hc
  | cons l ls =>
    cases hc
    rfl

theorem entries_line (hl : l.Proper) (ls : List Line) :
    Docstring.entries ((l :: ls).flatMap Line.chars) =
      if endsInName l.text then scan (lastWord l.text ++ ls.flatMap Line.chars)
      else Docstring.entries (ls.flatMap Line.chars) := by
  have hblank : ∀ c ∈ '\n' :: l.margin, isBlank c := List.forall_mem_cons.2 ⟨by decide, hl.margin⟩
  have hword : ∀ c ∈ (l.text ++ ls.flatMap Line.chars).head?, isBlank c = false :=
    forall_head_append hl.text_ne (head_of_trimmed hl.trimmed) _
  have hchars : (l :: ls).flatMap Line.chars =
      ('\n' :: l.margin) ++ (l.text ++ ls.flatMap Line.chars) := by
    simp [Line.chars]
  rw [hchars, entries_blanks (List.cons_ne_nil _ _) hblank hword,
    scan_line hl.text_ne hl.trimmed hl.single (head_chars ls)]

/-- The text of lines is read line by line. -/
theorem entries_lines (h : ∀ l ∈ ls, l.Proper) :
    Docstring.entries (ls.flatMap Line.chars) = found ls := by
  have hnil : Docstring.entries [] = [] := by
    rw [Docstring.entries.eq_def]
  induction ls using found.induct with
  | case1 l m ls hname ih =>
    obtain ⟨hl, hm, hls⟩ : l.Proper ∧ m.Proper ∧ ∀ l ∈ ls, l.Proper := by simpa using h
    have hlast : lastWord l.text ≠ [] := lastWord_ne_nil hl.text_ne hl.trimmed
    rw [entries_line hl, if_pos hname, found_name hname, List.flatMap_cons,
      scan_name (List.all_eq_true.1 hname) hlast hm (head_chars ls), ih hls]
  | case2 l m ls hname ih =>
    obtain ⟨hl, hls⟩ := List.forall_mem_cons.1 h
    rw [entries_line hl, if_neg hname, found_cons (by simpa using hname), ih hls]
  | case3 ls hshort =>
    rw [found]
    · cases ls with
      | nil => exact hnil
      | cons l ls =>
        cases ls with
        | cons m ls => exact absurd rfl (hshort l m ls)
        | nil =>
          have hl := h l List.mem_cons_self
          have hend : scan (lastWord l.text ++ []) = Docstring.entries [] :=
            scan_word (fun _ hc => isBlank_of_mem_lastWord hc) nofun (.inr nofun)
          rw [entries_line hl, List.flatMap_nil, hend, hnil, ite_self]
    · exact hshort

theorem found_texts {e : List Char × List Char} (h : e ∈ found ls) : ∃ l ∈ ls, e.2 = l.text := by
  induction ls using found.induct with
  | case1 l m ls hname ih =>
    rw [found_name hname] at h
    rcases List.mem_cons.1 h with rfl | h
    · exact ⟨m, by simp, rfl⟩
    · obtain ⟨d, hd, he⟩ := ih h
      exact ⟨d, by simp [hd], he⟩
  | case2 l m ls hname ih =>
    rw [found_cons (by simpa using hname)] at h
    obtain ⟨d, hd, he⟩ := ih h
    exact ⟨d, List.mem_cons_of_mem l hd, he⟩
  | case3 ls hshort =>
    rw [found] at h
    · cases h
    · exact hshort

end

/-! Entries of parameters -/

section
variable {indent : List Char} {l : Line} {ls more : List Line} {i : Item} {items : List Item}

theorem found_lines (hi : i.Canonical) (ls : List Line) :
    found (i.lines indent ++ ls) =
      (i.name, i.first.text) :: found (i.more.map (Line.under indent) ++ ls) := by
  have hword : lastWord i.name = i.name := lastWord_of_word (isBlank_of_named hi.named)
  have hname : endsInName i.name = true := by
    rw [endsInName, hword]
    exact List.all_eq_true.2 hi.named
  rw [Item.lines, List.cons_append, List.cons_append, found_name (by exact hname)]
  exact congrArg (fun w => (w, i.first.text) :: _) hword

theorem quiet_cons (m : Line) (last : Bool) :
    quiet (l :: m :: more) last = (!endsInName l.text && quiet (m :: more) last) := by
  cases last <;> rfl

/-- Lines that are quiet are passed. -/
theorem found_of_quiet (h : quiet more ls.isEmpty) :
    found (more.map (Line.under indent) ++ ls) = found ls := by
  induction more using List.twoStepInduction with
  | nil => rfl
  | singleton l =>
    cases ls with
    | nil => rfl
    | cons m ls =>
      have hl : endsInName l.text = false := by simpa [quiet] using h
      exact found_cons (l := l.under indent) hl _
  | cons_cons l m more _ ih =>
    rw [quiet_cons, Bool.and_eq_true_iff, Bool.not_eq_true'] at h
    exact (found_cons (l := l.under indent) h.1 _).trans (ih m h.2)

/-- If names are never taken for help texts, lines that are not quiet add what is found. -/
theorem found_suffix (hhead : ∀ m ∈ ls.head?, m.text.all isNameChar)
    (h : ∀ e ∈ found (more.map (Line.under indent) ++ ls), e.2.all isNameChar = false) :
    found ls <:+ found (more.map (Line.under indent) ++ ls) ∧
      (found (more.map (Line.under indent) ++ ls) = found ls → quiet more ls.isEmpty) := by
  induction more using List.twoStepInduction with
  | nil => exact ⟨List.suffix_rfl, fun _ => by cases ls.isEmpty <;> rfl⟩
  | singleton l =>
    cases ls with
    | nil => exact ⟨List.nil_suffix, fun _ => rfl⟩
    | cons m ls =>
      cases hname : endsInName l.text with
      | false =>
        have hsame : found ([l].map (Line.under indent) ++ m :: ls) = found (m :: ls) :=
          found_cons (l := l.under indent) hname _
        exact ⟨hsame ▸ List.suffix_rfl, fun _ => by simp [quiet, hname]⟩
      | true =>
        have hlone : m.text.all isNameChar = false := by
          refine h (lastWord l.text, m.text) ?_
          have hpair : found ([l].map (Line.under indent) ++ m :: ls) =
              (lastWord l.text, m.text) :: found ls := found_name (l := l.under indent) hname _ _
          rw [hpair]
          exact List.mem_cons_self
        rw [hhead m rfl] at hlone
        cases hlone
  | cons_cons l m more ih ih' =>
    cases hname : endsInName l.text with
    | false =>
      have hsame : found ((l :: m :: more).map (Line.under indent) ++ ls) =
          found ((m :: more).map (Line.under indent) ++ ls) :=
        found_cons (l := l.under indent) hname _
      rw [hsame] at h ⊢
      rw [quiet_cons, hname]
      exact ih' m h
    | true =>
      have hmore : found ((l :: m :: more).map (Line.under indent) ++ ls) =
          (lastWord l.text, m.text) :: found (more.map (Line.under indent) ++ ls) :=
        found_name (l := l.under indent) hname _ _
      rw [hmore] at h ⊢
      have hsuffix := (ih (List.forall_mem_cons.1 h).2).1
      refine ⟨hsuffix.trans (List.suffix_cons _ _), fun heq => ?_⟩
      have hlength := hsuffix.length_le
      rw [← heq, List.length_cons] at hlength
      exact absurd hlength (Nat.not_succ_le_self _)

theorem isEmpty_lines (indent : List Char) (items : List Item) :
    (items.flatMap (Item.lines indent)).isEmpty = items.isEmpty := by
  cases items <;> rfl

theorem found_of_steady (hi : ∀ i ∈ items, i.Canonical) (h : steady items) :
    found (items.flatMap (Item.lines indent)) = documented items := by
  induction items with
  | nil => rfl
  | cons i items ih =>
    obtain ⟨hhere, hlater⟩ := List.forall_mem_cons.1 hi
    rw [steady, Bool.and_eq_true_iff] at h
    rw [List.flatMap_cons, found_lines hhere, found_of_quiet (by rw [isEmpty_lines]; exact h.1),
      ih hlater h.2]
    rfl

/-- If names are never taken for help texts, each one is found, and more is found unless the help
texts are steady. -/
theorem length_found (hi : ∀ i ∈ items, i.Canonical)
    (h : ∀ e ∈ found (items.flatMap (Item.lines indent)), e.2.all isNameChar = false) :
    items.length ≤ (found (items.flatMap (Item.lines indent))).length ∧
      ((found (items.flatMap (Item.lines indent))).length = items.length → steady items) := by
  induction items with
  | nil => exact ⟨Nat.zero_le _, fun _ => rfl⟩
  | cons i items ih =>
    obtain ⟨hhere, hlater⟩ := List.forall_mem_cons.1 hi
    rw [List.flatMap_cons, found_lines hhere] at h ⊢
    have hhead : ∀ m ∈ (items.flatMap (Item.lines indent)).head?, m.text.all isNameChar := by
      intro m hm
      cases items with
      | nil => cases hm
      | cons j items =>
        cases hm
        exact List.all_eq_true.2 (hlater j List.mem_cons_self).named
    obtain ⟨hsuffix, hquiet⟩ := found_suffix hhead (List.forall_mem_cons.1 h).2
    obtain ⟨hle, hsteady⟩ := ih hlater fun e he =>
      (List.forall_mem_cons.1 h).2 e (hsuffix.subset he)
    have hlength := hsuffix.length_le
    rw [List.length_cons, List.length_cons]
    refine ⟨by omega, fun heq => ?_⟩
    rw [steady, ← isEmpty_lines indent, hquiet (hsuffix.eq_of_length (by omega)).symm,
      hsteady (by omega)]
    rfl

/-- Just the documented names are found, each with the first line of its help, if and only if no
later line of a help ends in what could be a name. -/
theorem found_eq_documented_iff (hi : ∀ i ∈ items, i.Canonical) :
    found (items.flatMap (Item.lines indent)) = documented items ↔ steady items := by
  refine ⟨fun h => ?_, found_of_steady hi⟩
  have hphrases : ∀ e ∈ found (items.flatMap (Item.lines indent)),
      e.2.all isNameChar = false := by
    intro e he
    rw [h] at he
    obtain ⟨i, hm, rfl⟩ := List.mem_map.1 he
    exact (hi i hm).phrases i.first List.mem_cons_self
  exact (length_found hi hphrases).2 (by rw [h, documented, List.length_map])

/-- The first line that is not quiet gives a name. -/
theorem stray_of_not_quiet (h : quiet more ls.isEmpty = false) :
    ∃ l ∈ more, lastWord l.text ∈
      (found (more.map (Line.under indent) ++ ls)).map Prod.fst := by
  induction more using List.twoStepInduction with
  | nil => cases hls : ls.isEmpty <;> rw [hls] at h <;> cases h
  | singleton l =>
    cases ls with
    | nil => cases h
    | cons m ls =>
      have hname : endsInName l.text = true := by simpa [quiet] using h
      refine ⟨l, List.mem_cons_self, ?_⟩
      rw [List.map_cons, List.map_nil, List.singleton_append,
        found_name (l := l.under indent) hname]
      exact List.mem_cons_self
  | cons_cons l m more _ ih =>
    cases hname : endsInName l.text with
    | false =>
      rw [quiet_cons, hname] at h
      obtain ⟨d, hd, hfound⟩ := ih m h
      refine ⟨d, List.mem_cons_of_mem l hd, ?_⟩
      rw [List.map_cons, List.cons_append, found_cons (l := l.under indent) hname]
      exact hfound
    | true =>
      refine ⟨l, List.mem_cons_self, ?_⟩
      rw [List.map_cons, List.map_cons, List.cons_append, List.cons_append,
        found_name (l := l.under indent) hname]
      exact List.mem_cons_self

theorem exists_stray (hi : ∀ i ∈ items, i.Canonical) (h : steady items = false) :
    ∃ i ∈ items, ∃ l ∈ i.more, lastWord l.text ∈
      (found (items.flatMap (Item.lines indent))).map Prod.fst := by
  induction items with
  | nil => cases h
  | cons i items ih =>
    obtain ⟨hhere, hlater⟩ := List.forall_mem_cons.1 hi
    rw [List.flatMap_cons, found_lines hhere]
    rw [steady, Bool.and_eq_false_iff, ← isEmpty_lines indent] at h
    cases hquiet : quiet i.more (items.flatMap (Item.lines indent)).isEmpty with
    | false =>
      obtain ⟨l, hl, hfound⟩ := stray_of_not_quiet hquiet
      exact ⟨i, List.mem_cons_self, l, hl, List.mem_cons_of_mem _ hfound⟩
    | true =>
      obtain ⟨j, hj, l, hl, hfound⟩ := ih hlater (h.resolve_left (by simp [hquiet]))
      rw [found_of_quiet hquiet]
      exact ⟨j, List.mem_cons_of_mem i hj, l, hl, List.mem_cons_of_mem _ hfound⟩

end

/-! Pages -/

def strings (e : List Char × List Char) : String × String := (String.ofList e.1, String.ofList e.2)

section
variable {indent : List Char} {items : List Item}

theorem text_entry (indent : List Char) (i : Item) :
    (i.entry indent).text indent = (i.lines indent).flatMap Line.chars := by
  simp [Entry.text, Item.entry, Item.lines, Line.chars, Line.under]

theorem Item.Canonical.proper {i : Item} (hi : i.Canonical) (hne : indent ≠ [])
    (hindent : ∀ c ∈ indent, isBlank c) : ∀ l ∈ i.lines indent, l.Proper := by
  have hname : ∀ c ∈ i.name, isBlank c = false := isBlank_of_named hi.named
  have hunder : ∀ l ∈ i.first :: i.more, (l.under indent).Proper := fun l hl =>
    have hp := hi.lines l hl
    ⟨List.append_ne_nil_of_left_ne_nil hne _, List.forall_mem_append.2 ⟨hindent, hp.margin⟩,
      hp.text_ne, hp.trimmed, hp.single⟩
  intro l hl
  rcases List.mem_cons.1 hl with rfl | hl
  · refine ⟨hne, hindent, hi.name_ne, trim_of_all hname, fun hm => ?_⟩
    have hblank := hname '\n' hm
    exact absurd hblank (by decide)
  · rw [← List.map_cons] at hl
    obtain ⟨d, hd, rfl⟩ := List.mem_map.1 hl
    exact hunder d hd

/-- What a page says of its parameters is what is found in their lines. -/
theorem paramsOf_entries_lines (hi : ∀ i ∈ items, i.Canonical) (hne : indent ≠ [])
    (hindent : ∀ c ∈ indent, isBlank c) :
    paramsOf ((items.map (Item.entry indent)).flatMap (Entry.text indent)) =
      Entries.putAll ((found (items.flatMap (Item.lines indent))).map strings) := by
  have hproper : ∀ l ∈ items.flatMap (Item.lines indent), l.Proper := by
    intro l hl
    obtain ⟨i, hm, hl⟩ := List.mem_flatMap.1 hl
    exact (hi i hm).proper hne hindent l hl
  have hchars : (items.map (Item.entry indent)).flatMap (Entry.text indent) =
      (items.flatMap (Item.lines indent)).flatMap Line.chars := by
    rw [List.flatMap_map, List.flatMap_assoc]
    exact List.flatMap_congr fun i _ => text_entry indent i
  rw [paramsOf_eq, hchars, entries_lines hproper]
  refine congrArg Entries.putAll (List.map_congr_left fun e he => ?_)
  obtain ⟨l, hl, htext⟩ := found_texts he
  rw [strings, trimEnd_eq_self (htext ▸ last_of_trimmed (hproper l hl).trimmed)]

theorem nodup_documented (h : (items.map Item.name).Nodup) :
    (((documented items).map strings).map Prod.fst).Nodup := by
  have hinj : Function.Injective String.ofList := fun _ _ => String.ofList_injective
  have hnames := h.map hinj
  rw [List.map_map] at hnames
  rw [documented, List.map_map, List.map_map]
  exact hnames

end

namespace Page
variable {p : Page} {items : List Item}

/-- The parameters of a page are what is found in the lines of their help texts. Those are the
documented ones, each with its first line, just if no later line that has a line behind it ends in
what could be a name; the last word of such a line is listed as a name. -/
theorem params_continued (hp : p.Framed) (hne : p.indent ≠ []) (hi : ∀ i ∈ items, i.Canonical)
    (he : p.entries = items.map (Item.entry p.indent)) {lead trail : List Char}
    (hl : ∀ c ∈ lead, isBlank c) (ht : ∀ c ∈ trail, isBlank c) {s : String}
    (hs : s.toList = lead ++ p.text ++ trail) :
    (Docstring.read (some s)).params =
        Entries.putAll ((found (items.flatMap (Item.lines p.indent))).map strings) ∧
      (found (items.flatMap (Item.lines p.indent)) = documented items ↔ steady items) ∧
      (steady items → (items.map Item.name).Nodup →
        (Docstring.read (some s)).params = (documented items).map strings ∧
        ∀ i ∈ items, (Docstring.read (some s)).help? (String.ofList i.name) =
          some (String.ofList i.first.text)) ∧
      ((∀ i ∈ items, ∀ l ∈ i.more, lastWord l.text ∉ items.map Item.name) →
        (Docstring.read (some s)).params = (documented items).map strings → steady items) := by
  have hparams : (Docstring.read (some s)).params =
      Entries.putAll ((found (items.flatMap (Item.lines p.indent))).map strings) := by
    rw [hp.read_parts hl ht hs, he, paramsOf_entries_lines hi hne hp.indent]
  refine ⟨hparams, found_eq_documented_iff hi, fun hsteady hn => ?_, fun hapart hread => ?_⟩
  · have hread : (Docstring.read (some s)).params = (documented items).map strings := by
      rw [hparams, found_of_steady hi hsteady, Entries.putAll_of_nodup (nodup_documented hn)]
    refine ⟨hread, fun i hm => ?_⟩
    rw [Docstring.help?, hread]
    refine Entries.get?_of_mem (e := strings (i.name, i.first.text)) (nodup_documented hn) ?_
    exact List.mem_map_of_mem (List.mem_map_of_mem hm)
  · by_contra hno
    obtain ⟨i, hm, l, hl, hfound⟩ := exists_stray hi (by simpa using hno)
    have hlisted : String.ofList (lastWord l.text) ∈
        ((documented items).map strings).map Prod.fst := by
      rw [← hread, hparams, Entries.names_putAll, List.mem_eraseDups, List.map_map]
      obtain ⟨e, hmem, hname⟩ := List.mem_map.1 hfound
      exact List.mem_map.2 ⟨e, hmem, congrArg String.ofList hname⟩
    rw [documented, List.map_map, List.map_map] at hlisted
    obtain ⟨j, hj, hname⟩ := List.mem_map.1 hlisted
    have hsame : j.name = lastWord l.text := by
      simpa [strings] using congrArg String.toList hname
    exact hapart i hm l hl (hsame ▸ List.mem_map_of_mem hj)

/-- Two parameters, the help of the first with a second line. -/
def tableItems (second : String) : List Item :=
  [⟨"table".toList, ⟨"    ".toList, "The first table".toList⟩, [⟨"    ".toList, second.toList⟩]⟩,
    ⟨"other".toList, ⟨"    ".toList, "More help here.".toList⟩, []⟩]

def tables (second : String) : Page where
  description := "Count rows.".toList
  gap := []
  indent := "    ".toList
  dashes := 7
  entries := (tableItems second).map (Item.entry "    ".toList)
  returns := none

def tablesText (second : String) : String :=
  "Count rows.\n\n    Parameters\n    ----------\n" ++
    "    table\n        The first table\n        " ++ second ++
    "\n    other\n        More help here.\n"

section
variable {second : String} (h : second = "of several tables." ∨ second = "of several tables")

include h in
theorem tableItems_canonical : ∀ i ∈ tableItems second, i.Canonical := by
  have hnames : ∀ i ∈ tableItems second, i.name ≠ [] ∧ i.name.all isNameChar := by
    rcases h with rfl | rfl <;> decide
  have hmargins : ∀ i ∈ tableItems second, ∀ l ∈ i.first :: i.more,
      l.margin ≠ [] ∧ l.margin.all isBlank := by
    rcases h with rfl | rfl <;> decide
  have htexts : ∀ i ∈ tableItems second, ∀ l ∈ i.first :: i.more,
      l.text ≠ [] ∧ trim l.text = l.text ∧ '\n' ∉ l.text ∧ l.text.all isNameChar = false := by
    rcases h with rfl | rfl <;> decide
  intro i hi
  refine ⟨(hnames i hi).1, List.all_eq_true.1 (hnames i hi).2, fun l hl => ?_,
    fun l hl => (htexts i hi l hl).2.2.2⟩
  obtain ⟨hne, hblank⟩ := hmargins i hi l hl
  obtain ⟨htext, htrim, hline, -⟩ := htexts i hi l hl
  exact ⟨hne, List.all_eq_true.1 hblank, htext, htrim, hline⟩

include h in
theorem tables_framed : (tables second).Framed where
  description_ne := by rcases h with rfl | rfl <;> decide
  description_trimmed := by rcases h with rfl | rfl <;> decide
  gap := nofun
  indent := forall_mem_of_all (by rcases h with rfl | rfl <;> decide)
  entries_ne := List.cons_ne_nil _ _
  helps := by rcases h with rfl | rfl <;> decide
  returns := nofun
  heads := by
    have hall : ∀ n ≤ (tables second).text.length, Heads ((tables second).text.drop n) →
        (tables second).text.take n ∈ [(tables second).opening] := by
      rcases h with rfl | rfl <;> decide +kernel
    intro before after hsplit hh
    exact .inl (List.mem_singleton.1 (before_mem hall hsplit hh))

end

theorem toList_ofList_around (a b : List Char) (s : String) (c : List Char) :
    (String.ofList a ++ String.ofList b ++ s ++ String.ofList c).toList =
      a ++ b ++ s.toList ++ c := by
  simp

/-- Without the dot at its end, the second line is read as a parameter, and the name of the next
one as its help. -/
theorem params_continued_tables :
    (Docstring.read (some (tablesText "of several tables."))).params =
        [("table", "The first table"), ("other", "More help here.")] ∧
      (Docstring.read (some (tablesText "of several tables"))).params =
        [("table", "The first table"), ("tables", "other")] := by
  have hlead : ∀ c ∈ ([] : List Char), isBlank c := nofun
  have htrail : ∀ c ∈ "\n".toList, isBlank c := forall_mem_of_all (by decide)
  have htext : ∀ second, second = "of several tables." ∨ second = "of several tables" →
      (tablesText second).toList = [] ++ (tables second).text ++ "\n".toList := by
    intro second hsecond
    refine (toList_ofList_around _ _ second _).trans ?_
    rcases hsecond with rfl | rfl <;> decide
  obtain ⟨-, -, hdot, -⟩ := params_continued (tables_framed (.inl rfl)) (by decide)
    (tableItems_canonical (.inl rfl)) rfl hlead htrail (htext _ (.inl rfl))
  obtain ⟨hbare, -⟩ := params_continued (tables_framed (.inr rfl)) (by decide)
    (tableItems_canonical (.inr rfl)) rfl hlead htrail (htext _ (.inr rfl))
  refine ⟨(hdot (by decide) (by decide)).1.trans ?_, hbare.trans ?_⟩
  · rfl
  · decide

end Page

end Pipewright.Docstring
