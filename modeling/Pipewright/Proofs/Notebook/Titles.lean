import Pipewright.Proofs.Notebook.Sections
import Pipewright.Proofs.Source.Lexing

/-! The titles of a body that its sections keep: all up to the last return, unless the shown part
ends in front of one of them. -/
namespace Pipewright.Notebook
open Text

/-- The text of a source before its last return. -/
def BeforeLastReturn (source front : List Char) : Prop :=
  ∃ ts t us, Source.lex source = ts ++ t :: us ∧ t.isWord "return" = true ∧
    (∀ u ∈ us, u.isWord "return" = false) ∧ front = Source.spell ts ++ t.gap

/-- The lines that end within a text. -/
def endedLines (cs : List Char) : List (List Char) := (splitAt '\n' cs).dropLast

/-- The mark of titles stands in a line at most once, and then in front of a title that shows
something. -/
def Marked (l : List Char) : Prop :=
  titleMark <:+: l → ∃ t ∈ titleOf? l, ¬titleMark <:+: t ∧ allBlank t = false

theorem BeforeLastReturn.isPrefix {source front : List Char} (h : BeforeLastReturn source front) :
    front <+: source := by
  obtain ⟨ts, t, us, hlex, -, -, rfl⟩ := h
  have hspell : Source.spell ts ++ t.gap <+: Source.spell (Source.lex source) := by
    rw [hlex, Source.spell_append, List.prefix_append_right_inj]
    exact (List.prefix_append t.gap t.text).trans (List.prefix_append _ (Source.spell us))
  exact hspell.trans (Source.spell_lex_isPrefix source)

/-! Titles of lines -/

section
variable {l q t : List Char} {ls ms : List (List Char)}

theorem titleOf?_append (h : titleOf? q = some t) (rest : List Char) :
    titleOf? (q ++ rest) = some (t ++ rest) := by
  have hsplit := eq_of_titleOf? h
  have hmargin : ∀ c ∈ q.takeWhile isBlank, isBlank c := fun c hc => List.mem_takeWhile_imp hc
  rw [titleOf?, hsplit, List.append_assoc, trimStart_blanks hmargin, List.append_assoc]
  exact titleOf?_mark (t ++ rest)

theorem titleOf?_dedented {m : List Char} (h : trimStart m = trimStart l) :
    titleOf? m = titleOf? l := by rw [titleOf?, titleOf?, h]

theorem filterMap_titleOf? (h : ls.map trimStart = ms.map trimStart) :
    ls.filterMap titleOf? = ms.filterMap titleOf? := by
  have hmap : ∀ ks : List (List Char),
      ks.filterMap titleOf? = (ks.map trimStart).filterMap (afterLead? titleMark) := fun ks => by
    rw [List.filterMap_map]
    rfl
  rw [hmap, hmap, h]

theorem Marked.sole (h : Marked l) : Sole l := fun hmark => by
  obtain ⟨t, ht, hsole, -⟩ := h hmark
  exact ⟨t, ht, hsole⟩

theorem Marked.shown (h : Marked l) (ht : titleOf? l = some t) : allBlank t = false := by
  obtain ⟨s, hs, -, hshown⟩ := h ⟨l.takeWhile isBlank, t, by
    rw [List.append_assoc]
    exact (eq_of_titleOf? ht).symm⟩
  rwa [Option.some.inj (ht.symm.trans hs)]

theorem titleOf?_margin {margin : List Char} (h : ∀ c ∈ margin, isBlank c) (t : List Char) :
    titleOf? (margin ++ (titleMark ++ t)) = some t := by
  rw [titleOf?, trimStart_blanks h]
  exact titleOf?_mark t

/-- The mark stands in front of a line's title just once if the title does not hold it. -/
theorem eq_margin_of_mark {margin a b : List Char} (h : ∀ c ∈ margin, isBlank c)
    (heq : a ++ (titleMark ++ b) = margin ++ titleMark) : a = margin ∧ b = [] := by
  have hlength := congrArg List.length heq
  simp only [List.length_append] at hlength
  obtain ⟨more, rfl⟩ : a <+: margin := List.prefix_of_prefix_length_le
    ⟨titleMark ++ b, heq⟩ (List.prefix_append margin titleMark) (by omega)
  have hmore : more = [] := by
    by_contra hne
    rw [List.append_assoc, List.append_cancel_left_eq] at heq
    exact not_isPrefix_margin h titleMark more (List.suffix_append a more) hne ⟨b, heq⟩
  subst hmore
  rw [List.append_nil] at hlength ⊢
  exact ⟨rfl, List.eq_nil_of_length_eq_zero (by omega)⟩

/-- A line that has its mark in front of the title only has it there, or nowhere, up to any place. -/
theorem Sole.isPrefix (h : Sole l) (hq : q <+: l) : Sole q := by
  intro hmark
  obtain ⟨t, ht, hsole⟩ := h (hmark.trans hq.isInfix)
  obtain ⟨margin, hmargin, rfl⟩ : ∃ margin, (∀ c ∈ margin, isBlank c) ∧
      l = margin ++ titleMark ++ t := by
    refine ⟨l.takeWhile isBlank, fun c hc => List.mem_takeWhile_imp hc, ?_⟩
    rw [List.append_assoc]
    exact eq_of_titleOf? ht
  obtain hfront | ⟨s, rfl⟩ :=
    List.prefix_or_prefix_of_prefix hq (List.prefix_append (margin ++ titleMark) t)
  · obtain ⟨a, b, rfl⟩ := hmark
    obtain ⟨w, hw⟩ := hfront
    obtain ⟨rfl, hnil⟩ := eq_margin_of_mark (a := a) (b := b ++ w) hmargin (by simpa using hw)
    obtain ⟨rfl, rfl⟩ := List.append_eq_nil_iff.1 hnil
    exact ⟨[], by simpa using titleOf?_margin hmargin [], by decide⟩
  · have hs : s <+: t := (List.prefix_append_right_inj _).1 hq
    exact ⟨s, by rw [List.append_assoc]; exact titleOf?_margin hmargin s,
      fun hin => hsole (hin.trans hs.isInfix)⟩

/-- Pieces show the titles of their lines. -/
theorem titles_pieceLines (h : ∀ t ∈ ls.dropLast.filterMap titleOf?, allBlank t = false) :
    ((pieceLines ls).tail.filter fun p => !p.all allBlank).map (·.headD []) =
      (ls.filterMap titleOf?).filter fun t => !allBlank t := by
  induction ls with
  | nil => rfl
  | cons l ls ih =>
    cases ls with
    | nil =>
      rw [pieceLines]
      cases ht : titleOf? l with
      | none => simp [pieceLines, ht]
      | some t =>
        cases hblank : allBlank t <;> simp [pieceLines, ht, hblank]
    | cons m ls =>
      obtain ⟨p, ps, hps⟩ := exists_pieceLines (m :: ls)
      rw [List.dropLast_cons_cons, List.filterMap_cons] at h
      rw [hps, List.tail_cons] at ih
      rw [pieceLines, hps, List.filterMap_cons]
      cases ht : titleOf? l with
      | none =>
        rw [ht] at h
        exact ih h
      | some t =>
        rw [ht] at h
        obtain ⟨hshown, hrest⟩ := List.forall_mem_cons.1 h
        dsimp only
        rw [List.tail_cons, List.modifyHead_cons, List.filter_cons, List.filter_cons, List.all_cons,
          hshown, ← ih hrest]
        rfl

/-- The titles of the sections are those of the lines of the shown part. -/
theorem titles_sections {body : String} (hls : lines (upToEnd (body.toList ++ ['\n'])) = ls)
    (hsole : ∀ l ∈ ls, Sole l) (hshown : ∀ t ∈ ls.dropLast.filterMap titleOf?, allBlank t = false) :
    (sections body).map (·.title.toList) =
      (ls.filterMap titleOf?).filter fun t => !allBlank t := by
  have htrim := map_trimStart_dedentLines ls
  have hdrop : (dedentLines ls).dropLast.map trimStart = ls.dropLast.map trimStart := by
    rw [List.map_dropLast, htrim, List.map_dropLast]
  have hdedented : ∀ m ∈ dedentLines ls, Sole m := fun m hm hmark => by
    obtain ⟨⟨l, hl, hsuffix, htitle⟩, -⟩ := mem_dedentLines hm
    rw [titleOf?_dedented htitle]
    exact hsole l hl (hmark.trans hsuffix.isInfix)
  have htitles := titles_pieceLines (filterMap_titleOf? hdrop ▸ hshown)
  rw [sections_eq (by rw [hls]) hdedented, List.map_map, ← filterMap_titleOf? htrim, ← htitles]
  refine List.map_congr_left fun p _ => ?_
  exact String.toList_ofList

/-! Titles in front of a place -/

/-- The titles of lines are among those in front of a place in one of them just if no title stands
behind the place, and the place is at the end of its line if that is a title. -/
theorem titles_isPrefix_iff (hq : q <+: l) (hl : ∀ t ∈ titleOf? l, allBlank t = false) :
    (ls ++ l :: ms).filterMap titleOf? <+:
        ls.filterMap titleOf? ++ (titleOf? q).toList.filter (fun t => !allBlank t) ↔
      ((titleOf? l).isSome = true → q = l) ∧ ∀ m ∈ ms, titleOf? m = none := by
  obtain ⟨r, rfl⟩ := hq
  rw [List.filterMap_append, List.prefix_append_right_inj, List.filterMap_cons]
  have hms : ms.filterMap titleOf? = [] ↔ ∀ m ∈ ms, titleOf? m = none := List.filterMap_eq_nil_iff
  rw [← hms]
  cases hqt : titleOf? q with
  | none =>
    cases hlt : titleOf? (q ++ r) with
    | none => simp
    | some t =>
      have hne : q ≠ q ++ r := fun he => by
        rw [← he, hqt] at hlt
        cases hlt
      simp [hne]
  | some t =>
    have hlt := titleOf?_append hqt r
    have hshown := hl _ hlt
    rw [hlt]
    by_cases hr : r = []
    · subst hr
      rw [List.append_nil] at hshown ⊢
      simp [hshown]
    · have hne : ¬q = q ++ r := fun he => hr (List.self_eq_append_right.1 he)
      refine iff_of_false (fun hstart => hr ?_) fun h => hne (h.1 rfl)
      have hmem : t ++ r ∈ [t] :=
        List.mem_of_mem_filter (hstart.subset List.mem_cons_self)
      exact List.append_right_eq_self.1 (List.mem_singleton.1 hmem)

/-- No line but the last with a part in front of a place ends behind the place. -/
theorem ends_isPrefix_iff {p : List Char → Prop} (hq : '\n' ∉ q) (hql : q <+: l) :
    (∀ above m below, ls ++ l :: ms = above ++ m :: below → p m →
        ended above ++ m <+: ended ls ++ q) ↔ (p l → q = l) ∧ ∀ m ∈ ms, ¬p m := by
  constructor
  · refine fun h => ⟨fun hl => ?_, fun m hm hpm => ?_⟩
    · have hlq : l <+: q := (List.prefix_append_right_inj _).1 (h ls l ms rfl hl)
      exact hql.eq_of_length_le hlq.length_le
    · obtain ⟨a, b, rfl⟩ := List.append_of_mem hm
      have hend := h (ls ++ l :: a) m b (by simp) hpm
      rw [ended_append, List.append_assoc, List.prefix_append_right_inj, ended_cons] at hend
      exact hq (hend.subset (by simp))
  · rintro ⟨hl, hms⟩ above m below heq hpm
    have hhere : ∀ k ks, l :: ms = k :: ks → p k → ended ls ++ k <+: ended ls ++ q :=
      fun k ks hk hpk => by
        obtain ⟨rfl, rfl⟩ := List.cons.inj hk
        rw [hl hpk]
    obtain ⟨as, rfl, has⟩ | ⟨bs, rfl, hbs⟩ := List.append_eq_append_iff.1 heq
    · cases as with
      | nil =>
        rw [List.append_nil]
        exact hhere m below has hpm
      | cons a as =>
        obtain ⟨rfl, rfl⟩ := List.cons.inj has
        exact absurd hpm (hms m (by simp))
    · cases bs with
      | nil =>
        rw [List.append_nil] at hhere ⊢
        exact hhere m below hbs.symm hpm
      | cons b bs =>
        obtain ⟨rfl, -⟩ := List.cons.inj hbs
        exact (ended_line_isPrefix above m bs).trans (List.prefix_append _ q)

end

/-- The shown part are the first lines of a body, and maybe a part of the next one. -/
theorem exists_shown_lines {body : String}
    (hlines : ∀ l ∈ splitAt '\n' body.toList, Marked l ∧ l.getLast? ≠ some '\r') :
    ∃ ls q rest, splitAt '\n' body.toList = ls ++ rest ∧
      upToEnd (body.toList ++ ['\n']) = ended ls ++ q ∧ '\n' ∉ q ∧ (∀ m ∈ rest.head?, q <+: m) ∧
      (sections body).map (·.title.toList) =
        ls.filterMap titleOf? ++ (titleOf? q).toList.filter fun t => !allBlank t := by
  obtain ⟨after, hwhole, -, -⟩ := upToEnd_spec (body.toList ++ ['\n'])
  obtain ⟨ls, q, rest, hls, hshown, hsplit, hnext, hlast⟩ :=
    exists_ended_of_isPrefix ⟨after, hwhole.symm⟩
  have hmem : ∀ m ∈ ls, '\n' ∉ m := fun m hm =>
    not_mem_of_mem_splitAt (hls ▸ List.mem_append_left [q] hm)
  have hq : '\n' ∉ q :=
    not_mem_of_mem_splitAt (hls ▸ List.mem_append_right ls (List.mem_singleton_self q))
  have hmarked : ∀ l ∈ ls, Marked l ∧ l.getLast? ≠ some '\r' := fun l hl =>
    hlines l (hsplit ▸ List.mem_append_left rest hl)
  have hlineList : lines (upToEnd (body.toList ++ ['\n'])) = ls ++ if q = [] then [] else [q] := by
    rw [hshown, lines_ended (fun l hl => ⟨hmem l hl, (hmarked l hl).2⟩) hq]
  have htitles : ∀ t ∈ ls.filterMap titleOf?, allBlank t = false := fun t ht => by
    obtain ⟨l, hl, hlt⟩ := List.mem_filterMap.1 ht
    exact (hmarked l hl).1.shown hlt
  have hkept : (ls.filterMap titleOf?).filter (fun t => !allBlank t) = ls.filterMap titleOf? :=
    List.filter_eq_self.2 fun t ht => by rw [htitles t ht]; rfl
  refine ⟨ls, q, rest, hsplit, hshown, hq, hnext, ?_⟩
  by_cases hnil : q = []
  · rw [if_pos hnil, List.append_nil] at hlineList
    rw [titles_sections hlineList (fun l hl => (hmarked l hl).1.sole) fun t ht => htitles t ?_,
      hkept, hnil]
    · simp [titleOf?, trimStart, titleMark, afterLead?]
    · exact ((List.dropLast_sublist ls).filterMap titleOf?).subset ht
  · rw [if_neg hnil] at hlineList
    have hsole : ∀ l ∈ ls ++ [q], Sole l := by
      refine List.forall_mem_append.2 ⟨fun l hl => (hmarked l hl).1.sole, fun l hl => ?_⟩
      obtain rfl := List.mem_singleton.1 hl
      obtain ⟨m, rest, rfl⟩ := List.exists_cons_of_ne_nil (mt hlast hnil)
      exact (hlines m (hsplit ▸ by simp)).1.sole.isPrefix (hnext m rfl)
    rw [titles_sections hlineList hsole (by rwa [List.dropLast_concat]), List.filterMap_append,
      List.filter_append, hkept]
    cases hqt : titleOf? q <;> simp [hqt]

/-- The sections show all titles before the last return just if the shown part does not end in
front of one. -/
theorem titles_before_return_iff {body : String} {front : List Char}
    (hfront : BeforeLastReturn body.toList front)
    (hlines : ∀ l ∈ splitAt '\n' body.toList, Marked l ∧ l.getLast? ≠ some '\r') :
    (endedLines front).filterMap titleOf? <+: (sections body).map (·.title.toList) ↔
      ∀ above l below, endedLines front = above ++ l :: below → (titleOf? l).isSome = true →
        ∀ x y, body.toList ++ ['\n'] = x ++ y → EndsBody y → ended above ++ l <+: x := by
  obtain ⟨ls, q, rest, hsplit, hshown, hq, hnext, htitles⟩ := exists_shown_lines hlines
  have hwhole : front <+: body.toList ++ ['\n'] :=
    hfront.isPrefix.trans (List.prefix_append _ _)
  obtain ⟨ks, p, after, hks, rfl, hafter, -, -⟩ := exists_ended_of_isPrefix hwhole
  have hended : endedLines (ended ks ++ p) = ks := by rw [endedLines, hks, List.dropLast_concat]
  rw [hended]
  have hplace : ∀ above l below, ks = above ++ l :: below →
      (ended above ++ l <+: ended ls ++ q ↔
        ∀ x y, body.toList ++ ['\n'] = x ++ y → EndsBody y → ended above ++ l <+: x) := by
    rintro above l below rfl
    rw [← hshown]
    exact isPrefix_upToEnd_iff
      (((ended_line_isPrefix above l below).trans (List.prefix_append _ p)).trans hwhole)
  have hright : (∀ above l below, ks = above ++ l :: below → (titleOf? l).isSome = true →
        ∀ x y, body.toList ++ ['\n'] = x ++ y → EndsBody y → ended above ++ l <+: x) ↔
      ∀ above l below, ks = above ++ l :: below → (titleOf? l).isSome = true →
        ended above ++ l <+: ended ls ++ q :=
    forall_congr' fun above => forall_congr' fun l => forall_congr' fun below =>
      forall_congr' fun h => by rw [hplace above l below h]
  rw [hright, htitles]
  obtain ⟨more, rfl⟩ | ⟨l, ms, rfl⟩ : (∃ more, ls = ks ++ more) ∨ ∃ l ms, ks = ls ++ l :: ms := by
    obtain ⟨more, rfl⟩ | ⟨more, rfl⟩ := List.prefix_or_prefix_of_prefix
      (hafter ▸ List.prefix_append ks after) (hsplit ▸ List.prefix_append ls rest)
    · exact .inl ⟨more, rfl⟩
    · cases more with
      | nil => exact .inl ⟨[], by simp⟩
      | cons l ms => exact .inr ⟨l, ms, rfl⟩
  · refine iff_of_true ?_ ?_
    · rw [List.filterMap_append, List.append_assoc]
      exact List.prefix_append _ _
    · rintro above l below rfl -
      rw [List.append_assoc, List.cons_append]
      exact (ended_line_isPrefix above l (below ++ more)).trans (List.prefix_append _ q)
  · have hhead : l ∈ rest.head? := by
      rw [hsplit, List.append_assoc, List.append_cancel_left_eq] at hafter
      rw [hafter]
      rfl
    have hmarked : Marked l := (hlines l (hafter ▸ by simp)).1
    rw [titles_isPrefix_iff (hnext l hhead) fun t ht => hmarked.shown ht,
      ends_isPrefix_iff hq (hnext l hhead)]
    simp

/-- A body that returns early, and at its end. -/
def twoReturnBody : String :=
  "### Load\nif not table:\n    return None\n### Count\ntotal = 1\nreturn total"

/-- The early return hides the title behind it. -/
theorem titles_before_return_of_twoReturnBody :
    BeforeLastReturn twoReturnBody.toList
        "### Load\nif not table:\n    return None\n### Count\ntotal = 1\n".toList ∧
      sections twoReturnBody = [⟨"Load", ["if not table:"]⟩] ∧
      ¬["Load".toList, "Count".toList] <+: (sections twoReturnBody).map (·.title.toList) := by
  have htext : twoReturnBody.toList = _ := String.toList_ofList
  have hlex : Source.lex twoReturnBody.toList =
      (Source.lex twoReturnBody.toList).take 16 ++
        [⟨[], .word, "return".toList⟩, ⟨[' '], .word, "total".toList⟩] := by
    rw [Source.lex_eq_lexWithin, htext]
    decide
  have hfront : BeforeLastReturn twoReturnBody.toList
      "### Load\nif not table:\n    return None\n### Count\ntotal = 1\n".toList := by
    refine ⟨_, _, _, hlex, by decide, by decide, ?_⟩
    rw [Source.lex_eq_lexWithin, htext]
    decide
  have hlines : ∀ l ∈ splitAt '\n' twoReturnBody.toList, Marked l ∧ l.getLast? ≠ some '\r' := by
    rw [htext]
    unfold Marked
    decide
  have htitles : ["Load".toList, "Count".toList] = (endedLines
      "### Load\nif not table:\n    return None\n### Count\ntotal = 1\n".toList).filterMap
        titleOf? := by
    decide
  refine ⟨hfront, by decide, fun hshown => ?_⟩
  rw [htitles, titles_before_return_iff hfront hlines] at hshown
  have hplace := hshown ["### Load".toList, "if not table:".toList, "    return None".toList]
    "### Count".toList ["total = 1".toList] (by decide) (by decide)
    "### Load\nif not table:\n   ".toList
    " return None\n### Count\ntotal = 1\nreturn total\n".toList (by decide)
    (endsBody_cons_iff.2 (by decide))
  exact absurd hplace (by decide)

end Pipewright.Notebook
