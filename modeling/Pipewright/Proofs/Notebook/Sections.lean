import Pipewright.Proofs.Notebook.Ending
import Pipewright.Proofs.Text.Margins

/-! The sections of a text line by line: each starts at a line that gives its title and goes on to
the next such line. -/
namespace Pipewright.Notebook
open Text

def titleMark : List Char := "### ".toList

/-- The title that a line gives behind its margin. -/
def titleOf? (l : List Char) : Option (List Char) := afterLead? titleMark (trimStart l)

/-- The mark of titles stands in a line at most once, and then in front of the line's title. -/
def Sole (l : List Char) : Prop :=
  titleMark <:+: l → ∃ t, titleOf? l = some t ∧ ¬titleMark <:+: t

/-- The lines of the pieces between the marks. A piece starts with a title, but for the first; the
margin of the next title ends it. -/
def pieceLines : List (List Char) → List (List (List Char))
  | [] => [[]]
  | l :: ls =>
    match titleOf? l with
    | none => (pieceLines ls).modifyHead (l :: ·)
    | some t => [l.takeWhile isBlank] :: (pieceLines ls).modifyHead (t :: ·)

/-! Pieces -/

section
variable {l t : List Char} {ls : List (List Char)}

theorem eq_of_titleOf? (h : titleOf? l = some t) : l = l.takeWhile isBlank ++ (titleMark ++ t) := by
  conv_lhs => rw [← List.takeWhile_append_dropWhile (p := isBlank) (l := l)]
  exact congrArg (l.takeWhile isBlank ++ ·) (eq_of_afterLead? h)

theorem pieceLines_ne_nil (ls : List (List Char)) : pieceLines ls ≠ [] := by
  induction ls with
  | nil => simp [pieceLines]
  | cons l ls ih =>
    rw [pieceLines]
    split
    · simpa using ih
    · simp

theorem exists_pieceLines (ls : List (List Char)) : ∃ p ps, pieceLines ls = p :: ps :=
  List.exists_cons_of_ne_nil (pieceLines_ne_nil ls)

/-- What follows a line in front of others. -/
def behind : List (List Char) → List Char
  | [] => []
  | l :: ls => '\n' :: joinWith ['\n'] (l :: ls)

theorem joinWith_cons (l : List Char) (ls : List (List Char)) :
    joinWith ['\n'] (l :: ls) = l ++ behind ls := by
  cases ls with
  | nil => simp [joinWith, behind]
  | cons m ls => simp [joinWith, behind]

/-- No mark that starts in a line goes on behind it. -/
theorem not_isPrefix_behind (h : ¬titleMark <:+: l) (ls : List (List Char)) :
    ∀ v, v <:+ l → v ≠ [] → ¬titleMark <+: v ++ behind ls := by
  rintro v hv - hstart
  have hin : titleMark <+: v := by
    cases ls with
    | nil => simpa [behind] using hstart
    | cons m ls => exact isPrefix_of_append_cons (c := '\n') (by decide) hstart
  exact h (hin.isInfix.trans hv.isInfix)

theorem not_isPrefix_margin {margin : List Char} (h : ∀ c ∈ margin, isBlank c)
    (rest : List Char) : ∀ v, v <:+ margin → v ≠ [] → ¬titleMark <+: v ++ rest := by
  rintro v hv hne ⟨more, hmore⟩
  obtain ⟨c, v, rfl⟩ := List.exists_cons_of_ne_nil hne
  have hc := (List.cons.inj hmore).1
  have hblank := h c (hv.subset List.mem_cons_self)
  rw [← hc] at hblank
  exact absurd hblank (by decide)

theorem joinWith_append_cons (w l : List Char) (ls : List (List Char)) :
    w ++ joinWith ['\n'] (l :: ls) = joinWith ['\n'] ((w ++ l) :: ls) := by
  rw [joinWith_cons, joinWith_cons, List.append_assoc]

theorem splitBy_line (hl : Sole l) (hrest : splitBy titleMark 0 (behind ls) =
      ((pieceLines ls).modifyHead ([] :: ·)).map (joinWith ['\n'])) :
    splitBy titleMark 0 (l ++ behind ls) = (pieceLines (l :: ls)).map (joinWith ['\n']) := by
  obtain ⟨p, ps, hps⟩ := exists_pieceLines ls
  rw [hps, List.modifyHead_cons, List.map_cons] at hrest
  have happend : ∀ {w}, ¬titleMark <:+: w → splitBy titleMark 0 (w ++ behind ls) =
      joinWith ['\n'] (w :: p) :: ps.map (joinWith ['\n']) := fun {w} hw => by
    rw [splitBy_append (not_isPrefix_behind hw ls), hrest, List.modifyHead_cons,
      joinWith_append_cons, List.append_nil]
  cases ht : titleOf? l with
  | none =>
    have hnone : ¬titleMark <:+: l := fun hmark => by
      obtain ⟨t, hsome, -⟩ := hl hmark
      rw [ht] at hsome
      cases hsome
    rw [happend hnone, pieceLines, ht, hps]
    rfl
  | some t =>
    have hsplit := eq_of_titleOf? ht
    obtain ⟨t', hsome, hsole⟩ := hl ⟨l.takeWhile isBlank, t, by rw [List.append_assoc, ← hsplit]⟩
    obtain rfl := Option.some.inj (ht.symm.trans hsome)
    have hmargin : ∀ c ∈ l.takeWhile isBlank, isBlank c := fun c hc => List.mem_takeWhile_imp hc
    rw [pieceLines, ht, hps]
    conv_lhs => rw [hsplit, List.append_assoc, List.append_assoc]
    rw [splitBy_append (not_isPrefix_margin hmargin _), splitBy_mark (by decide), happend hsole,
      List.modifyHead_cons, List.append_nil]
    rfl

/-- Lines are split at their titles. -/
theorem splitBy_behind (h : ∀ l ∈ ls, Sole l) :
    splitBy titleMark 0 (behind ls) =
      ((pieceLines ls).modifyHead ([] :: ·)).map (joinWith ['\n']) := by
  induction ls with
  | nil => rfl
  | cons l ls ih =>
    obtain ⟨hl, hls⟩ := List.forall_mem_cons.1 h
    have hline := splitBy_line hl (ih hls)
    have hnewline : ∀ rest, ¬titleMark <+: '\n' :: rest := by
      rintro rest ⟨more, hmore⟩
      exact absurd (List.cons.inj hmore).1 (by decide)
    rw [behind, joinWith_cons, splitBy_cons (hnewline _), hline]
    obtain ⟨p, ps, hps⟩ := exists_pieceLines (l :: ls)
    have hne : p ≠ [] := by
      rintro rfl
      rw [pieceLines] at hps
      split at hps
      · obtain ⟨q, qs, hqs⟩ := exists_pieceLines ls
        rw [hqs] at hps
        cases hps
      · cases hps
    obtain ⟨m, ms, rfl⟩ := List.exists_cons_of_ne_nil hne
    rw [hps]
    rfl

theorem splitBy_joinWith (h : ∀ l ∈ ls, Sole l) :
    splitBy titleMark 0 (joinWith ['\n'] ls) = (pieceLines ls).map (joinWith ['\n']) := by
  cases ls with
  | nil => rfl
  | cons l ls =>
    obtain ⟨hl, hls⟩ := List.forall_mem_cons.1 h
    rw [joinWith_cons, splitBy_line hl (splitBy_behind hls)]

theorem forall_tail_pieceLines (ls : List (List Char)) : ∀ p ∈ (pieceLines ls).tail, p ≠ [] := by
  induction ls with
  | nil => simp [pieceLines]
  | cons l ls ih =>
    obtain ⟨p, ps, hps⟩ := exists_pieceLines ls
    rw [hps] at ih
    rw [pieceLines, hps]
    cases titleOf? l with
    | none => exact ih
    | some t => exact List.forall_mem_cons.2 ⟨List.cons_ne_nil t p, ih⟩

theorem mem_pieceLines {p : List (List Char)} {m : List Char} (hp : p ∈ pieceLines ls)
    (hm : m ∈ p) : ∃ l ∈ ls, m <:+: l := by
  induction ls generalizing p with
  | nil =>
    obtain rfl := List.mem_singleton.1 hp
    cases hm
  | cons l ls ih =>
    obtain ⟨q, qs, hqs⟩ := exists_pieceLines ls
    rw [hqs] at ih
    have hrest : ∀ {p}, p ∈ q :: qs → m ∈ p → ∃ k ∈ l :: ls, m <:+: k := fun {p} hp hm => by
      obtain ⟨k, hk, hmk⟩ := ih hp hm
      exact ⟨k, List.mem_cons_of_mem l hk, hmk⟩
    have hfirst : ∀ {k}, k <:+: l → m ∈ k :: q → ∃ k ∈ l :: ls, m <:+: k := fun {k} hk hm => by
      obtain rfl | hm := List.mem_cons.1 hm
      · exact ⟨l, List.mem_cons_self, hk⟩
      · exact hrest List.mem_cons_self hm
    rw [pieceLines, hqs] at hp
    cases ht : titleOf? l with
    | none =>
      rw [ht] at hp
      obtain rfl | hp := List.mem_cons.1 hp
      · exact hfirst List.infix_rfl hm
      · exact hrest (List.mem_cons_of_mem q hp) hm
    | some t =>
      have hsplit := eq_of_titleOf? ht
      rw [ht] at hp
      obtain rfl | hp := List.mem_cons.1 hp
      · obtain rfl := List.mem_singleton.1 hm
        exact ⟨l, List.mem_cons_self, (List.takeWhile_prefix isBlank).isInfix⟩
      · obtain rfl | hp := List.mem_cons.1 hp
        · exact hfirst ⟨l.takeWhile isBlank ++ titleMark, [], by simp [← hsplit]⟩ hm
        · exact hrest (List.mem_cons_of_mem q hp) hm

end

/-! Sections -/

end Pipewright.Notebook

namespace Pipewright.Section

/-- A section with the name that its last line assigns, once more. -/
def echoed (s : Section) : Section :=
  { s with code := s.code ++ (Notebook.assignedName? (s.code.getLast?.getD s.title)).toList }

/-- The section that lines give, the first of them its title. -/
def ofLines (p : List (List Char)) : Section :=
  ⟨String.ofList (p.headD []), (p.tail.filter fun l => !l.isEmpty).map String.ofList⟩

end Pipewright.Section

namespace Pipewright.Notebook
open Text

section
variable {l : List Char} {ls p : List (List Char)}

theorem allBlank_joinWith (ls : List (List Char)) :
    allBlank (joinWith ['\n'] ls) = ls.all allBlank := by
  induction ls with
  | nil => rfl
  | cons l ls ih =>
    cases ls with
    | nil => simp [joinWith]
    | cons m ls =>
      have hnewline : allBlank ['\n'] = true := by decide
      rw [List.all_cons, ← ih, joinWith]
      simp [allBlank] at hnewline ⊢
      simp [hnewline]

theorem section?_eq (cs : List Char) : section? cs =
    if allBlank cs then none else some (Section.ofLines (splitAt '\n' cs)).echoed := by
  obtain ⟨t, code, hsplit⟩ := List.exists_cons_of_ne_nil (splitAt_ne_nil '\n' cs)
  have hcode : (code.map String.ofList).filter (fun l => !l.isEmpty) =
      (code.filter fun l => !l.isEmpty).map String.ofList := by
    rw [List.filter_map]
    refine congrArg (List.map String.ofList) (List.filter_congr fun l _ => ?_)
    rw [Function.comp_apply, Bool.eq_iff_iff]
    simp
  rw [section?, hsplit, List.map_cons]
  split
  · rfl
  · dsimp only
    rw [hcode]
    rfl

theorem section?_joinWith (hne : p ≠ []) (h : ∀ l ∈ p, '\n' ∉ l) : section? (joinWith ['\n'] p) =
    if p.all allBlank then none else some (Section.ofLines p).echoed := by
  rw [section?_eq, allBlank_joinWith, splitAt_joinWith hne h]

/-- The lines of a whole body without their margin. -/
def bodyLines (body : String) : List (List Char) :=
  splitAt '\n' (dedent (body.toList ++ ['\n']))

theorem not_mem_of_mem_dedentLines {cs : List Char} (h : l ∈ dedentLines (lines cs)) :
    '\n' ∉ l := by
  obtain ⟨⟨m, hm, hsuffix, -⟩, -⟩ := mem_dedentLines h
  exact fun hl => not_mem_of_mem_lines hm (hsuffix.subset hl)

theorem bodyLines_eq (body : String) :
    bodyLines body = dedentLines (lines (body.toList ++ ['\n'])) := by
  refine splitAt_joinWith (fun hnil => ?_) fun l hl => not_mem_of_mem_dedentLines hl
  have hlines : lines (body.toList ++ ['\n']) ≠ [] := lines_ne_nil (by simp)
  exact hlines (List.map_eq_nil_iff.1 hnil)

/-- The sections of a body line by line. -/
theorem sections_eq {body : String}
    (hls : dedentLines (lines (upToEnd (body.toList ++ ['\n']))) = ls) (h : ∀ l ∈ ls, Sole l) :
    sections body = ((pieceLines ls).tail.filter fun p => !p.all allBlank).map
      fun p => (Section.ofLines p).echoed := by
  have hpiece : ∀ p ∈ (pieceLines ls).tail, section? (joinWith ['\n'] p) =
      if p.all allBlank then none else some (Section.ofLines p).echoed := fun p hp => by
    refine section?_joinWith (forall_tail_pieceLines ls p hp) fun m hm hnewline => ?_
    obtain ⟨l, hl, hpart⟩ := mem_pieceLines (List.mem_of_mem_tail hp) hm
    rw [← hls] at hl
    exact not_mem_of_mem_dedentLines hl (hpart.subset hnewline)
  have hsplit : splitBy "### ".toList 0 (dedent (upToEnd (body.toList ++ ['\n']))) =
      (pieceLines ls).map (joinWith ['\n']) := by
    rw [dedent, hls]
    exact splitBy_joinWith h
  dsimp only [sections]
  rw [hsplit, List.drop_one, ← List.map_tail, List.filterMap_map]
  generalize (pieceLines ls).tail = ps at hpiece
  induction ps with
  | nil => rfl
  | cons p ps ih =>
    obtain ⟨hp, hps⟩ := List.forall_mem_cons.1 hpiece
    rw [List.filterMap_cons, Function.comp_apply, hp, ih hps, List.filter_cons]
    cases p.all allBlank <;> rfl

/-- The mark of titles stands in a line at its start at most, and then a title stands behind it. -/
structure Titled (l : List Char) : Prop where
  apart : ¬titleMark <:+: l.tail
  shown : ∀ t ∈ afterLead? titleMark l, allBlank t = false

theorem titleOf?_mark (t : List Char) : titleOf? (titleMark ++ t) = some t :=
  afterLead?_append titleMark t

theorem Titled.titleOf?_eq (h : Titled l) : titleOf? l = afterLead? titleMark l := by
  cases ht : titleOf? l with
  | none =>
    cases hlead : afterLead? titleMark l with
    | none => rfl
    | some t =>
      rw [eq_of_afterLead? hlead, titleOf?_mark] at ht
      cases ht
  | some t =>
    have hsplit := eq_of_titleOf? ht
    cases hmargin : l.takeWhile isBlank with
    | nil =>
      rw [hmargin, List.nil_append] at hsplit
      rw [hsplit, afterLead?_append]
    | cons c w =>
      rw [hmargin] at hsplit
      refine absurd ⟨w, t, ?_⟩ h.apart
      rw [hsplit, List.cons_append, List.tail_cons, List.append_assoc]

theorem Titled.sole (h : Titled l) : Sole l := by
  rintro ⟨a, b, rfl⟩
  cases a with
  | cons c a => exact absurd ⟨a, b, rfl⟩ h.apart
  | nil =>
    refine ⟨b, titleOf?_mark b, fun hb => h.apart (hb.trans ?_)⟩
    exact ⟨titleMark.tail, [], by simp [titleMark]⟩

theorem Titled.eq (h : Titled l) {t : List Char} (ht : titleOf? l = some t) :
    l = titleMark ++ t ∧ allBlank t = false := by
  rw [h.titleOf?_eq] at ht
  exact ⟨eq_of_afterLead? ht, h.shown t ht⟩

/-! Lines of sections -/

/-- The lines that a piece shows, its title as a line. -/
def shownLines (p : List (List Char)) : List (List Char) :=
  (titleMark ++ p.headD []) :: p.tail.filter fun l => !l.isEmpty

theorem head_of_pieceLines (ls : List (List Char)) :
    (pieceLines ls).tail.map (·.headD []) = ls.filterMap titleOf? := by
  induction ls with
  | nil => rfl
  | cons l ls ih =>
    obtain ⟨p, ps, hps⟩ := exists_pieceLines ls
    rw [hps] at ih
    rw [pieceLines, hps, List.filterMap_cons]
    cases titleOf? l with
    | none => exact ih
    | some t => exact congrArg (t :: ·) ih

theorem Titled.not_isEmpty (h : Titled l) {t : List Char} (ht : titleOf? l = some t) :
    l.isEmpty = false := by
  rw [(h.eq ht).1]
  rfl

/-- The lines before the first title and those of the pieces are all lines. -/
theorem pieceLines_shown (h : ∀ l ∈ ls, Titled l) :
    ((pieceLines ls).headD []).filter (fun l => !l.isEmpty) ++
      (pieceLines ls).tail.flatMap shownLines = ls.filter fun l => !l.isEmpty := by
  induction ls with
  | nil => rfl
  | cons l ls ih =>
    obtain ⟨hl, hls⟩ := List.forall_mem_cons.1 h
    obtain ⟨p, ps, hps⟩ := exists_pieceLines ls
    have hrest := ih hls
    rw [hps, List.headD_cons, List.tail_cons] at hrest
    rw [pieceLines, hps, List.filter_cons, ← hrest]
    cases ht : titleOf? l with
    | none =>
      dsimp only
      rw [List.modifyHead_cons, List.headD_cons, List.tail_cons, List.filter_cons]
      split <;> rfl
    | some t =>
      have heq := (hl.eq ht).1
      have hmargin : l.takeWhile isBlank = [] := by
        rw [heq]
        rfl
      rw [hmargin, hl.not_isEmpty ht]
      simp [shownLines, ← heq]

theorem tail_pieceLines_shown (h : ∀ l ∈ ls, Titled l) :
    (pieceLines ls).tail.flatMap shownLines =
      (ls.dropWhile fun l => (afterLead? titleMark l).isNone).filter fun l => !l.isEmpty := by
  induction ls with
  | nil => rfl
  | cons l ls ih =>
    obtain ⟨hl, hls⟩ := List.forall_mem_cons.1 h
    obtain ⟨p, ps, hps⟩ := exists_pieceLines ls
    have hrest := ih hls
    have hall := pieceLines_shown hls
    rw [hps, List.tail_cons] at hrest hall
    rw [pieceLines, hps, List.dropWhile_cons, ← hl.titleOf?_eq]
    cases ht : titleOf? l with
    | none => exact hrest
    | some t =>
      have heq := (hl.eq ht).1
      have hkept := hl.not_isEmpty ht
      simp [shownLines, hkept, ← heq, ← hall]

/-- Every title starts a section of its own, and the sections keep the lines from the first title
on. -/
theorem sections_keep_lines (body : String)
    (hcut : ∀ y, y <:+ body.toList ++ ['\n'] → ¬EndsBody y)
    (htitled : ∀ l ∈ bodyLines body, Titled l) :
    ∃ bare : List Section, sections body = bare.map Section.echoed ∧
      bare.map Section.title =
        ((bodyLines body).filterMap (afterLead? titleMark)).map String.ofList ∧
      bare.flatMap (fun s => ("### " ++ s.title) :: s.code) =
        (((bodyLines body).dropWhile fun l => (afterLead? titleMark l).isNone).filter
          fun l => !allBlank l).map String.ofList := by
  have hwhole := upToEnd_eq_self_iff.2 hcut
  have hlines := bodyLines_eq body
  have hblank : ∀ l ∈ bodyLines body, allBlank l = l.isEmpty := fun l hl => by
    rw [hlines] at hl
    have hnil := (mem_dedentLines hl).2
    rw [Bool.eq_iff_iff, List.isEmpty_iff]
    exact ⟨hnil, fun h => by rw [h]; rfl⟩
  generalize bodyLines body = ls at htitled hlines hblank ⊢
  have hsections := sections_eq (hwhole.symm ▸ hlines.symm) fun l hl => (htitled l hl).sole
  have hheads := head_of_pieceLines ls
  have hkept : ((pieceLines ls).tail.filter fun p => !p.all allBlank) = (pieceLines ls).tail := by
    refine List.filter_eq_self.2 fun p hp => ?_
    obtain ⟨t, code, rfl⟩ := List.exists_cons_of_ne_nil (forall_tail_pieceLines ls p hp)
    have ht : t ∈ ls.filterMap titleOf? := hheads ▸ List.mem_map_of_mem hp
    obtain ⟨l, hl, hlt⟩ := List.mem_filterMap.1 ht
    rw [List.all_cons, ((htitled l hl).eq hlt).2]
    rfl
  have hafter : ls.filterMap titleOf? = ls.filterMap (afterLead? titleMark) :=
    List.filterMap_congr fun l hl => (htitled l hl).titleOf?_eq
  have hline : ∀ t, "### " ++ String.ofList t = String.ofList (titleMark ++ t) := fun t => by
    rw [String.ofList_append, titleMark, String.ofList_toList]
  rw [hkept] at hsections
  refine ⟨(pieceLines ls).tail.map Section.ofLines, ?_, ?_, ?_⟩
  · rw [hsections, List.map_map]
    rfl
  · rw [← hafter, ← hheads, List.map_map, List.map_map]
    rfl
  · rw [List.filter_congr (q := fun l => !l.isEmpty) fun l hl => by
      rw [hblank l ((List.dropWhile_suffix _).subset hl)], ← tail_pieceLines_shown htitled,
      List.flatMap_map, List.map_flatMap]
    refine List.flatMap_congr fun p _ => ?_
    rw [shownLines, List.map_cons, ← hline]
    rfl

end

/-- A body with a line before its titles and an empty one behind them. -/
def twoPartBody : String :=
  "    import os\n    ### Load\n    if os:\n\n        x = 1\n    ### Show\n    print(x)"

theorem bodyLines_twoPartBody : bodyLines twoPartBody =
    ["import os", "### Load", "if os:", "", "    x = 1", "### Show", "print(x)"].map
      String.toList := by
  have htext : twoPartBody.toList = _ := String.toList_ofList
  rw [bodyLines, htext]
  decide

theorem sections_keep_lines_of_twoPartBody :
    ∃ bare : List Section, sections twoPartBody = bare.map Section.echoed ∧
      bare.map Section.title = ["Load", "Show"] ∧
      bare.flatMap (fun s => ("### " ++ s.title) :: s.code) =
        ["### Load", "if os:", "    x = 1", "### Show", "print(x)"] := by
  have htext : twoPartBody.toList = _ := String.toList_ofList
  have hcut : ∀ y, y <:+ twoPartBody.toList ++ ['\n'] → ¬EndsBody y :=
    upToEnd_eq_self_iff.1 (by rw [htext]; decide)
  have htitled : ∀ l ∈ bodyLines twoPartBody, Titled l := fun l hl => by
    have hall : ∀ l ∈ bodyLines twoPartBody, ¬titleMark <:+: l.tail ∧
        ∀ t ∈ afterLead? titleMark l, allBlank t = false := by
      rw [bodyLines_twoPartBody]
      decide
    exact ⟨(hall l hl).1, (hall l hl).2⟩
  obtain ⟨bare, hsections, htitles, hlines⟩ := sections_keep_lines twoPartBody hcut htitled
  rw [bodyLines_twoPartBody] at htitles hlines
  exact ⟨bare, hsections, htitles.trans (by decide), hlines.trans (by decide)⟩

end Pipewright.Notebook
