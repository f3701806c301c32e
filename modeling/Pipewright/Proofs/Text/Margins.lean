import Pipewright.Proofs.Text.Lines

/-! Margins that all lines share: taken off, they leave the lines aligned as they were. -/
namespace Pipewright.Text

/-- A line that shows something, behind a margin. -/
def shifted (p l : List Char) : List Char := if allBlank l then l else p ++ l

/-- A text with a margin in front of every line that shows something. -/
def indented (p cs : List Char) : List Char :=
  joinWith ['\n'] ((splitAt '\n' cs).map (shifted p))

/-- A line without so many blanks in front; one that shows nothing becomes empty. -/
def Outdents (n : Nat) (l m : List Char) : Prop :=
  if allBlank l then m = [] else ∃ w, l = w ++ m ∧ w.length = n ∧ ∀ c ∈ w, isBlank c

section
variable {l m p cs : List Char} {ls : List (List Char)} {n : Nat}

/-! The blanks in front of one line -/

theorem trimStart_eq_nil_iff : trimStart l = [] ↔ allBlank l = true := by
  rw [trimStart, List.dropWhile_eq_nil_iff, allBlank, List.all_eq_true]

theorem isBlank_of_mem_take (h : n ≤ indentation l) : ∀ c ∈ l.take n, isBlank c := by
  intro c hc
  rw [← List.takeWhile_append_dropWhile (p := isBlank) (l := l),
    List.take_append_of_le_length h] at hc
  exact List.mem_takeWhile_imp (List.mem_of_mem_take hc)

theorem trimStart_drop (h : n ≤ indentation l) : trimStart (l.drop n) = trimStart l := by
  conv_rhs => rw [← List.take_append_drop n l, trimStart_blanks (isBlank_of_mem_take h)]

theorem allBlank_drop (h : n ≤ indentation l) : allBlank (l.drop n) = allBlank l := by
  rw [Bool.eq_iff_iff, ← trimStart_eq_nil_iff, ← trimStart_eq_nil_iff, trimStart_drop h]

theorem length_eq_indentation_add (l : List Char) :
    l.length = indentation l + (trimStart l).length := by
  rw [indentation, trimStart, ← List.length_append, List.takeWhile_append_dropWhile]

theorem indentation_drop (h : n ≤ indentation l) :
    indentation (l.drop n) = indentation l - n := by
  have hl := length_eq_indentation_add l
  have hdrop := length_eq_indentation_add (l.drop n)
  rw [trimStart_drop h, List.length_drop] at hdrop
  omega

theorem indentation_append (hp : ∀ c ∈ p, isBlank c) (l : List Char) :
    indentation (p ++ l) = p.length + indentation l := by
  rw [indentation, List.takeWhile_append_of_pos hp, List.length_append]
  rfl

theorem starts_shown_iff :
    (∃ c ∈ l.head?, isBlank c = false) ↔ allBlank l = false ∧ indentation l = 0 := by
  cases l with
  | nil => simp [allBlank]
  | cons c l =>
    cases hc : isBlank c with
    | true => simp [indentation, hc]
    | false => simp [allBlank, indentation, hc]

/-! The smallest indentation of lines that show something -/

theorem mem_indentations (hl : l ∈ ls) (hshown : allBlank l = false) :
    indentation l ∈ (ls.filter fun l => !allBlank l).map indentation :=
  List.mem_map_of_mem (List.mem_filter.2 ⟨hl, by simp [hshown]⟩)

theorem margin_le (hl : l ∈ ls) (hshown : allBlank l = false) : margin ls ≤ indentation l := by
  rw [margin]
  cases hmin : ((ls.filter fun l => !allBlank l).map indentation).min? with
  | none => exact Nat.zero_le _
  | some n => exact (List.min?_eq_some_iff.1 hmin).2 _ (mem_indentations hl hshown)

theorem exists_margin (h : ∃ l ∈ ls, allBlank l = false) :
    ∃ l ∈ ls, allBlank l = false ∧ indentation l = margin ls := by
  obtain ⟨l, hl, hshown⟩ := h
  obtain ⟨n, hn⟩ := Option.isSome_iff_exists.1 (List.isSome_min?_of_mem (mem_indentations hl hshown))
  obtain ⟨m, hm, hindent⟩ := List.mem_map.1 (List.min?_eq_some_iff.1 hn).1
  obtain ⟨hm, hshown⟩ := List.mem_filter.1 hm
  exact ⟨m, hm, by simpa using hshown, by rw [margin, hn, hindent]; rfl⟩

theorem margin_eq (hl : l ∈ ls) (hshown : allBlank l = false)
    (hle : ∀ m ∈ ls, allBlank m = false → indentation l ≤ indentation m) :
    margin ls = indentation l := by
  obtain ⟨m, hm, hmshown, hmargin⟩ := exists_margin ⟨l, hl, hshown⟩
  exact Nat.le_antisymm (margin_le hl hshown) (hmargin ▸ hle m hm hmshown)

theorem margin_eq_zero (h : ∀ l ∈ ls, allBlank l = true) : margin ls = 0 := by
  have hnone : ls.filter (fun l => !allBlank l) = [] :=
    List.filter_eq_nil_iff.2 fun l hl => by simp [h l hl]
  rw [margin, hnone]
  rfl

/-! Lines without their margin -/

/-- Lines keep what they show; those that show nothing become empty. -/
theorem map_trimStart_dedentLines (ls : List (List Char)) :
    (dedentLines ls).map trimStart = ls.map trimStart := by
  rw [dedentLines, List.map_map]
  refine List.map_congr_left fun l hl => ?_
  rw [Function.comp_apply]
  split
  · rename_i h
    exact (trimStart_eq_nil_iff.2 h).symm
  · rename_i h
    exact trimStart_drop (margin_le hl (Bool.eq_false_iff.2 h))

theorem mem_dedentLines (hm : m ∈ dedentLines ls) :
    (∃ l ∈ ls, m <:+ l ∧ trimStart m = trimStart l) ∧ (allBlank m = true → m = []) := by
  obtain ⟨l, hl, rfl⟩ := List.mem_map.1 hm
  split
  · rename_i h
    exact ⟨⟨l, hl, List.nil_suffix, (trimStart_eq_nil_iff.2 h).symm⟩, fun _ => rfl⟩
  · rename_i h
    have hle := margin_le hl (Bool.eq_false_iff.2 h)
    refine ⟨⟨l, hl, List.drop_suffix _ _, trimStart_drop hle⟩, fun hblank => ?_⟩
    exact absurd ((allBlank_drop hle).symm.trans hblank) h

theorem forall₂_dedentLines (ls : List (List Char)) :
    List.Forall₂ (Outdents (margin ls)) ls (dedentLines ls) := by
  rw [dedentLines, List.forall₂_map_right_iff, List.forall₂_same]
  intro l hl
  rw [Outdents]
  split
  · rfl
  · rename_i h
    have hle := margin_le hl (Bool.eq_false_iff.2 h)
    have hlength : (l.take (margin ls)).length = margin ls :=
      List.length_take_of_le (hle.trans (List.takeWhile_prefix _).length_le)
    exact ⟨l.take (margin ls), (List.take_append_drop _ l).symm, hlength, isBlank_of_mem_take hle⟩

/-- Of the lines that show something, one starts with what it shows. -/
theorem exists_starts_shown (h : ∃ l ∈ ls, allBlank l = false) :
    ∃ m ∈ dedentLines ls, ∃ c ∈ m.head?, isBlank c = false := by
  obtain ⟨l, hl, hshown, hmargin⟩ := exists_margin h
  refine ⟨l.drop (margin ls), List.mem_map.2 ⟨l, hl, if_neg (by simp [hshown])⟩, ?_⟩
  rw [starts_shown_iff, allBlank_drop hmargin.ge, indentation_drop hmargin.ge, hmargin]
  exact ⟨hshown, Nat.sub_self _⟩

theorem margin_dedentLines (ls : List (List Char)) : margin (dedentLines ls) = 0 := by
  by_cases h : ∃ l ∈ ls, allBlank l = false
  · obtain ⟨m, hm, hstart⟩ := exists_starts_shown h
    obtain ⟨hshown, hzero⟩ := starts_shown_iff.1 hstart
    rw [margin_eq hm hshown (by simp [hzero]), hzero]
  · refine margin_eq_zero fun m hm => ?_
    obtain ⟨l, hl, rfl⟩ := List.mem_map.1 hm
    rw [if_pos]
    · rfl
    · rw [← Bool.not_eq_false]
      exact fun hshown => h ⟨l, hl, hshown⟩

theorem dedentLines_dedentLines (ls : List (List Char)) :
    dedentLines (dedentLines ls) = dedentLines ls := by
  rw [dedentLines, margin_dedentLines]
  refine (List.map_congr_left fun m hm => ?_).trans (List.map_id _)
  split
  · rename_i hblank
    exact ((mem_dedentLines hm).2 hblank).symm
  · rfl

/-! Lines behind a further margin -/

theorem shifted_eq_nil_iff : shifted p l = [] ↔ l = [] := by
  rw [shifted]
  split
  · rfl
  · rename_i h
    have hne : l ≠ [] := fun hnil => h (hnil ▸ rfl)
    simp [hne]

theorem allBlank_shifted (hp : ∀ c ∈ p, isBlank c) (l : List Char) :
    allBlank (shifted p l) = allBlank l := by
  rw [shifted]
  split
  · rfl
  · rw [allBlank, List.all_append, List.all_eq_true.2 hp, Bool.true_and]
    rfl

theorem margin_shifted (hp : ∀ c ∈ p, isBlank c) (h : ∃ l ∈ ls, allBlank l = false) :
    margin (ls.map (shifted p)) = p.length + margin ls := by
  have hindent : ∀ l, allBlank l = false →
      indentation (shifted p l) = p.length + indentation l := fun l hl => by
    rw [shifted, if_neg (by simp [hl]), indentation_append hp]
  obtain ⟨l, hl, hshown, hmargin⟩ := exists_margin h
  have hleast : ∀ m ∈ ls.map (shifted p), allBlank m = false →
      indentation (shifted p l) ≤ indentation m := by
    intro m hm hmshown
    obtain ⟨k, hk, rfl⟩ := List.mem_map.1 hm
    rw [allBlank_shifted hp] at hmshown
    rw [hindent l hshown, hindent k hmshown, hmargin]
    exact Nat.add_le_add_left (margin_le hk hmshown) _
  rw [margin_eq (List.mem_map_of_mem hl) (by rwa [allBlank_shifted hp]) hleast, hindent l hshown,
    hmargin]

theorem dedentLines_shifted (hp : ∀ c ∈ p, isBlank c) (ls : List (List Char)) :
    dedentLines (ls.map (shifted p)) = dedentLines ls := by
  rw [dedentLines, dedentLines, List.map_map]
  refine List.map_congr_left fun l hl => ?_
  rw [Function.comp_apply, allBlank_shifted hp]
  split
  · rfl
  · rename_i h
    rw [margin_shifted hp ⟨l, hl, Bool.eq_false_iff.2 h⟩, shifted, if_neg h, ← List.drop_drop,
      List.drop_left]

/-! Texts without carriage returns -/

theorem joinWith_concat (ls : List (List Char)) (l : List Char) :
    joinWith ['\n'] (ls ++ [l]) = ended ls ++ l := by
  induction ls with
  | nil => rfl
  | cons m ls ih =>
    calc joinWith ['\n'] (m :: ls ++ [l])
        = joinWith ['\n'] ([m] ++ (ls ++ [l])) := rfl
      _ = m ++ (['\n'] ++ (ended ls ++ l)) := by
        rw [joinWith_append ['\n'] (List.cons_ne_nil m []) (by simp), ih]
        rfl
      _ = ended (m :: ls) ++ l := by simp [ended_cons]

theorem lines_concat (hls : ∀ m ∈ ls, '\n' ∉ m ∧ '\r' ∉ m) (hl : '\n' ∉ l) :
    lines (joinWith ['\n'] (ls ++ [l])) = ls ++ if l = [] then [] else [l] := by
  rw [joinWith_concat]
  exact lines_ended (fun m hm => ⟨(hls m hm).1, fun h => (hls m hm).2 (List.mem_of_getLast? h)⟩) hl

/-- Lines with newlines between them, of which the last one is not empty. -/
theorem lines_joinWith (hls : ∀ l ∈ ls, '\n' ∉ l ∧ '\r' ∉ l) (hlast : [] ∉ ls.getLast?) :
    lines (joinWith ['\n'] ls) = ls := by
  cases ls using List.reverseRecOn with
  | nil => rfl
  | append_singleton front l =>
    obtain ⟨hfront, hl⟩ := List.forall_mem_append.1 hls
    have hne : l ≠ [] := fun h => hlast (by simp [h])
    rw [lines_concat hfront (hl l (List.mem_singleton_self l)).1, if_neg hne]

/-- The lines of a text without carriage returns stand between its newlines; nothing but an empty
text behind the last newline is no line. -/
theorem exists_pieces (hcs : '\r' ∉ cs) :
    ∃ ls l, splitAt '\n' cs = ls ++ [l] ∧ lines cs = ls ++ (if l = [] then [] else [l]) ∧
      ∀ m ∈ ls ++ [l], '\n' ∉ m ∧ '\r' ∉ m := by
  obtain ⟨ls, l, hsplit, -⟩ := exists_ended cs
  have hfree : ∀ m ∈ ls ++ [l], '\n' ∉ m ∧ '\r' ∉ m := by
    intro m hm
    rw [← hsplit] at hm
    have hpart : m <:+: cs := joinWith_splitAt '\n' cs ▸ infix_joinWith ['\n'] hm
    exact ⟨not_mem_of_mem_splitAt hm, fun h => hcs (hpart.subset h)⟩
  obtain ⟨hls, hl⟩ := List.forall_mem_append.1 hfree
  refine ⟨ls, l, hsplit, ?_, hfree⟩
  rw [← lines_concat hls (hl l (List.mem_singleton_self l)).1, ← hsplit, joinWith_splitAt]

theorem lines_indented (hp : '\n' ∉ p) (hcs : '\r' ∉ cs) :
    lines (indented p cs) = (lines cs).map (shifted p) := by
  obtain ⟨ls, l, hsplit, hlines, hfree⟩ := exists_pieces hcs
  obtain ⟨hls, hl⟩ := List.forall_mem_append.1 hfree
  have hnewline : ∀ m, '\n' ∉ m → '\n' ∉ shifted p m := by
    intro m hm
    rw [shifted]
    split
    · exact hm
    · exact List.not_mem_append hp hm
  -- a carriage return of the margin is never the last character of a line
  have hreturn : ∀ m, '\r' ∉ m → (shifted p m).getLast? ≠ some '\r' := by
    intro m hm h
    rw [shifted] at h
    split at h
    · exact hm (List.mem_of_getLast? h)
    · rename_i hshown
      have hne : m ≠ [] := fun hnil => hshown (hnil ▸ rfl)
      rw [List.getLast?_append_of_ne_nil p hne] at h
      exact hm (List.mem_of_getLast? h)
  rw [indented, hsplit, List.map_append, List.map_singleton, joinWith_concat, lines_ended, hlines,
    List.map_append]
  · simp only [shifted_eq_nil_iff]
    split <;> rfl
  · exact List.forall_mem_map.2 fun m hm => ⟨hnewline m (hls m hm).1, hreturn m (hls m hm).2⟩
  · exact hnewline l (hl l (List.mem_singleton_self l)).1

theorem mem_dedentLines_lines (hcs : '\r' ∉ cs) (hm : m ∈ dedentLines (lines cs)) :
    '\n' ∉ m ∧ '\r' ∉ m := by
  obtain ⟨ls, l, -, hlines, hfree⟩ := exists_pieces hcs
  obtain ⟨⟨k, hk, hsuffix, -⟩, -⟩ := mem_dedentLines hm
  have hpiece : k ∈ ls ++ [l] := by
    rw [hlines] at hk
    split at hk
    · exact List.mem_append_left [l] (by simpa using hk)
    · exact hk
  exact ⟨fun h => (hfree k hpiece).1 (hsuffix.subset h),
    fun h => (hfree k hpiece).2 (hsuffix.subset h)⟩

theorem lines_dedent (hcs : '\r' ∉ cs) (hlast : ∀ l ∈ (lines cs).getLast?, allBlank l = false) :
    lines (dedent cs) = dedentLines (lines cs) := by
  refine lines_joinWith (fun m hm => mem_dedentLines_lines hcs hm) fun h => ?_
  rw [dedentLines, List.getLast?_map, Option.mem_def, Option.map_eq_some_iff] at h
  obtain ⟨l, hl, hnil⟩ := h
  have hshown := hlast l hl
  rw [if_neg (by simp [hshown])] at hnil
  have hle := margin_le (List.mem_of_getLast? hl) hshown
  rw [← allBlank_drop hle, hnil] at hshown
  cases hshown

/-- A text without its margin has the same lines: those that show nothing are empty, and the others
are without equally many blanks, so that one of them starts with what it shows. More of a margin in
front of the lines that show something makes no difference, and where the last line shows
something, no margin is left. -/
theorem dedent_aligns (hcs : '\r' ∉ cs) :
    (∃ n ms, dedent cs = joinWith ['\n'] ms ∧ (∀ m ∈ ms, '\n' ∉ m) ∧
      List.Forall₂ (Outdents n) (lines cs) ms ∧
      ((∃ l ∈ lines cs, allBlank l = false) → ∃ m ∈ ms, ∃ c ∈ m.head?, isBlank c = false) ∧
      ((∀ l ∈ (lines cs).getLast?, allBlank l = false) → lines (dedent cs) = ms)) ∧
    (∀ p, (∀ c ∈ p, isBlank c) → '\n' ∉ p → dedent (indented p cs) = dedent cs) ∧
    ((∀ l ∈ (lines cs).getLast?, allBlank l = false) → dedent (dedent cs) = dedent cs) := by
  refine ⟨⟨margin (lines cs), dedentLines (lines cs), rfl, ?_, forall₂_dedentLines _,
    exists_starts_shown, lines_dedent hcs⟩, fun p hp hn => ?_, fun hlast => ?_⟩
  · exact fun m hm => (mem_dedentLines_lines hcs hm).1
  · rw [dedent, lines_indented hn hcs, dedentLines_shifted hp, dedent]
  · rw [dedent, lines_dedent hcs hlast, dedentLines_dedentLines, dedent]

end

/-- A function behind a margin of its own, with a line of blanks. -/
def block : List Char := "\t\u2003if a:\n   \n\t\u2003  b\n\t\u2003\tc\n".toList

theorem dedent_aligns_block :
    '\r' ∉ block ∧ dedent block = "if a:\n\n  b\n\tc".toList ∧
    dedent (indented ['\r', '\u3000'] block) = "if a:\n\n  b\n\tc".toList ∧
    dedent (dedent block) = "if a:\n\n  b\n\tc".toList := by
  have hreturn : '\r' ∉ block := by decide
  have hblock : dedent block = "if a:\n\n  b\n\tc".toList := by decide
  have hlast : (lines block).getLast? = some "\t\u2003\tc".toList := by decide
  obtain ⟨-, hmargin, hagain⟩ := dedent_aligns hreturn
  have hblanks : ∀ c ∈ ['\r', '\u3000'], isBlank c := List.all_eq_true.1 (by decide)
  refine ⟨hreturn, hblock, (hmargin _ hblanks (by decide)).trans hblock,
    (hagain fun l hl => ?_).trans hblock⟩
  obtain rfl := Option.some.inj (hlast.symm.trans hl)
  decide

end Pipewright.Text
