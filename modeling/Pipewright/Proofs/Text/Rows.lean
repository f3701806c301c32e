import Pipewright.Proofs.Text.Lines

/-! The rows of a text: its lines by their numbers. -/
namespace Pipewright.Text

/-- The number of the row that the text behind some text stands on. -/
def rowBehind (cs : List Char) : Nat := cs.count '\n'

/-- Whether nothing stands on the row behind some text yet. -/
def EndsRow (cs : List Char) : Prop := ∀ c ∈ cs.getLast?, c = '\n'

section
variable {c : Char} {a b cs r l : List Char}

theorem EndsRow.tail (h : EndsRow (c :: cs)) : EndsRow cs := by
  cases cs with
  | nil => simp [EndsRow]
  | cons d cs => rwa [EndsRow, List.getLast?_cons_cons] at h

theorem endsRow_append_newline (cs : List Char) : EndsRow (cs ++ ['\n']) := by
  simp [EndsRow]

theorem EndsRow.append_left (h : EndsRow b) (hne : b ≠ []) (a : List Char) : EndsRow (a ++ b) := by
  rwa [EndsRow, List.getLast?_append_of_ne_nil a hne]

theorem rowBehind_le (h : a <+: b) : rowBehind a ≤ rowBehind b := h.sublist.count_le '\n'

/-- The lines of a text that goes on behind the end of one of them. -/
theorem lines_append (h : EndsRow cs) (r : List Char) : lines (cs ++ r) = lines cs ++ lines r := by
  induction cs using lines.induct with
  | case1 => rfl
  | case2 s ih => exact congrArg ([] :: ·) (ih h.tail)
  | case3 s ih => exact congrArg ([] :: ·) (ih h.tail.tail)
  | case4 c s hc hcr hlines ih =>
    have hs : s = [] := by_contra fun hne => lines_ne_nil hne hlines
    exact absurd (h c (by rw [hs]; rfl)) hc
  | case5 c s hc hcr m ms hlines ih =>
    have hs : s ≠ [] := by
      rintro rfl
      cases hlines
    have hnext : c = '\r' → s.head? ≠ some '\n' := by
      intro he hhead
      obtain ⟨s', rfl⟩ := List.head?_eq_some_iff.1 hhead
      exact hcr s' he rfl
    rw [List.cons_append, lines_cons hc (by rwa [List.head?_append_of_ne_nil _ hs]), ih h.tail,
      lines_cons hc hnext, hlines]
    rfl

theorem length_lines (h : EndsRow cs) : (lines cs).length = rowBehind cs := by
  induction cs using lines.induct with
  | case1 => rfl
  | case2 s ih =>
    rw [lines, List.length_cons, ih h.tail, rowBehind, rowBehind, List.count_cons_self]
  | case3 s ih =>
    rw [lines, List.length_cons, ih h.tail.tail, rowBehind, rowBehind,
      List.count_cons_of_ne (by decide), List.count_cons_self]
  | case4 c s hc hcr hlines ih =>
    have hs : s = [] := by_contra fun hne => lines_ne_nil hne hlines
    exact absurd (h c (by rw [hs]; rfl)) hc
  | case5 c s hc hcr m ms hlines ih =>
    have ih := ih h.tail
    rw [hlines] at ih
    rw [lines, hlines, List.length_cons, rowBehind, List.count_cons_of_ne hc]
    · exact ih
    · exact hc
    · exact hcr

/-- The row behind the end of another one. -/
theorem getElem?_lines (h : EndsRow cs) (r : List Char) :
    (lines (cs ++ r))[rowBehind cs]? = (lines r).head? := by
  rw [lines_append h, List.getElem?_append_right (length_lines h).le, length_lines h,
    Nat.sub_self, List.head?_eq_getElem?]

/-- The first row is what a text starts with. -/
theorem head?_lines_isPrefix (h : l ∈ (lines cs).head?) : l <+: cs := by
  induction cs using lines.induct generalizing l with
  | case1 => cases h
  | case2 s ih =>
    cases h
    exact List.nil_prefix
  | case3 s ih =>
    cases h
    exact List.nil_prefix
  | case4 c s hc hcr hlines ih =>
    rw [lines, hlines] at h
    · cases h
      exact List.prefix_append [c] s
    · exact hc
    · exact hcr
  | case5 c s hc hcr m ms hlines ih =>
    rw [lines, hlines] at h
    · cases h
      exact (List.prefix_cons_inj c).2 (ih (by rw [hlines]; rfl))
    · exact hc
    · exact hcr

/-- A text without line ends that a text starts with is on the first row of it. -/
theorem exists_line_of_isPrefix (hne : a ≠ []) (hn : '\n' ∉ a) (hr : a.getLast? ≠ some '\r')
    (h : a <+: cs) : ∃ l ∈ (lines cs).head?, a <+: l := by
  induction a generalizing cs with
  | nil => exact absurd rfl hne
  | cons c a ih =>
    obtain ⟨b, rfl⟩ := h
    rw [List.mem_cons, not_or] at hn
    have hnext : c = '\r' → (a ++ b).head? ≠ some '\n' := by
      rintro rfl hhead
      cases a with
      | nil => exact hr rfl
      | cons d a => exact hn.2 (Option.some.inj hhead ▸ List.mem_cons_self)
    rw [List.cons_append, lines_cons (Ne.symm hn.1) hnext]
    cases a with
    | nil =>
      split
      · exact ⟨_, rfl, List.prefix_rfl⟩
      · exact ⟨_, rfl, List.prefix_append [c] _⟩
    | cons d a =>
      rw [List.getLast?_cons_cons] at hr
      obtain ⟨l, hl, hal⟩ := ih (List.cons_ne_nil d a) hn.2 hr (List.prefix_append _ b)
      obtain ⟨ls, hls⟩ := List.head?_eq_some_iff.1 hl
      rw [hls]
      exact ⟨c :: l, rfl, (List.prefix_cons_inj c).2 hal⟩

end
end Pipewright.Text
