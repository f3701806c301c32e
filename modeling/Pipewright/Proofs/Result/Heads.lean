import Pipewright.Proofs.Text.Labels
import Pipewright.Proofs.Text.Pieces
import Pipewright.Result.Text

/-! The first rows of a table. A limit shows them as the whole table does just if each of them has a
label of its own, or the labels there are say no more than the numbers of their rows. -/
namespace Pipewright.Table
open Text
variable {t : Table} {k : Nat}

/-- The text of the first rows of a table, with the labels they have in the whole of it. -/
def headText (t : Table) (k : Nat) : String :=
  t.header ++ joined "" ((t.data.take k).zipIdx.map fun r => t.rowText r.1 r.2)

/-- What stands behind the label of a row. -/
def rowTail (row : List Json) : List Char :=
  (row.flatMap fun c => '\t' :: (cellText c).toList) ++ ['\n']

def isMark (c : Char) : Bool := c = '\t' || c = '\n'

theorem toList_rowText (t : Table) (row : List Json) (i : Nat) :
    (t.rowText row i).toList = (t.label i).toList ++ rowTail row := by
  have hcells : (joined "" (row.map fun c => "\t" ++ cellText c)).toList =
      row.flatMap fun c => '\t' :: (cellText c).toList := by
    rw [toList_joined_empty, List.flatMap_map]
    refine List.flatMap_congr fun c _ => ?_
    rw [String.toList_append]
    rfl
  rw [rowText, String.toList_append, String.toList_append, hcells, List.append_assoc]
  rfl

theorem rowTail_head (row : List Json) : ∃ c ∈ (rowTail row).head?, isMark c = true := by
  cases row with
  | nil => exact ⟨'\n', rfl, rfl⟩
  | cons c row => exact ⟨'\t', rfl, rfl⟩

theorem isMark_toString (i : Nat) : ∀ c ∈ (toString i).toList, isMark c = false := by
  intro c hc
  have hdigits : (toString i).toList = Nat.toDigits 10 i := String.toList_ofList
  exact of_isDigit (p := fun c => isMark c = false) (isDigit_of_mem_toDigits (hdigits ▸ hc))
    (by decide)

theorem toList_headText (t : Table) (k : Nat) : (t.headText k).toList = t.header.toList ++
    (t.data.take k).zipIdx.flatMap fun r => (t.label r.2).toList ++ rowTail r.1 := by
  rw [headText, String.toList_append, toList_joined_empty, List.flatMap_map]
  simp only [toList_rowText]

theorem text_eq_headText (t : Table) : t.text = t.headText t.data.length := by
  rw [headText, List.take_length]
  rfl

theorem headText_isPrefix (t : Table) (k : Nat) : (t.headText k).toList <+: t.text.toList := by
  have hrows : t.data.zipIdx = (t.data.take k).zipIdx ++
      (t.data.drop k).zipIdx (t.data.take k).length := by
    conv_lhs => rw [← List.take_append_drop k t.data, List.zipIdx_append, Nat.zero_add]
  rw [text_eq_headText, toList_headText, toList_headText, List.take_length, hrows,
    List.flatMap_append, List.prefix_append_right_inj]
  exact List.prefix_append _ _

/-! Labels of the rows that a limit keeps -/

theorem label_peek (t : Table) (n : Int) {i : Nat} (hi : i < kept n t.data.length) :
    (t.peek n).label i =
      if kept n t.data.length ≤ t.index.length then t.label i else toString i := by
  rw [label, peek]
  dsimp only
  split
  · rw [List.getElem?_take_of_lt hi, label]
  · rfl

theorem label_of_le {i : Nat} (hi : t.index.length ≤ i) : t.label i = toString i := by
  rw [label, List.getElem?_eq_none hi]
  rfl

theorem toList_text_peek (t : Table) (n : Int) : (t.peek n).text.toList = t.header.toList ++
    (t.data.take (kept n t.data.length)).zipIdx.flatMap fun r =>
      (if kept n t.data.length ≤ t.index.length then t.label r.2 else toString r.2).toList ++
        rowTail r.1 := by
  have hdata : (t.peek n).data.take (t.peek n).data.length =
      t.data.take (kept n t.data.length) := List.take_length
  rw [text_eq_headText, toList_headText, hdata]
  refine congrArg (t.header.toList ++ ·) (List.flatMap_congr fun r hr => ?_)
  have hlt : r.2 < kept n t.data.length :=
    Nat.lt_of_lt_of_le (List.mem_zipIdx' hr).1 (List.length_take_le _ _)
  rw [label_peek t n hlt]

/-- A limit on rows shows the first of them as the whole table does just if there are labels for all
of them, or those there are say what the number of the row says. -/
theorem text_peek_iff (t : Table) (n : Int) {k : Nat}
    (hk : (k : Int) = if 0 ≤ n then min n t.data.length else max 0 (t.data.length - n.natAbs)) :
    (t.headText k).toList <+: t.text.toList ∧
      ((t.peek n).text = t.headText k ↔
        k ≤ t.index.length ∨ ∀ i < t.index.length, t.label i = toString i) := by
  refine ⟨headText_isPrefix t k, ?_⟩
  obtain rfl : k = kept n t.data.length := by
    by_cases hn : 0 ≤ n
    · rw [if_pos hn] at hk
      rw [kept, if_pos hn]
      omega
    · rw [if_neg hn] at hk
      rw [kept, if_neg hn]
      omega
  rw [← String.toList_inj, toList_text_peek, toList_headText, List.append_cancel_left_eq]
  by_cases hlabels : kept n t.data.length ≤ t.index.length
  · simp only [if_pos hlabels]
    exact iff_of_true trivial (.inl hlabels)
  · simp only [if_neg hlabels]
    constructor
    · intro h
      have htold := labels_eq (fun r _ => isMark_toString r.2) (fun r _ => rowTail_head r.1) h
      refine .inr fun i hi => String.toList_injective ?_
      have hlt : i < (t.data.take (kept n t.data.length)).length := by
        rw [List.length_take]
        have hle : kept n t.data.length ≤ t.data.length := by
          rw [kept]
          split <;> omega
        omega
      exact (htold ((t.data.take (kept n t.data.length))[i], i)
        (List.mem_zipIdx_iff_getElem?.2 (List.getElem?_eq_getElem hlt))).symm
    · intro h
      have hsame : ∀ i, t.label i = toString i := fun i => by
        by_cases hi : i < t.index.length
        · exact (h.resolve_left hlabels) i hi
        · exact label_of_le (Nat.le_of_not_lt hi)
      simp only [hsame]

/-- Three rows, the first of which has a label. -/
def scarceLabels : Table := ⟨[.str "a"], [.str "x"], [[.int 1], [.int 2], [.int 3]]⟩

theorem text_peek_of_scarceLabels :
    scarceLabels.headText 2 = "\tx\na\t1\n1\t2\n" ∧
      (scarceLabels.peek 2).text = "\tx\n0\t1\n1\t2\n" ∧
      (scarceLabels.peek 2).text ≠ scarceLabels.headText 2 ∧
      (scarceLabels.peek (-2)).text = scarceLabels.headText 1 := by
  refine ⟨rfl, rfl, fun h => ?_,
    (text_peek_iff scarceLabels (-2) (k := 1) rfl).2.2 (.inl (by decide))⟩
  obtain hfew | htold := (text_peek_iff scarceLabels 2 (k := 2) rfl).2.1 h
  · exact absurd hfew (by decide)
  · exact absurd (htold 0 (by decide)) (by decide)

end Pipewright.Table
