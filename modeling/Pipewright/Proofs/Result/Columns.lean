import Pipewright.Proofs.Entries
import Pipewright.Proofs.Text.Lines
import Pipewright.Result.Text

/-! Mappings as rows under the columns of their keys: lines and tabs part the text into the columns
and the cells it was made of. -/
namespace Pipewright.Result
open Text

/-- The text of a value in its column: nothing for what is missing. -/
def valueText : Result → String
  | .scalar .null => ""
  | v => v.text

/-- A text that ends neither its cell nor its line. -/
def IsCell (s : String) : Prop := '\t' ∉ s.toList ∧ '\n' ∉ s.toList

instance (s : String) : Decidable (IsCell s) :=
  inferInstanceAs (Decidable ('\t' ∉ s.toList ∧ '\n' ∉ s.toList))

/-- Rows of which one has a key, in none of which a key is repeated, and whose keys and values can
stand in cells. -/
structure Tabular (rows : List (List (String × Result))) : Prop where
  keyed : ∃ row ∈ rows, row ≠ []
  distinct : ∀ row ∈ rows, (row.map Prod.fst).Nodup
  cells : ∀ row ∈ rows, ∀ e ∈ row, IsCell e.1 ∧ IsCell (valueText e.2)

/-- The keys of all rows, each where it is first seen. -/
def columns (rows : List (List (String × Result))) : List String :=
  (rows.flatMap fun row => row.map Prod.fst).eraseDups

/-- A text is made of lines that end, each with its cells between tabs. -/
def Holds (text : String) (grid : List (List String)) : Prop :=
  ∃ ls, pieces '\n' text = ls ++ [""] ∧ ls.map (pieces '\t') = grid

/-- One cell for each column: the value of the row, or nothing if the row has none there. -/
def RowCells (keys : List String) (row : List (String × Result)) (fields : List String) : Prop :=
  List.Forall₂ (fun k field =>
    (∀ v, (k, v) ∈ row → field = valueText v) ∧ (k ∉ row.map Prod.fst → field = "")) keys fields

/-! Lines and their cells -/

section
variable {cells : List String} {grid : List (List String)}

theorem pieces_joined (hne : cells ≠ []) (h : ∀ c ∈ cells, IsCell c) :
    pieces '\t' (joined "\t" cells) = cells := by
  have hfree : ∀ l ∈ cells.map String.toList, '\t' ∉ l := by
    intro l hl
    obtain ⟨c, hc, rfl⟩ := List.mem_map.1 hl
    exact (h c hc).1
  rw [pieces, toList_joined, show "\t".toList = ['\t'] from rfl,
    splitAt_joinWith (mt List.map_eq_nil_iff.1 hne) hfree, List.map_map]
  exact List.map_id'' (fun s => String.ofList_toList) cells

/-- Lines of cells hold them. -/
theorem holds_lines (h : ∀ cells ∈ grid, cells ≠ [] ∧ ∀ c ∈ cells, IsCell c) :
    Holds (joined "" (grid.map line)) grid := by
  refine ⟨grid.map (joined "\t"), ?_, ?_⟩
  · have htext : (joined "" (grid.map line)).toList =
        ended (grid.map fun cells => (joined "\t" cells).toList) := by
      rw [toList_joined_empty, ended, List.flatMap_map, List.flatMap_map]
      refine List.flatMap_congr fun cells _ => ?_
      rw [line, String.toList_append]
      rfl
    have hfree : ∀ l ∈ grid.map (fun cells => (joined "\t" cells).toList), '\n' ∉ l := by
      intro l hl
      obtain ⟨cells, hcells, rfl⟩ := List.mem_map.1 hl
      rw [toList_joined]
      refine not_mem_joinWith (by decide) fun l hl => ?_
      obtain ⟨c, hc, rfl⟩ := List.mem_map.1 hl
      exact ((h cells hcells).2 c hc).2
    rw [pieces, htext, splitAt_ended hfree, List.map_append, List.map_map]
    refine congrArg (· ++ _) (List.map_congr_left fun cells _ => ?_)
    exact String.ofList_toList
  · rw [List.map_map]
    conv_rhs => rw [← List.map_id grid]
    refine List.map_congr_left fun cells hcells => ?_
    exact pieces_joined (h cells hcells).1 (h cells hcells).2

end

/-! Columns and the cells under them -/

section
variable {rows : List (List (String × Result))} {row : List (String × Result)}

theorem columnKeys_eq (rows : List (List (String × Result))) : columnKeys rows = columns rows := by
  rw [columnKeys, columns]
  induction (rows.flatMap fun row => row.map Prod.fst) using List.reverseRecOn with
  | nil => rfl
  | append_singleton ks k ih =>
    rw [List.foldl_append, List.foldl_cons, List.foldl_nil, ih, List.eraseDups_append]
    by_cases hk : k ∈ ks
    · simp [hk, List.removeAll]
    · simp [hk, List.removeAll, List.eraseDups_cons]

theorem cellAt_eq (key : String) (row : List (String × Result)) :
    cellAt key row = ((Entries.get? key row).map valueText).getD "" := by
  rw [cellAt]
  cases Entries.get? key row with
  | none => rfl
  | some v =>
    cases v with
    | scalar s => cases s <;> rfl
    | _ => rfl

theorem cellAt_of_mem (h : (row.map Prod.fst).Nodup) {e : String × Result} (he : e ∈ row) :
    cellAt e.1 row = e.2.valueText := by
  rw [cellAt_eq, Entries.get?_of_mem h he]
  rfl

theorem rowCells_cellAt (h : (row.map Prod.fst).Nodup) (keys : List String) :
    RowCells keys row (keys.map fun k => cellAt k row) := by
  rw [RowCells, List.forall₂_map_right_iff, List.forall₂_same]
  refine fun k _ => ⟨fun v hv => cellAt_of_mem h hv, fun hk => ?_⟩
  rw [cellAt_eq, Entries.get?_eq_none_iff.2 hk]
  rfl

theorem isCell_empty : IsCell "" := ⟨List.not_mem_nil, List.not_mem_nil⟩

theorem Tabular.columns_ne_nil (h : Tabular rows) : columns rows ≠ [] := by
  obtain ⟨row, hrow, hne⟩ := h.keyed
  obtain ⟨e, row', rfl⟩ := List.exists_cons_of_ne_nil hne
  have hkey : e.1 ∈ columns rows := List.mem_eraseDups.2
    (List.mem_flatMap.2 ⟨_, hrow, List.mem_map_of_mem List.mem_cons_self⟩)
  exact List.ne_nil_of_mem hkey

theorem Tabular.isCell_column (h : Tabular rows) : ∀ k ∈ columns rows, IsCell k := by
  intro k hk
  obtain ⟨row, hrow, hk⟩ := List.mem_flatMap.1 (List.mem_eraseDups.1 hk)
  obtain ⟨e, he, rfl⟩ := List.mem_map.1 hk
  exact (h.cells row hrow e he).1

theorem Tabular.isCell_cellAt (h : Tabular rows) (hrow : row ∈ rows) (k : String) :
    IsCell (cellAt k row) := by
  rw [cellAt_eq]
  cases hget : Entries.get? k row with
  | none => exact isCell_empty
  | some v => exact (h.cells row hrow (k, v) (Entries.mem_of_get? hget)).2

/-- The cells of rows under their columns. -/
def cellRows (rows : List (List (String × Result))) : List (List String) :=
  rows.map fun row => (columns rows).map fun k => cellAt k row

theorem Tabular.rowCells (h : Tabular rows) :
    List.Forall₂ (RowCells (columns rows)) rows (cellRows rows) := by
  rw [cellRows, List.forall₂_map_right_iff, List.forall₂_same]
  exact fun row hrow => rowCells_cellAt (h.distinct row hrow) _

theorem Tabular.isCell_cellRows (h : Tabular rows) :
    ∀ cells ∈ cellRows rows, cells ≠ [] ∧ ∀ c ∈ cells, IsCell c := by
  intro cells hcells
  obtain ⟨row, hrow, rfl⟩ := List.mem_map.1 hcells
  refine ⟨mt List.map_eq_nil_iff.1 h.columns_ne_nil, fun c hc => ?_⟩
  obtain ⟨k, -, rfl⟩ := List.mem_map.1 hc
  exact h.isCell_cellAt hrow k

end

/-! The layouts of sequences and mappings -/

def isMapping : Result → Bool
  | .mapping _ => true
  | _ => false

def isSequence : Result → Bool
  | .sequence _ => true
  | _ => false

/-- The row of a part under keys. -/
def rowLine (keys : List String) (v : Result) : String :=
  line (keys.map fun k => cellAt k v.entries)

theorem line_singleton (cell : String) : line [cell] = cell ++ "\n" := by
  rw [line, joined, String.intercalate_singleton]

theorem sequenceText_eq (items : List Result) : sequenceText items =
    if items.head?.any isMapping then
      line (columnKeys (items.map entries)) ++
        joined "" (items.map (rowLine (columnKeys (items.map entries))))
    else if items.head?.any isSequence then joined "" (items.map fun v => line v.cells)
    else joined "" (items.map fun v => line [v.text]) := by
  simp only [line_singleton]
  cases items with
  | nil => rfl
  | cons v items =>
    cases v with
    | mapping es =>
      rw [sequenceText, List.map_map]
      rfl
    | _ => rfl

theorem mappingText_eq (es : List (String × Result)) : mappingText es =
    if es.getLast?.any (fun e => e.2.isMapping) then
      "\t" ++ line (columnKeys (es.map fun e => e.2.entries)) ++ joined "" (es.map fun e =>
        e.1 ++ "\t" ++ rowLine (columnKeys (es.map fun e => e.2.entries)) e.2)
    else joined "" (es.map fun e => e.1 ++ "\t" ++ line e.2.cells) := by
  rw [mappingText]
  cases hlast : es.getLast? with
  | none =>
    rw [List.getLast?_eq_none_iff.1 hlast]
    rfl
  | some e =>
    obtain ⟨name, v⟩ := e
    cases v <;> rfl

/-! Sequences of mappings and mappings of mappings -/

section
variable {rows : List (List (String × Result))} {es : List (String × List (String × Result))}

theorem line_cons (c : String) {cells : List String} (h : cells ≠ []) :
    line (c :: cells) = c ++ "\t" ++ line cells := by
  obtain ⟨d, cells, rfl⟩ := List.exists_cons_of_ne_nil h
  rw [line, line, joined, String.intercalate_cons_cons, String.append_assoc]
  rfl

theorem formless?_mappings (rows : List (List (String × Result))) :
    formless? (rows.map .mapping) = none := by
  rw [formless?, List.find?_eq_none]
  intro v hv
  obtain ⟨row, -, rfl⟩ := List.mem_map.1 hv
  simp

theorem entries_mappings (rows : List (List (String × Result))) :
    (rows.map Result.mapping).map entries = rows := by
  rw [List.map_map]
  exact List.map_id'' (fun _ => rfl) rows

theorem Tabular.sequenceText (h : Tabular rows) :
    sequenceText (rows.map .mapping) = joined "" ((columns rows :: cellRows rows).map line) := by
  have hfirst : (rows.map Result.mapping).head?.any isMapping = true := by
    obtain ⟨row, hrow, -⟩ := h.keyed
    obtain ⟨first, rest, rfl⟩ := List.exists_cons_of_ne_nil (List.ne_nil_of_mem hrow)
    rfl
  have hlines : (cellRows rows).map line =
      (rows.map Result.mapping).map (rowLine (columns rows)) := by
    rw [cellRows, List.map_map, List.map_map]
    rfl
  rw [sequenceText_eq, if_pos hfirst, entries_mappings, columnKeys_eq, List.map_cons,
    joined_empty_cons, hlines]

theorem Tabular.mappingText (h : Tabular (es.map Prod.snd)) :
    mappingText (es.map fun e => (e.1, .mapping e.2)) =
      joined "" ((("" :: columns (es.map Prod.snd)) ::
        List.zipWith List.cons (es.map Prod.fst) (cellRows (es.map Prod.snd))).map line) := by
  have hlast :
      (es.map fun e => (e.1, Result.mapping e.2)).getLast?.any (fun e => e.2.isMapping) = true := by
    obtain ⟨row, hrow, -⟩ := h.keyed
    have hne : es ≠ [] := mt List.map_eq_nil_iff.2 (List.ne_nil_of_mem hrow)
    rw [List.getLast?_map, List.getLast?_eq_some_getLast hne]
    rfl
  have hcolumns := h.columns_ne_nil
  have hrows : (es.map fun e => (e.1, Result.mapping e.2)).map (fun e => e.2.entries) =
      es.map Prod.snd := by
    rw [List.map_map]
    rfl
  have hlines : (List.zipWith List.cons (es.map Prod.fst) (cellRows (es.map Prod.snd))).map line =
      (es.map fun e => (e.1, Result.mapping e.2)).map fun e =>
        e.1 ++ "\t" ++ rowLine (columns (es.map Prod.snd)) e.2 := by
    rw [cellRows, List.zipWith_map, List.zipWith_map_right, List.zipWith_self, List.map_map,
      List.map_map]
    exact List.map_congr_left fun e _ => line_cons e.1 (mt List.map_eq_nil_iff.1 hcolumns)
  rw [mappingText_eq, if_pos hlast, hrows, columnKeys_eq, List.map_cons, joined_empty_cons,
    line_cons "" hcolumns, hlines, String.empty_append]

theorem Tabular.render_sequence (h : Tabular rows) : (sequence (rows.map .mapping)).render =
    .ok (joined "" ((columns rows :: cellRows rows).map line)) := by
  rw [render, formless?_mappings, h.sequenceText]

theorem Tabular.render_mapping (h : Tabular (es.map Prod.snd)) :
    (mapping (es.map fun e => (e.1, .mapping e.2))).render =
      .ok (joined "" ((("" :: columns (es.map Prod.snd)) ::
        List.zipWith List.cons (es.map Prod.fst) (cellRows (es.map Prod.snd))).map line)) := by
  have hvalues : (es.map fun e => (e.1, Result.mapping e.2)).map Prod.snd =
      (es.map Prod.snd).map .mapping := by
    rw [List.map_map, List.map_map]
    rfl
  rw [render, hvalues, formless?_mappings, h.mappingText]

/-- Rows of mappings have a text that holds the columns and, row by row, the cells under them; the
rows of a mapping have their names in front. -/
theorem render_tabular :
    (∀ rows : List (List (String × Result)), Tabular rows →
      ∃ text fields, (sequence (rows.map .mapping)).render = .ok text ∧
        Holds text (columns rows :: fields) ∧
        List.Forall₂ (RowCells (columns rows)) rows fields) ∧
    ∀ es : List (String × List (String × Result)), Tabular (es.map Prod.snd) →
      (∀ e ∈ es, IsCell e.1) →
      ∃ text fields, (mapping (es.map fun e => (e.1, .mapping e.2))).render = .ok text ∧
        Holds text (("" :: columns (es.map Prod.snd)) ::
          List.zipWith List.cons (es.map Prod.fst) fields) ∧
        List.Forall₂ (RowCells (columns (es.map Prod.snd))) (es.map Prod.snd) fields := by
  constructor
  · intro rows h
    refine ⟨_, cellRows rows, h.render_sequence, holds_lines ?_, h.rowCells⟩
    exact List.forall_mem_cons.2 ⟨⟨h.columns_ne_nil, h.isCell_column⟩, h.isCell_cellRows⟩
  · intro es h hnames
    refine ⟨_, cellRows (es.map Prod.snd), h.render_mapping, holds_lines ?_, h.rowCells⟩
    refine List.forall_mem_cons.2 ⟨⟨List.cons_ne_nil _ _,
      List.forall_mem_cons.2 ⟨isCell_empty, h.isCell_column⟩⟩, fun cells hcells => ?_⟩
    rw [cellRows, List.zipWith_map, List.zipWith_map_right, List.zipWith_self] at hcells
    obtain ⟨e, he, rfl⟩ := List.mem_map.1 hcells
    exact ⟨List.cons_ne_nil _ _, List.forall_mem_cons.2 ⟨hnames e he,
      (h.isCell_cellRows _ (List.mem_map_of_mem (List.mem_map_of_mem he))).2⟩⟩

/-- Two rows that share one of three keys, without a value for it in the second. -/
def assortedRows : List (List (String × Result)) :=
  [[("b", .scalar (.int 1)), ("a", .scalar (.int 2))],
    [("a", .scalar .null), ("c", .scalar (.str "x"))]]

theorem render_tabular_of_assortedRows :
    (∃ text fields, (sequence (assortedRows.map .mapping)).render = .ok text ∧
      Holds text (["b", "a", "c"] :: fields) ∧
      List.Forall₂ (RowCells ["b", "a", "c"]) assortedRows fields) ∧
    (sequence (assortedRows.map .mapping)).render = .ok "b\ta\tc\n1\t2\t\n\t\tx\n" ∧
    ∃ text fields, (mapping ((["r", "s"].zip assortedRows).map
        fun e => (e.1, .mapping e.2))).render = .ok text ∧
      Holds text (["", "b", "a", "c"] :: List.zipWith List.cons ["r", "s"] fields) ∧
      List.Forall₂ (RowCells ["b", "a", "c"]) assortedRows fields := by
  have htabular : Tabular assortedRows :=
    { keyed := ⟨_, List.mem_cons_self, List.cons_ne_nil _ _⟩
      distinct := by decide
      cells := by decide }
  exact ⟨render_tabular.1 assortedRows htabular, rfl,
    render_tabular.2 (["r", "s"].zip assortedRows) htabular (by decide)⟩

end

end Pipewright.Result
