import Pipewright.Proofs.Result.Columns
import Pipewright.Proofs.Result.Decoded

/-! What the text of a result shows. The first item of a sequence, or the last value of a mapping,
decides on the layout: where it is a mapping, parts without keys are passed over, and the text says
nothing of what is in them. All else is shown, down to tables and figures, of which the text has the
kind alone unless they are the result. -/
namespace Pipewright
open Text

/-- A text stands within another one. -/
def OccursIn (s text : String) : Prop := s.toList <:+: text.toList

instance (s text : String) : Decidable (OccursIn s text) :=
  inferInstanceAs (Decidable (s.toList <:+: text.toList))

namespace OccursIn
variable {s t u : String}

theorem refl (s : String) : OccursIn s s := List.infix_rfl

theorem trans (hst : OccursIn s t) (htu : OccursIn t u) : OccursIn s u :=
  List.IsInfix.trans hst htu

theorem append_right (h : OccursIn s t) (u : String) : OccursIn s (t ++ u) := by
  rw [OccursIn, String.toList_append]
  exact List.IsInfix.trans h (List.prefix_append _ _).isInfix

theorem append_left (h : OccursIn s u) (t : String) : OccursIn s (t ++ u) := by
  rw [OccursIn, String.toList_append]
  exact List.IsInfix.trans h (List.suffix_append _ _).isInfix

end OccursIn

theorem occursIn_joined (sep : String) {s : String} {ss : List String} (h : s ∈ ss) :
    OccursIn s (joined sep ss) := by
  rw [OccursIn, toList_joined]
  exact infix_joinWith sep.toList (List.mem_map_of_mem h)

theorem occursIn_joined_map {α : Type} {s : String} {f : α → String} {a : α} {as : List α}
    (sep : String) (h : a ∈ as) (hs : OccursIn s (f a)) : OccursIn s (joined sep (as.map f)) :=
  hs.trans (occursIn_joined sep (List.mem_map_of_mem h))

namespace Table

theorem occursIn_cells {cs : List Json} {c : Json} (h : c ∈ cs) :
    OccursIn (cellText c) (joined "" (cs.map fun c => "\t" ++ cellText c)) :=
  occursIn_joined_map "" h ((OccursIn.refl (cellText c)).append_left "\t")

theorem occursIn_text_of_header {s : String} {t : Table} (h : OccursIn s t.header) :
    OccursIn s t.text := by
  rw [text]
  exact h.append_right _

theorem occursIn_text_of_row {s : String} {t : Table} {row : List Json} {i : Nat}
    (hrow : t.data[i]? = some row) (h : OccursIn s (t.rowText row i)) : OccursIn s t.text := by
  have hmem : (row, i) ∈ t.data.zipIdx := List.mem_zipIdx_iff_getElem?.2 hrow
  rw [text]
  refine OccursIn.append_left ?_ _
  exact occursIn_joined_map "" hmem h

/-- The text of a table has its columns, the labels of its rows and its cells. -/
theorem occursIn_text (t : Table) : (∀ c ∈ t.columns, OccursIn (cellText c) t.text) ∧
    ∀ i row, t.data[i]? = some row →
      OccursIn (t.label i) t.text ∧ ∀ c ∈ row, OccursIn (cellText c) t.text := by
  refine ⟨fun c hc => occursIn_text_of_header ?_, fun i row hrow =>
    ⟨occursIn_text_of_row hrow ?_, fun c hc => occursIn_text_of_row hrow ?_⟩⟩
  · rw [header]
    exact (occursIn_cells hc).append_right "\n"
  · rw [rowText]
    exact ((OccursIn.refl (t.label i)).append_right _).append_right "\n"
  · rw [rowText]
    exact ((occursIn_cells hc).append_left _).append_right "\n"

end Table

namespace Result

/-- Tables and figures have no text form within other results. -/
def hasForm : Result → Bool
  | .table _ | .figure _ => false
  | _ => true

/-- Both are tables, or both are figures. -/
inductive SameKind : Result → Result → Prop where
  | table (t u : Table) : SameKind (.table t) (.table u)
  | figure (f g : Figure) : SameKind (.figure f) (.figure g)

/-- What a part has to tell on its own: a scalar its text, if it is not missing; a mapping its
keys. -/
inductive Tells : Result → String → Prop where
  | scalar {x : Scalar} (h : x ≠ .null) : Tells (.scalar x) x.text
  | key {es : List (String × Result)} {e : String × Result} (h : e ∈ es) : Tells (.mapping es) e.1

/-- A place within a result: what stands around it. -/
inductive Context where
  | here
  | item (before : List Result) (c : Context) (after : List Result)
  | value (before : List (String × Result)) (key : String) (c : Context)
      (after : List (String × Result))

namespace Context

/-- The result with a part at the place. -/
def fill : Context → Result → Result
  | here, p => p
  | item before c after, p => .sequence (before ++ c.fill p :: after)
  | value before key c after, p => .mapping (before ++ (key, c.fill p) :: after)

def depth : Context → Nat
  | here => 0
  | item _ c _ => c.depth + 1
  | value _ _ c _ => c.depth + 1

/-- The place is in an item or value without keys, and the one that decides on the layout, the first
item or the last value, has keys. -/
def Passed : Context → Result → Prop
  | here, _ => False
  | item before c _, p => before.head?.any isMapping = true ∧ (c.fill p).isMapping = false
  | value _ _ c after, p =>
    after.getLast?.any (fun e => e.2.isMapping) = true ∧ (c.fill p).isMapping = false

end Context

/-! The text within other results -/

section
variable {p q : Result} {w : String}

theorem innerItems_eq (items : List Result) : innerItems items = items.map innerText := by
  induction items with
  | nil => rfl
  | cons v items ih => rw [innerItems, ih, List.map_cons]

theorem innerEntries_eq (es : List (String × Result)) :
    innerEntries es = es.map fun e => "'" ++ e.1 ++ "': " ++ e.2.innerText := by
  induction es with
  | nil => rfl
  | cons e es ih => rw [innerEntries, ih, List.map_cons]

theorem occursIn_innerText_fill (p : Result) (c : Context) :
    OccursIn p.innerText (c.fill p).innerText := by
  induction c with
  | here => exact .refl _
  | item before c after ih =>
    rw [Context.fill, innerText, innerItems_eq]
    refine (OccursIn.append_left ?_ "[").append_right "]"
    exact occursIn_joined_map ", " List.mem_append_cons_self ih
  | value before key c after ih =>
    rw [Context.fill, innerText, innerEntries_eq]
    refine (OccursIn.append_left ?_ "\x7b").append_right _
    exact occursIn_joined_map ", " List.mem_append_cons_self (ih.append_left _)

theorem Tells.innerText (h : Tells p w) : OccursIn w p.innerText := by
  cases h with
  | @scalar x hx =>
    cases x with
    | str s => exact ((OccursIn.refl s).append_left "'").append_right "'"
    | _ => exact .refl _
  | @key es e he =>
    rw [Result.innerText, innerEntries_eq]
    refine (OccursIn.append_left ?_ "\x7b").append_right _
    refine occursIn_joined_map ", " he ?_
    exact (((OccursIn.refl e.1).append_left "'").append_right _).append_right _

theorem Tells.text (h : Tells p w) (c : Context) : OccursIn w (c.fill p).text := by
  have hinner := h.innerText.trans (occursIn_innerText_fill p c)
  cases c with
  | here =>
    cases h with
    | scalar _ => exact .refl _
    | key _ => exact hinner
  | item _ _ _ => exact hinner
  | value _ _ _ _ => exact hinner

theorem Tells.valueText (h : Tells p w) (c : Context) : OccursIn w (c.fill p).valueText := by
  have htext := h.text c
  cases c with
  | here =>
    cases h with
    | @scalar x hx =>
      cases x with
      | null => exact absurd rfl hx
      | _ => exact htext
    | key _ => exact htext
  | item _ _ _ => exact htext
  | value _ _ _ _ => exact htext

theorem Tells.cells (h : Tells p w) (c : Context) : ∃ cell ∈ (c.fill p).cells, OccursIn w cell := by
  cases c with
  | here =>
    have htext := h.text .here
    cases h with
    | scalar _ => exact ⟨_, List.mem_singleton_self _, htext⟩
    | key _ => exact ⟨_, List.mem_singleton_self _, htext⟩
  | item before c after =>
    have hmem : (c.fill p).text ∈ (before ++ c.fill p :: after).map Result.text :=
      List.mem_map_of_mem List.mem_append_cons_self
    exact ⟨_, hmem, h.text c⟩
  | value before key c after =>
    exact ⟨_, List.mem_singleton_self _, h.text (.value before key c after)⟩

end

/-! The layouts -/

section
variable {p : Result} {w : String} {c : Context}

theorem occursIn_line {cell : String} {cells : List String} (h : cell ∈ cells) :
    OccursIn cell (line cells) := by
  rw [line]
  exact (occursIn_joined "\t" h).append_right "\n"

theorem mem_columnKeys {rows : List (List (String × Result))} {row : List (String × Result)}
    {e : String × Result} (hrow : row ∈ rows) (he : e ∈ row) : e.1 ∈ columnKeys rows := by
  rw [columnKeys_eq, columns, List.mem_eraseDups]
  exact List.mem_flatMap.2 ⟨row, hrow, List.mem_map_of_mem he⟩

/-- In rows under keys, a part that is a mapping tells all it has: keys above, values below. -/
theorem Tells.row (h : Tells p w) (hmapping : (c.fill p).isMapping = true)
    (hd : (c.fill p).Decoded) {rows : List (List (String × Result))}
    (hrow : (c.fill p).entries ∈ rows) :
    OccursIn w (line (columnKeys rows)) ∨ OccursIn w (rowLine (columnKeys rows) (c.fill p)) := by
  cases c with
  | here =>
    cases h with
    | scalar _ => cases hmapping
    | key he => exact .inl (occursIn_line (mem_columnKeys hrow he))
  | item _ _ _ => cases hmapping
  | value before key c after =>
    have he : (key, c.fill p) ∈ before ++ (key, c.fill p) :: after :=
      List.mem_append_cons_self
    have hcell : cellAt key (before ++ (key, c.fill p) :: after) = (c.fill p).valueText :=
      cellAt_of_mem hd.nodup_keys he
    have hmem : (c.fill p).valueText ∈ (columnKeys rows).map fun k =>
        cellAt k (before ++ (key, c.fill p) :: after) :=
      List.mem_map.2 ⟨key, mem_columnKeys hrow he, hcell⟩
    exact .inr ((h.valueText c).trans (occursIn_line hmem))

theorem Tells.sequenceText (h : Tells p w) {before after : List Result}
    (hd : (sequence (before ++ c.fill p :: after)).Decoded)
    (hp : ¬(Context.item before c after).Passed p) :
    OccursIn w (sequenceText (before ++ c.fill p :: after)) := by
  have hmem : c.fill p ∈ before ++ c.fill p :: after :=
    List.mem_append_cons_self
  rw [sequenceText_eq]
  split
  · rename_i hfirst
    have hmapping : (c.fill p).isMapping = true := by
      cases before with
      | nil => exact hfirst
      | cons v before => exact eq_true_of_ne_false fun hother => hp ⟨hfirst, hother⟩
    obtain hkeys | hrow := h.row hmapping (hd.item hmem) (List.mem_map_of_mem hmem)
    · exact hkeys.append_right _
    · refine OccursIn.append_left ?_ _
      exact occursIn_joined_map "" hmem hrow
  · split
    · obtain ⟨cell, hcell, hw⟩ := h.cells c
      exact occursIn_joined_map "" hmem (hw.trans (occursIn_line hcell))
    · refine occursIn_joined_map "" hmem ?_
      exact (h.text c).trans (occursIn_line (List.mem_singleton_self _))

theorem Tells.mappingText (h : Tells p w) {before after : List (String × Result)} {key : String}
    (hd : (mapping (before ++ (key, c.fill p) :: after)).Decoded)
    (hp : ¬(Context.value before key c after).Passed p) :
    OccursIn w (mappingText (before ++ (key, c.fill p) :: after)) := by
  have hmem : (key, c.fill p) ∈ before ++ (key, c.fill p) :: after :=
    List.mem_append_cons_self
  rw [mappingText_eq]
  split
  · rename_i hlast
    have hmapping : (c.fill p).isMapping = true := by
      rw [List.getLast?_append_cons, List.getLast?_cons] at hlast
      cases hafter : after.getLast? with
      | none =>
        rw [hafter] at hlast
        exact hlast
      | some e =>
        rw [hafter] at hlast
        exact eq_true_of_ne_false fun hother => hp ⟨hafter ▸ hlast, hother⟩
    have hentries : (c.fill p).entries ∈
        (before ++ (key, c.fill p) :: after).map fun e => e.2.entries :=
      List.mem_map.2 ⟨_, hmem, rfl⟩
    obtain hkeys | hrow := h.row hmapping (hd.value hmem) hentries
    · exact (hkeys.append_left "\t").append_right _
    · refine OccursIn.append_left ?_ _
      exact occursIn_joined_map "" hmem (hrow.append_left _)
  · obtain ⟨cell, hcell, hw⟩ := h.cells c
    exact occursIn_joined_map "" hmem ((hw.trans (occursIn_line hcell)).append_left _)

theorem occursIn_name {es : List (String × Result)} {e : String × Result} (he : e ∈ es) :
    OccursIn e.1 (mappingText es) := by
  have hname : ∀ cells : String, OccursIn e.1 (e.1 ++ "\t" ++ cells) := fun cells =>
    ((OccursIn.refl e.1).append_right "\t").append_right cells
  rw [mappingText_eq]
  split
  · refine OccursIn.append_left ?_ _
    exact occursIn_joined_map "" he (hname _)
  · exact occursIn_joined_map "" he (hname _)

end

/-! What the text does not tell -/

section
variable {p q v w : Result} {c : Context}

/-- Parts that no layout tells apart. -/
structure Alike (v w : Result) : Prop where
  form : v.hasForm = w.hasForm
  mapping : v.isMapping = w.isMapping
  sequence : v.isSequence = w.isSequence
  text : v.text = w.text
  cells : v.cells = w.cells
  keys : v.entries.map Prod.fst = w.entries.map Prod.fst
  cellAt : ∀ k, cellAt k v.entries = cellAt k w.entries

theorem columnKeys_congr {row other : List (String × Result)}
    (h : row.map Prod.fst = other.map Prod.fst) (above below : List (List (String × Result))) :
    columnKeys (above ++ row :: below) = columnKeys (above ++ other :: below) := by
  rw [columnKeys, columnKeys, List.flatMap_append, List.flatMap_append, List.flatMap_cons,
    List.flatMap_cons, h]

theorem Alike.rowLine (h : Alike v w) (keys : List String) : rowLine keys v = rowLine keys w := by
  rw [Result.rowLine, Result.rowLine]
  simp only [h.cellAt]

theorem Alike.sequenceText (h : Alike v w) (before after : List Result) :
    sequenceText (before ++ v :: after) = sequenceText (before ++ w :: after) := by
  have hkeys := columnKeys_congr h.keys (before.map entries) (after.map entries)
  have hmapping : (before ++ v :: after).head?.any isMapping =
      (before ++ w :: after).head?.any isMapping := by
    cases before with
    | nil => exact h.mapping
    | cons _ _ => rfl
  have hsequence : (before ++ v :: after).head?.any isSequence =
      (before ++ w :: after).head?.any isSequence := by
    cases before with
    | nil => exact h.sequence
    | cons _ _ => rfl
  rw [sequenceText_eq, sequenceText_eq, hmapping, hsequence]
  simp only [List.map_append, List.map_cons, hkeys, h.rowLine, h.cells, h.text]

theorem Alike.mappingText (h : Alike v w) (before : List (String × Result)) (key : String)
    (after : List (String × Result)) : mappingText (before ++ (key, v) :: after) =
      mappingText (before ++ (key, w) :: after) := by
  have hkeys := columnKeys_congr h.keys (before.map fun e => e.2.entries)
    (after.map fun e => e.2.entries)
  have hmapping : (before ++ (key, v) :: after).getLast?.any (fun e => e.2.isMapping) =
      (before ++ (key, w) :: after).getLast?.any (fun e => e.2.isMapping) := by
    rw [List.getLast?_append_cons, List.getLast?_append_cons, List.getLast?_cons,
      List.getLast?_cons]
    cases after.getLast? with
    | none => exact h.mapping
    | some _ => rfl
  rw [mappingText_eq, mappingText_eq, hmapping]
  simp only [List.map_append, List.map_cons, hkeys, h.rowLine, h.cells]

theorem entries_of_isMapping (h : v.isMapping = false) : v.entries = [] := by
  cases v with
  | mapping _ => cases h
  | _ => rfl

/-- Rows under keys are told by the entries of the parts. -/
theorem sequenceText_congr {before : List Result} (hfirst : before.head?.any isMapping = true)
    (h : v.entries = w.entries) (after : List Result) :
    sequenceText (before ++ v :: after) = sequenceText (before ++ w :: after) := by
  have hrows : ∀ u, (before ++ u :: after).head?.any isMapping = true := by
    intro u
    cases before with
    | nil => cases hfirst
    | cons _ _ => exact hfirst
  rw [sequenceText_eq, sequenceText_eq, if_pos (hrows v), if_pos (hrows w)]
  simp only [List.map_append, List.map_cons, rowLine, h]

theorem mappingText_congr {after : List (String × Result)}
    (hlast : after.getLast?.any (fun e => e.2.isMapping) = true) (h : v.entries = w.entries)
    (before : List (String × Result)) (key : String) :
    mappingText (before ++ (key, v) :: after) = mappingText (before ++ (key, w) :: after) := by
  have hrows : ∀ u, (before ++ (key, u) :: after).getLast?.any (fun e => e.2.isMapping) = true := by
    intro u
    obtain ⟨e, he, hmapping⟩ := (Option.any_eq_true _ _).1 hlast
    rw [List.getLast?_append_cons, List.getLast?_cons, he]
    exact hmapping
  rw [mappingText_eq, mappingText_eq, if_pos (hrows v), if_pos (hrows w)]
  simp only [List.map_append, List.map_cons, rowLine, h]

theorem innerText_fill_congr (h : p.innerText = q.innerText) (c : Context) :
    (c.fill p).innerText = (c.fill q).innerText := by
  induction c with
  | here => exact h
  | item before c after ih =>
    simp only [Context.fill, innerText, innerItems_eq, List.map_append, List.map_cons, ih]
  | value before key c after ih =>
    simp only [Context.fill, innerText, innerEntries_eq, List.map_append, List.map_cons, ih]

/-- Parts that results which hold them do not tell apart. -/
structure Interchangeable (p q : Result) : Prop extends Alike p q where
  inner : p.innerText = q.innerText
  value : p.valueText = q.valueText

theorem Interchangeable.fill (h : Interchangeable p q) (c : Context) :
    Interchangeable (c.fill p) (c.fill q) := by
  have htext : ∀ c : Context, (c.fill p).text = (c.fill q).text := by
    intro c
    cases c with
    | here => exact h.text
    | item before c after => exact innerText_fill_congr h.inner (.item before c after)
    | value before key c after => exact innerText_fill_congr h.inner (.value before key c after)
  have hvalue : ∀ c : Context, (c.fill p).valueText = (c.fill q).valueText := by
    intro c
    cases c with
    | here => exact h.value
    | item before c after => exact htext (.item before c after)
    | value before key c after => exact htext (.value before key c after)
  refine ⟨?_, innerText_fill_congr h.inner c, hvalue c⟩
  cases c with
  | here => exact h.toAlike
  | item before c after =>
    refine ⟨rfl, rfl, rfl, htext (.item before c after), ?_, rfl, fun _ => rfl⟩
    simp only [Context.fill, cells, List.map_append, List.map_cons, htext]
  | value before key c after =>
    refine ⟨rfl, rfl, rfl, htext (.value before key c after),
      congrArg (fun s => [s]) (htext (.value before key c after)), ?_, fun k => ?_⟩
    · simp only [Context.fill, entries, List.map_append, List.map_cons]
    · simp only [Context.fill, entries, cellAt_eq, Entries.get?_append, Entries.get?_cons]
      cases Entries.get? k before with
      | some _ => rfl
      | none => by_cases hkey : key = k <;> simp [hkey, hvalue c]

theorem Interchangeable.symm (h : Interchangeable p q) : Interchangeable q p where
  form := h.form.symm
  mapping := h.mapping.symm
  sequence := h.sequence.symm
  text := h.text.symm
  cells := h.cells.symm
  keys := h.keys.symm
  cellAt k := (h.cellAt k).symm
  inner := h.inner.symm
  value := h.value.symm

theorem SameKind.interchangeable (h : SameKind p q) : Interchangeable p q := by
  cases h with
  | table _ _ => exact ⟨⟨rfl, rfl, rfl, rfl, rfl, rfl, fun _ => rfl⟩, rfl, rfl⟩
  | figure _ _ => exact ⟨⟨rfl, rfl, rfl, rfl, rfl, rfl, fun _ => rfl⟩, rfl, rfl⟩

end

/-! Results with a text -/

section
variable {p q v w : Result} {c : Context} {told s : String}

theorem formless?_eq_none_iff {parts : List Result} :
    formless? parts = none ↔ ∀ v ∈ parts, v.hasForm = true := by
  rw [formless?, List.find?_eq_none]
  refine forall₂_congr fun v _ => ?_
  cases v <;> simp [hasForm]

theorem formless?_ne_none_iff {parts : List Result} :
    formless? parts ≠ none ↔ ∃ v ∈ parts, v.hasForm = false := by
  rw [ne_eq, formless?_eq_none_iff]
  simp

theorem render_sequence_ok_iff {items : List Result} : (sequence items).render = .ok s ↔
    (∀ v ∈ items, v.hasForm = true) ∧ sequenceText items = s := by
  rw [render, ← formless?_eq_none_iff]
  cases formless? items <;> simp

theorem render_mapping_ok_iff {es : List (String × Result)} : (mapping es).render = .ok s ↔
    (∀ e ∈ es, e.2.hasForm = true) ∧ mappingText es = s := by
  have hforms : formless? (es.map Prod.snd) = none ↔ ∀ e ∈ es, e.2.hasForm = true := by
    rw [formless?_eq_none_iff, List.forall_mem_map]
  rw [render, ← hforms]
  cases formless? (es.map Prod.snd) <;> simp

/-- Parts that make the same text are exchanged. -/
theorem render_sequence_congr {before after : List Result} (hform : v.hasForm = w.hasForm)
    (htext : sequenceText (before ++ v :: after) = sequenceText (before ++ w :: after))
    (hs : (sequence (before ++ v :: after)).render = .ok s) :
    (sequence (before ++ w :: after)).render = .ok s := by
  obtain ⟨hforms, rfl⟩ := render_sequence_ok_iff.1 hs
  refine render_sequence_ok_iff.2 ⟨?_, htext.symm⟩
  rw [List.forall_mem_append, List.forall_mem_cons] at hforms ⊢
  exact ⟨hforms.1, hform ▸ hforms.2.1, hforms.2.2⟩

theorem render_mapping_congr {before after : List (String × Result)} {key : String}
    (hform : v.hasForm = w.hasForm)
    (htext : mappingText (before ++ (key, v) :: after) = mappingText (before ++ (key, w) :: after))
    (hs : (mapping (before ++ (key, v) :: after)).render = .ok s) :
    (mapping (before ++ (key, w) :: after)).render = .ok s := by
  obtain ⟨hforms, rfl⟩ := render_mapping_ok_iff.1 hs
  refine render_mapping_ok_iff.2 ⟨?_, htext.symm⟩
  rw [List.forall_mem_append, List.forall_mem_cons] at hforms ⊢
  exact ⟨hforms.1, hform ▸ hforms.2.1, hforms.2.2⟩

theorem Tells.render (h : Tells p told) (hd : (c.fill p).Decoded) (hp : ¬c.Passed p)
    (hs : (c.fill p).render = .ok s) : OccursIn told s := by
  cases c with
  | here =>
    cases h with
    | @scalar x _ =>
      cases hs
      exact (OccursIn.refl x.text).append_right "\n"
    | key he =>
      obtain ⟨-, rfl⟩ := render_mapping_ok_iff.1 hs
      exact occursIn_name he
  | item before c after =>
    obtain ⟨-, rfl⟩ := render_sequence_ok_iff.1 hs
    exact h.sequenceText hd hp
  | value before key c after =>
    obtain ⟨-, rfl⟩ := render_mapping_ok_iff.1 hs
    exact h.mappingText hd hp

theorem hasForm_fill_scalar (c : Context) (x y : Scalar) :
    (c.fill (.scalar x)).hasForm = (c.fill (.scalar y)).hasForm := by
  cases c <;> rfl

theorem isMapping_fill_scalar (c : Context) (x y : Scalar) :
    (c.fill (.scalar x)).isMapping = (c.fill (.scalar y)).isMapping := by
  cases c <;> rfl

theorem render_of_passed {x : Scalar} (h : c.Passed (.scalar x))
    (hs : (c.fill (.scalar x)).render = .ok s) (y : Scalar) :
    (c.fill (.scalar y)).render = .ok s := by
  have hentries : ∀ {c : Context}, (c.fill (.scalar x)).isMapping = false →
      (c.fill (.scalar x)).entries = (c.fill (.scalar y)).entries := fun {c} hother => by
    rw [entries_of_isMapping hother,
      entries_of_isMapping ((isMapping_fill_scalar c y x).trans hother)]
  cases c with
  | here => cases h
  | item before c after =>
    obtain ⟨hfirst, hother⟩ := h
    exact render_sequence_congr (hasForm_fill_scalar c x y)
      (sequenceText_congr hfirst (hentries hother) after) hs
  | value before key c after =>
    obtain ⟨hlast, hother⟩ := h
    exact render_mapping_congr (hasForm_fill_scalar c x y)
      (mappingText_congr hlast (hentries hother) before key) hs

theorem Interchangeable.render (h : Interchangeable p q) (hc : c ≠ .here)
    (hs : (c.fill p).render = .ok s) : (c.fill q).render = .ok s := by
  cases c with
  | here => exact absurd rfl hc
  | item before c after =>
    exact render_sequence_congr (h.fill c).form ((h.fill c).sequenceText before after) hs
  | value before key c after =>
    exact render_mapping_congr (h.fill c).form ((h.fill c).mappingText before key after) hs

theorem Context.not_passed_mapping (hc : c.depth ≤ 1) (es : List (String × Result)) :
    ¬c.Passed (.mapping es) := by
  cases c with
  | here => exact id
  | item _ c _ =>
    cases c with
    | here => exact fun h => Bool.noConfusion h.2
    | _ => simp [Context.depth] at hc
  | value _ _ c _ =>
    cases c with
    | here => exact fun h => Bool.noConfusion h.2
    | _ => simp [Context.depth] at hc

/-- What a text shows of a result: the keys of its two upper levels, and all that a part tells
unless the part is passed over. Of a scalar that is passed over, and of the contents of tables and
figures within other results, it says nothing. A table that is the result is shown with its columns,
the labels of its rows and its cells. -/
theorem render_shows {v : Result} (hv : v.Decoded) (hs : v.render = .ok s) :
    (∀ (c : Context) es, v = c.fill (.mapping es) → c.depth ≤ 1 → ∀ e ∈ es, OccursIn e.1 s) ∧
    (∀ (c : Context) p told, v = c.fill p → Tells p told → ¬c.Passed p → OccursIn told s) ∧
    (∀ (c : Context) x, v = c.fill (.scalar x) → c.Passed (.scalar x) →
      ∀ y, (c.fill (.scalar y)).render = .ok s) ∧
    (∀ (c : Context) p, v = c.fill p → c ≠ .here →
      ∀ q, SameKind p q → (c.fill q).render = .ok s) ∧
    ∀ t, v = .table t → (∀ c ∈ t.columns, OccursIn (Table.cellText c) s) ∧
      ∀ i row, t.data[i]? = some row →
        OccursIn (t.label i) s ∧ ∀ c ∈ row, OccursIn (Table.cellText c) s := by
  refine ⟨?_, ?_, ?_, ?_, ?_⟩
  · rintro c es rfl hc e he
    exact (Tells.key he).render hv (Context.not_passed_mapping hc es) hs
  · rintro c p told rfl htells hpassed
    exact htells.render hv hpassed hs
  · rintro c x rfl hpassed y
    exact render_of_passed hpassed hs y
  · rintro c p rfl hc q hkind
    exact hkind.interchangeable.render hc hs
  · rintro t rfl
    cases hs
    exact t.occursIn_text

/-- A mapping before a number. -/
def mixedItems : Result := .sequence [.mapping [("a", .scalar (.int 1))], .scalar (.int 2)]

/-- The number gets a row of its own with nothing in it. -/
theorem render_shows_of_mixedItems : mixedItems.render = .ok "a\n1\n\n" ∧
    OccursIn "a" "a\n1\n\n" ∧ OccursIn "1" "a\n1\n\n" ∧ ¬OccursIn "2" "a\n1\n\n" ∧
    ∀ y, (sequence [.mapping [("a", .scalar (.int 1))], .scalar y]).render = .ok "a\n1\n\n" := by
  have hdecoded : mixedItems.Decoded := ⟨.arr [.obj [("a", .int 1)], .int 2], rfl⟩
  obtain ⟨hkeys, htells, hpassed, -, -⟩ := render_shows hdecoded (s := "a\n1\n\n") rfl
  refine ⟨rfl, ?_, ?_, by decide, ?_⟩
  · exact hkeys (.item [] .here [.scalar (.int 2)]) _ rfl (by decide) _ List.mem_cons_self
  · exact htells (.item [] (.value [] "a" .here []) [.scalar (.int 2)]) _ _ rfl
      (.scalar Scalar.noConfusion) fun h => Bool.noConfusion h.2
  · exact hpassed (.item [.mapping [("a", .scalar (.int 1))]] .here []) (.int 2) rfl ⟨rfl, rfl⟩

end

end Result
end Pipewright
