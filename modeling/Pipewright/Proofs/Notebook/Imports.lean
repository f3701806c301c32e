import Pipewright.Notebook.Sections
import Pipewright.Proofs.Source.Rows

/-! The lines of a script that are shown as its imports. -/
namespace Pipewright.Notebook
open Text
open Source (Opening opening? BodyRow StartsLine definitionLeads)

/-- The row that the first definition outside of any block starts on, or the number of rows. -/
def definitionRow (source : String) : Nat :=
  ((opening? source.toList).map Opening.row).getD (linesOf source).length

/-- The row that the scan for a definition stops at. -/
def stopRow (source : String) : Nat := (linesOf source).findIdx startsDefinition

/-- The lines in front of a row as they are shown. -/
def shownBefore (source : String) (n : Nat) : List String :=
  (((linesOf source).take n).filter isShown).map quiet

/-- Whether a row has a line that can be shown. -/
def ShownRow (source : String) (i : Nat) : Prop := ∃ row ∈ (linesOf source)[i]?, isShown row = true

/-- What import lines are meant to be: all in front of the first definition that can be shown, and
none of a body. -/
structure Exact (source : String) : Prop where
  lines : importLines source = shownBefore source (definitionRow source)
  bodies : ∀ i < stopRow source, ShownRow source i → ∀ l, ¬BodyRow source.toList l i

/-- Scripts in which the start of each row tells where the first definition is. -/
structure Plain (source : String) : Prop where
  start : ∀ o ∈ opening? source.toList, o.IsPlain
  /-- Further up, no row within a statement starts like a definition. -/
  within : ∀ i < definitionRow source, ¬StartsLine source.toList i →
    ∀ row ∈ (linesOf source)[i]?, startsDefinition row = false
  /-- Further up, no row that is shown is in the body of a definition in a block. -/
  nested : ∀ i < definitionRow source, ShownRow source i →
    ∀ l, BodyRow source.toList l i → l.level = 0

section
variable {source : String} {o : Opening} {i : Nat}

theorem importLines_eq (source : String) :
    importLines source = shownBefore source (stopRow source) := by
  rw [importLines, shownBefore, stopRow, List.takeWhile_eq_take_findIdx_not]
  simp only [Bool.not_not]

theorem startsDefinition_iff (row : List Char) :
    startsDefinition (String.ofList row) = true ↔ ∃ p ∈ definitionLeads, p <+: row := by
  simp only [startsDefinition, Bool.or_eq_true, String.startsWith_string_iff, String.toList_ofList,
    definitionLeads, List.mem_cons, List.not_mem_nil, or_false, exists_eq_or_imp, exists_eq_left,
    or_assoc]

theorem isShown_of_head {c : Char} {row : List Char} (hhash : c ≠ '#') (hunder : c ≠ '_') :
    isShown (String.ofList (c :: row)) = true := by
  have hno : ∀ {s : String} {d : Char} {ds : List Char}, s.toList = d :: ds → c ≠ d →
      (String.ofList (c :: row)).startsWith s = false := by
    intro s d ds hs hne
    rw [Bool.eq_false_iff, Ne, String.startsWith_string_iff, hs, String.toList_ofList]
    exact fun h => hne (List.cons_prefix_cons.1 h).1.symm
  have hempty : (String.ofList (c :: row)).isEmpty = false := by
    simp
  rw [isShown, hempty, hno rfl hhash, hno (s := Overrides.constantName) rfl hunder]
  rfl

/-- A row that starts like a definition is shown. -/
theorem isShown_of_startsDefinition {row : String} (h : startsDefinition row = true) :
    isShown row = true := by
  rw [← String.ofList_toList (s := row), startsDefinition_iff] at h
  obtain ⟨p, hp, more, hrow⟩ := h
  rw [← String.ofList_toList (s := row), ← hrow]
  simp only [definitionLeads, List.mem_cons, List.not_mem_nil, or_false] at hp
  obtain rfl | rfl | rfl := hp <;> exact isShown_of_head (by decide) (by decide)

/-! The row of the first definition -/

/-- A definition starts with characters that no comment and no constant starts with. -/
theorem exists_lead {cs : List Char} (h : o.Stands cs) : ∃ front d,
    front ++ [d] <+: o.token.spelling ∧ d ≠ '\r' ∧
    ∀ c ∈ front ++ [d], c ≠ '\n' ∧ c ≠ '#' ∧ c ≠ '_' := by
  have hstart : o.token.kind ≠ .string ∧ ∃ d ∈ ['d', 'c', 'a', '@'],
      o.token.text.head? = some d := by
    have htoken := h.token
    simp only [Source.Token.leadsDefinition, Source.Token.isWord, Bool.or_eq_true,
      Bool.and_eq_true, decide_eq_true_eq] at htoken
    obtain ((⟨hk, ht⟩ | ⟨hk, ht⟩) | ⟨hk, ht⟩) | ⟨hk, ht⟩ := htoken
    · exact ⟨by simp [hk], 'd', by simp, by rw [ht]; rfl⟩
    · exact ⟨by simp [hk], 'c', by simp, by rw [ht]; rfl⟩
    · exact ⟨by simp [hk], '@', by simp, ht⟩
    · exact ⟨by simp [hk], 'a', by simp, by rw [ht]; rfl⟩
  obtain ⟨hkind, d, hd, htext⟩ := hstart
  have hchars : ∀ d ∈ ['d', 'c', 'a', '@'], d ≠ '\r' ∧ d ≠ '\n' ∧ d ≠ '#' ∧ d ≠ '_' :=
    forall_mem_of_all (by decide)
  obtain ⟨w, hw⟩ := List.head?_eq_some_iff.1 htext
  refine ⟨o.token.gap, d, ⟨w, by simp [Source.Token.spelling, hw]⟩, (hchars d hd).1,
    List.forall_mem_append.2 ⟨fun c hc => ?_, by simpa using (hchars d hd).2⟩⟩
  have hgap := h.taken.gap hkind c hc
  refine ⟨?_, ?_, ?_⟩ <;> rintro rfl <;> exact absurd hgap (by decide)

/-- The first row of a text starts like a definition if the text does. -/
theorem leads_line_iff {cs row : List Char} (h : row ∈ (lines cs).head?) :
    (∃ p ∈ definitionLeads, p <+: row) ↔ ∃ p ∈ definitionLeads, p <+: cs := by
  have hleads : ∀ p ∈ definitionLeads, p ≠ [] ∧ '\n' ∉ p ∧ p.getLast? ≠ some '\r' := by
    simp [definitionLeads]
  constructor
  · rintro ⟨p, hp, hrow⟩
    exact ⟨p, hp, hrow.trans (head?_lines_isPrefix h)⟩
  · rintro ⟨p, hp, hcs⟩
    obtain ⟨hne, hn, hr⟩ := hleads p hp
    obtain ⟨row', hrow', hprefix⟩ := exists_line_of_isPrefix hne hn hr hcs
    exact ⟨p, hp, Option.mem_unique hrow' h ▸ hprefix⟩

theorem getElem?_linesOf {front behind : List Char} (hcs : source.toList = front ++ behind)
    (hrow : EndsRow front) :
    (linesOf source)[rowBehind front]? = (lines behind).head?.map String.ofList := by
  rw [linesOf, List.getElem?_map, hcs, getElem?_lines hrow]

theorem getElem?_row (ho : o ∈ opening? source.toList) : ∃ row,
    (linesOf source)[o.row]? = some row ∧ isShown row = true ∧
      (startsDefinition row = true ↔ o.IsPlain) := by
  have hstands := Source.stands_of_mem_opening ho
  obtain ⟨front, d, hfront, hd, hchars⟩ := exists_lead hstands
  obtain ⟨row, hrow, more, rfl⟩ := exists_line_of_isPrefix (by simp)
    (fun hn => (hchars '\n' hn).1 rfl) (by simpa using hd)
    (hfront.trans (List.prefix_append _ o.behind))
  refine ⟨String.ofList (front ++ [d] ++ more), ?_, ?_, ?_⟩
  · rw [Opening.row, getElem?_linesOf hstands.source hstands.row, hrow]
    rfl
  · obtain ⟨c, w, hc⟩ : ∃ c w, front ++ [d] = c :: w := List.exists_cons_of_ne_nil (by simp)
    obtain ⟨-, hhash, hunder⟩ := hchars c (by simp [hc])
    rw [hc]
    exact isShown_of_head hhash hunder
  · rw [startsDefinition_iff, leads_line_iff hrow, hstands.leads_iff]

theorem definitionRow_le (source : String) : definitionRow source ≤ (linesOf source).length := by
  rw [definitionRow]
  cases ho : opening? source.toList with
  | none => exact le_rfl
  | some o =>
    obtain ⟨row, hrow, -⟩ := getElem?_row ho
    exact (List.getElem?_eq_some_iff.1 hrow).1.le

theorem definitionRow_isShown (source : String) :
    ∀ row ∈ (linesOf source)[definitionRow source]?, isShown row = true := by
  intro row hrow
  rw [definitionRow] at hrow
  cases ho : opening? source.toList with
  | none => simp [ho] at hrow
  | some o =>
    obtain ⟨row', hrow', hshown, -⟩ := getElem?_row ho
    rw [ho, Option.map_some, Option.getD_some] at hrow
    exact Option.mem_unique hrow' hrow ▸ hshown

theorem definitionRow_starts_iff (source : String) :
    (∀ row ∈ (linesOf source)[definitionRow source]?, startsDefinition row = true) ↔
      ∀ o ∈ opening? source.toList, o.IsPlain := by
  rw [definitionRow]
  cases ho : opening? source.toList with
  | none => simp
  | some o =>
    obtain ⟨row, hrow, -, hiff⟩ := getElem?_row ho
    simp [hrow, hiff]

/-- Further up than the first definition, no logical line starts like one. -/
theorem definitionRow_le_of_line (h : StartsLine source.toList i) {row : String}
    (hrow : row ∈ (linesOf source)[i]?) (hstarts : startsDefinition row = true) :
    definitionRow source ≤ i := by
  obtain ⟨before, l, after, hlines, rfl⟩ := h
  obtain ⟨X, hX, -⟩ := Source.exists_behind hlines
  rw [getElem?_linesOf hX (Source.endsRow_frontOf hlines)] at hrow
  obtain ⟨first, hfirst, rfl⟩ := Option.map_eq_some_iff.1 hrow
  rw [startsDefinition_iff, leads_line_iff hfirst] at hstarts
  obtain ⟨p, hp, hpX⟩ := hstarts
  obtain ⟨o, ho, hle⟩ := Source.opening_le_of_line hlines hp hX hpX
  rwa [definitionRow, Option.mem_def.1 ho]

theorem definitionRow_le_of_body {l : Source.Line} (h : BodyRow source.toList l i)
    (hl : l.level = 0) : definitionRow source ≤ i := by
  obtain ⟨o, ho, hle⟩ := Source.opening_le_of_body h hl
  rwa [definitionRow, Option.mem_def.1 ho]

/-! The row that the scan stops at -/

theorem findIdx_eq_iff {α : Type} {p : α → Bool} {xs : List α} {n : Nat} (hn : n ≤ xs.length) :
    xs.findIdx p = n ↔
      (∀ i < n, ∀ x ∈ xs[i]?, p x = false) ∧ ∀ x ∈ xs[n]?, p x = true := by
  obtain hlt | rfl := Nat.lt_or_eq_of_le hn
  · rw [List.findIdx_eq hlt, and_comm]
    refine and_congr ⟨fun h i hi x hx => ?_, fun h i hi => ?_⟩ (by simp [hlt])
    · obtain ⟨hi', rfl⟩ := List.getElem?_eq_some_iff.1 hx
      exact h i hi
    · exact h i hi _ (List.getElem?_eq_getElem (hi.trans hlt))
  · rw [List.findIdx_eq_length]
    constructor
    · intro h
      exact ⟨fun i _ x hx => h x (List.mem_of_getElem? hx), by simp⟩
    · rintro ⟨h, -⟩ x hx
      obtain ⟨i, hi, rfl⟩ := List.getElem_of_mem hx
      exact h i hi _ (List.getElem?_eq_getElem hi)

theorem countP_take_lt {α : Type} {p : α → Bool} {xs : List α} {k n : Nat} (hkn : k < n)
    (hn : n ≤ xs.length) (hk : ∀ x ∈ xs[k]?, p x = true) :
    (xs.take k).countP p < (xs.take n).countP p := by
  have hget : xs[k]? = some xs[k] := List.getElem?_eq_getElem (hkn.trans_le hn)
  have hnext : (xs.take (k + 1)).countP p = (xs.take k).countP p + 1 := by
    rw [List.take_add_one, List.countP_append, hget, Option.toList_some,
      List.countP_singleton, if_pos (hk _ hget)]
  have hle : (xs.take (k + 1)).countP p ≤ (xs.take n).countP p :=
    (List.take_prefix_take_left hkn).sublist.countP_le
  omega

/-- Lines in front of two rows that are shown are as many only if the rows are the same. -/
theorem eq_of_shownBefore {k n : Nat} (hk : ∀ row ∈ (linesOf source)[k]?, isShown row = true)
    (hn : ∀ row ∈ (linesOf source)[n]?, isShown row = true) (hk' : k ≤ (linesOf source).length)
    (hn' : n ≤ (linesOf source).length) (h : shownBefore source k = shownBefore source n) :
    k = n := by
  have hcount : ∀ n, (shownBefore source n).length = ((linesOf source).take n).countP isShown := by
    intro n
    rw [shownBefore, List.length_map, List.countP_eq_length_filter]
  have hlength := congrArg List.length h
  rw [hcount, hcount] at hlength
  obtain hlt | rfl | hlt := lt_trichotomy k n
  · exact absurd hlength (countP_take_lt hlt hn' hk).ne
  · rfl
  · exact absurd hlength (countP_take_lt hlt hk' hn).ne'

theorem stopRow_eq_iff (source : String) : stopRow source = definitionRow source ↔
    (∀ o ∈ opening? source.toList, o.IsPlain) ∧
      ∀ i < definitionRow source, ¬StartsLine source.toList i →
        ∀ row ∈ (linesOf source)[i]?, startsDefinition row = false := by
  rw [stopRow, findIdx_eq_iff (definitionRow_le source), definitionRow_starts_iff, and_comm]
  refine and_congr_right fun _ => ⟨fun h i hi _ => h i hi, fun h i hi row hrow => ?_⟩
  by_cases hline : StartsLine source.toList i
  · refine Bool.eq_false_iff.2 fun hstarts => ?_
    exact absurd (definitionRow_le_of_line hline hrow hstarts) (not_le.2 hi)
  · exact h i hi hline row hrow

theorem lines_iff (source : String) :
    importLines source = shownBefore source (definitionRow source) ↔
      stopRow source = definitionRow source := by
  rw [importLines_eq]
  refine ⟨fun h => eq_of_shownBefore (fun row hrow => ?_) (definitionRow_isShown source)
    List.findIdx_le_length (definitionRow_le source) h, fun h => by rw [h]⟩
  obtain ⟨hlt, rfl⟩ := List.getElem?_eq_some_iff.1 hrow
  exact isShown_of_startsDefinition (List.findIdx_getElem (w := hlt))

/-- The import lines are those in front of the first definition, and none of a body, exactly for
the sources in which the rows tell where that definition is. -/
theorem importLines_exact_iff (source : String) : Exact source ↔ Plain source := by
  constructor
  · rintro ⟨hlines, hbodies⟩
    have hstop := (lines_iff source).1 hlines
    obtain ⟨hstart, hwithin⟩ := (stopRow_eq_iff source).1 hstop
    rw [hstop] at hbodies
    exact ⟨hstart, hwithin, fun i hi hshown l hbody => absurd hbody (hbodies i hi hshown l)⟩
  · rintro ⟨hstart, hwithin, hnested⟩
    have hstop := (stopRow_eq_iff source).2 ⟨hstart, hwithin⟩
    refine ⟨(lines_iff source).2 hstop, fun i hi hshown l hbody => ?_⟩
    rw [hstop] at hi
    exact absurd (definitionRow_le_of_body hbody (hnested i hi hshown l hbody)) (not_le.2 hi)

end

/-- A script with a decorated function. -/
def plainScript : String := "import os\n# Tables\n@cli\ndef process(table):\n    return table\n"

theorem opening?_plainScript : opening? plainScript.toList =
    some ⟨"import os\n# Tables\n".toList, ⟨[], .mark, ['@']⟩,
      "cli\ndef process(table):\n    return table\n".toList⟩ := by
  have htext : plainScript.toList = _ := String.toList_ofList
  rw [opening?, Source.linesOf, Source.lex_eq_lexWithin, htext]
  rfl

theorem level_plainScript :
    ∀ l ∈ Source.linesOf plainScript.toList, l.isHeader = true → l.level = 0 := by
  have htext : plainScript.toList = _ := String.toList_ofList
  rw [Source.linesOf, Source.lex_eq_lexWithin, htext]
  decide

theorem plain_plainScript : Plain plainScript := by
  have hrow : definitionRow plainScript = 2 := by
    rw [definitionRow, opening?_plainScript]
    rfl
  refine ⟨?_, ?_, ?_⟩
  · rw [opening?_plainScript]
    rintro o ⟨⟩
    exact ⟨rfl, .inl rfl⟩
  · rw [hrow]
    have hrows : ∀ i < 2, ∀ row ∈ (linesOf plainScript)[i]?, startsDefinition row = false := by
      decide +kernel
    exact fun i hi _ => hrows i hi
  · rintro i - - l ⟨before, after, block, hlines, hheader, -⟩
    exact level_plainScript l (by simp [hlines]) hheader

theorem importLines_exact_plainScript : Plain plainScript ∧ Exact plainScript :=
  ⟨plain_plainScript, (importLines_exact_iff plainScript).2 plain_plainScript⟩

/-- A script whose only function is asynchronous. -/
def asyncScript : String := "import os\n\nasync def process(table):\n    return table\n"

theorem opening?_asyncScript : ∃ o ∈ opening? asyncScript.toList, ¬o.IsPlain := by
  have htext : asyncScript.toList = _ := String.toList_ofList
  rw [opening?, Source.linesOf, Source.lex_eq_lexWithin, htext]
  refine ⟨_, rfl, fun hplain => ?_⟩
  obtain hmark | ⟨hasync, -⟩ := hplain.2
  · exact absurd hmark (by decide)
  · exact absurd hasync (by decide)

/-- An asynchronous function is shown among the imports, its body included. -/
theorem asyncScript_shown : importLines asyncScript =
    ["import os", "async def process(table):", "    return table"] ∧ ¬Exact asyncScript := by
  refine ⟨by decide +kernel, fun h => ?_⟩
  obtain ⟨o, ho, hplain⟩ := opening?_asyncScript
  exact hplain (((stopRow_eq_iff asyncScript).1 ((lines_iff asyncScript).1 h.lines)).1 o ho)

end Pipewright.Notebook
