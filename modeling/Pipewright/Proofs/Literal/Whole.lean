import Pipewright.Proofs.Literal.Steps

/-! The integers of values that are read: the least one of 64 bits is not among them. -/
namespace Pipewright.Literal
open Text Source

/-- Whether all integers in a value satisfy a condition. -/
inductive AllInts (whole : Int → Prop) : Literal → Prop where
  | none : AllInts whole .none
  | bool (b : Bool) : AllInts whole (.bool b)
  | int {i : Int} (h : whole i) : AllInts whole (.int i)
  | float (x : Binary64) : AllInts whole (.float x)
  | str (s : String) : AllInts whole (.str s)
  | list {items : List Literal} (h : ∀ v ∈ items, AllInts whole v) : AllInts whole (.list items)
  | map {entries : List (String × Literal)} (h : ∀ e ∈ entries, AllInts whole e.2) :
      AllInts whole (.map entries)
  | expr (text : String) : AllInts whole (.expr text)

theorem Plain.of_allInts {text : String → Prop} {p q : Int → Prop} {v : Literal}
    (h : Plain text p v) (hq : AllInts q v) : Plain text q v := by
  induction h with
  | none => exact .none
  | bool b => exact .bool b
  | int =>
    cases hq with
    | int h => exact .int h
  | str h => exact .str h
  | list _ ih =>
    cases hq with
    | list hq => exact .list fun v hv => ih v hv (hq v hv)
  | map ordered names _ ih =>
    cases hq with
    | map hq => exact .map ordered names fun e he => ih e he (hq e he)

theorem IsWhole.neg {i : Int} (h : IsWhole i) : IsWhole (-i) :=
  isWhole_of_natAbs_lt (by rw [Int.natAbs_neg]; exact natAbs_lt_of_isWhole h)

theorem allInts_wholeValue? {text : List Char} {v : Literal} (h : wholeValue? text = some v) :
    AllInts IsWhole v := by
  obtain ⟨n, -, hn⟩ := Option.bind_eq_some_iff.1 h
  split at hn
  · cases hn
    exact .int (isWhole_of_natAbs_lt ‹_›)
  · cases hn

theorem allInts_signed? {negative : Bool} {v w : Literal} (h : AllInts IsWhole v)
    (hw : signed? negative v = some w) : AllInts IsWhole w := by
  cases h with
  | int h =>
    cases hw
    cases negative
    · exact .int h
    · exact .int h.neg
  | float =>
    cases hw
    exact .float _
  | _ => cases hw

theorem allInts_wordValue? {t : Token} {v : Literal} (h : wordValue? t = some v) :
    AllInts IsWhole v := by
  obtain rfl | ⟨b, rfl⟩ := eq_of_wordValue? h
  · exact .none
  · exact .bool b

/-- Whether readers with some fuel read values whose integers can be read. -/
abbrev ReadsInts : Nat → Prop :=
  Keeps (fun _ v _ => AllInts IsWhole v) (fun _ vs _ => ∀ v ∈ vs, AllInts IsWhole v)
    (fun _ es _ => ∀ e ∈ es, AllInts IsWhole e.2)

section
variable {n : Nat} {t : Token} {ts r : List Token}

theorem ReadsInts.value_step (h : ReadsInts n) {v : Literal} (hs : ValueStep n t ts v r) :
    AllInts IsWhole v := by
  cases hs with
  | word _ hw => exact allInts_wordValue? hw
  | whole _ hw => exact allInts_wholeValue? hw
  | decimal _ hw =>
    obtain ⟨x, -, rfl⟩ := Option.map_eq_some_iff.1 hw
    exact .float x
  | string _ hw =>
    obtain ⟨x, -, rfl⟩ := Option.map_eq_some_iff.1 hw
    exact .str _
  | signed _ hread hw => exact allInts_signed? (h.value hread) hw
  | list _ hitems => exact .list (h.items hitems)
  | single _ hitems => exact h.items hitems _ List.mem_cons_self
  | tuple _ hitems => exact .list (h.items hitems)
  | map _ hentries => exact .map fun e he => h.entries hentries e (Entries.mem_of_mem_sort he)

theorem ReadsInts.items_step (h : ReadsInts n) {close : String} {vs : List Literal}
    (hs : ItemsStep n close t ts vs r) : ∀ v ∈ vs, AllInts IsWhole v := by
  cases hs with
  | close => simp
  | last hv => simpa using h.value hv
  | more hv _ hs => exact List.forall_mem_cons.2 ⟨h.value hv, h.items hs⟩

theorem ReadsInts.entries_step (h : ReadsInts n) {es : List (String × Literal)}
    (hs : EntriesStep n t ts es r) : ∀ e ∈ es, AllInts IsWhole e.2 := by
  cases hs with
  | close => simp
  | last _ _ _ hv => simpa using h.value hv
  | more _ _ _ hv _ hs => exact List.forall_mem_cons.2 ⟨h.value hv, h.entries hs⟩

end

theorem readsInts (n : Nat) : ReadsInts n :=
  keeps (fun h hs => ReadsInts.value_step h hs) (fun h hs => ReadsInts.items_step h hs)
    (fun h hs => ReadsInts.entries_step h hs) n

/-! Printed values -/

section
variable {text : String → Prop} {whole : Int → Prop} {v : Literal}

theorem allInts_ofTokens? {ts : List Token} (h : ofTokens? ts = some v) : AllInts IsWhole v := by
  obtain ⟨n, hread⟩ := readValue_of_ofTokens? h
  exact (readsInts (n + 1)).value hread

theorem Plain.ne_expr (h : Plain text whole v) (s : String) : v ≠ .expr s := by
  rintro rfl
  cases h

theorem Plain.read_eq_iff (h : Plain IsText whole v) :
    read v.script = v ↔ ofTokens? (tokens [] v) = some v := by
  have hcomma : dropEnd "," (tokens [] v) = tokens [] v := h.dropEnd_tokens [] (.inr rfl)
  constructor
  · intro hread
    have htokens := ofTokens?_of_read hread h.ne_expr
    rwa [h.trim_chars, h.statementTokens_chars, hcomma] at htokens
  · intro htokens
    have hlines := joinsLines_of_no_spacers (h.isSpacer_tokens []) 0 false
    simp only [read, script, String.toList_ofList, h.trim_chars, h.statementTokens_chars, hlines,
      if_true, hcomma, htokens, Option.getD_some]

/-- What a value is printed as is read as the value just if its integers can be read. -/
theorem Plain.read_iff (h : Plain IsText whole v) : read v.script = v ↔ Plain IsText IsWhole v :=
  h.read_eq_iff.trans
    ⟨fun htokens => h.of_allInts (allInts_ofTokens? htokens), fun hw => hw.ofTokens?_tokens []⟩

/-! A printed value is one line. -/

theorem newline_not_mem_quote (cs : List Char) : '\n' ∉ quote cs := by
  have hinner := (written_escapeAll cs).newline_not_mem
  simp [quote, hinner]

theorem newline_not_mem_int (i : Int) : '\n' ∉ (toString i).toList := fun h =>
  forall_mem_toString_int (p := (· ≠ '\n')) (by decide) (by decide) i _ h rfl

theorem newline_not_mem_itemChars {items : List Literal} (h : ∀ v ∈ items, '\n' ∉ chars v) :
    '\n' ∉ itemChars items := by
  induction items with
  | nil => exact List.not_mem_nil
  | cons v items ih =>
    obtain ⟨hv, hitems⟩ := List.forall_mem_cons.1 h
    cases items with
    | nil => exact hv
    | cons w items => simp [itemChars, hv, ih hitems]

theorem newline_not_mem_entryChars {entries : List (String × Literal)}
    (h : ∀ e ∈ entries, '\n' ∉ chars e.2) : '\n' ∉ entryChars entries := by
  induction entries with
  | nil => exact List.not_mem_nil
  | cons e entries ih =>
    obtain ⟨he, hentries⟩ := List.forall_mem_cons.1 h
    have hname := newline_not_mem_quote e.1.toList
    cases entries with
    | nil => simp [entryChars, hname, he]
    | cons f entries => simp [entryChars, hname, he, ih hentries]

theorem Plain.newline_not_mem (h : Plain text whole v) : '\n' ∉ chars v := by
  induction h with
  | none => decide
  | bool b => cases b <;> decide
  | int => exact newline_not_mem_int _
  | str => exact newline_not_mem_quote _
  | list _ ih => simpa [chars] using newline_not_mem_itemChars ih
  | map _ _ _ ih => simpa [chars] using newline_not_mem_entryChars ih

end
end Pipewright.Literal
