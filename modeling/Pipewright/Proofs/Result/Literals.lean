import Pipewright.Proofs.Literal.Gathered
import Pipewright.Proofs.Literal.Meaning
import Pipewright.Proofs.Result.Shown

/-! Sequences and mappings as literals of the script language. Their strings and keys stand between
quotes as they are, so the text is the literal of the result where each of these quotes closes at
its place; other quotes, backslashes and line ends within them can make the text that of another
value, or of none. -/
namespace Pipewright.Result
open Text Source Literal Datum

/-- Results that can stand within literals. -/
inductive Nested : Result → Prop where
  | null : Nested (.scalar .null)
  | bool (b : Bool) : Nested (.scalar (.bool b))
  | int {i : Int} (h : IsWhole i) : Nested (.scalar (.int i))
  | str (s : String) : Nested (.scalar (.str s))
  | sequence {items : List Result} (h : ∀ v ∈ items, Nested v) : Nested (.sequence items)
  | mapping {es : List (String × Result)} (apart : (es.map Prod.fst).Nodup)
      (h : ∀ e ∈ es, Nested e.2) : Nested (.mapping es)

/-- Results without keys. -/
inductive Keyless : Result → Prop where
  | scalar (s : Scalar) : Keyless (.scalar s)
  | sequence {items : List Result} (h : ∀ v ∈ items, Keyless v) : Keyless (.sequence items)
  | empty : Keyless (.mapping [])

mutual
/-- The value of a script that a result is. -/
def datum : Result → Datum
  | .scalar (.bool b) => .bool b
  | .scalar (.int i) => .int i
  | .scalar (.str s) => .str s
  | .sequence items => .list (itemData items)
  | .mapping es => .dict (entryData es)
  | .scalar .null | .scalar (.float _) | .table _ | .figure _ => .none

def itemData : List Result → List Datum
  | [] => []
  | v :: r => datum v :: itemData r

def entryData : List (String × Result) → List (Key × Datum)
  | [] => []
  | (k, v) :: r => (.str k, datum v) :: entryData r
end

def chars (v : Result) : List Char := v.innerText.toList

def entryChars (e : String × Result) : List Char := bare e.1.toList ++ ':' :: ' ' :: chars e.2

mutual
/-- The strings and keys within a result in order, each with the text behind its quotes. -/
def places : Result → (rest : List Char) → List (List Char × List Char)
  | .scalar (.str s), rest => [(s.toList, rest)]
  | .sequence items, rest => itemPlaces items (']' :: rest)
  | .mapping es, rest => entryPlaces es ('}' :: rest)
  | _, _ => []

def itemPlaces : List Result → (last : List Char) → List (List Char × List Char)
  | [], _ => []
  | v :: r, last => places v (behind [',', ' '] (r.map chars) last) ++ itemPlaces r last

def entryPlaces : List (String × Result) → (last : List Char) → List (List Char × List Char)
  | [], _ => []
  | (k, v) :: r, last =>
    (k.toList, ':' :: ' ' :: (chars v ++ behind [',', ' '] (r.map entryChars) last)) ::
      (places v (behind [',', ' '] (r.map entryChars) last) ++ entryPlaces r last)
end

/-- Whether the quotes around each string and key within a result close at their places and hold
the text as it is. -/
def Legible (v : Result) : Prop := ∀ p ∈ v.places [], Held p.2 p.1

/-! Texts and values of collections -/

theorem itemData_eq (items : List Result) : itemData items = items.map datum := by
  induction items with
  | nil => rfl
  | cons v items ih => rw [itemData, ih, List.map_cons]

theorem entryData_eq (es : List (String × Result)) :
    entryData es = es.map fun e => (.str e.1, e.2.datum) := by
  induction es with
  | nil => rfl
  | cons e es ih => rw [entryData, ih, List.map_cons]

theorem chars_sequence (items : List Result) : chars (.sequence items) =
    '[' :: (joinWith [',', ' '] (items.map chars) ++ [']']) := by
  rw [chars, innerText, innerItems_eq, String.toList_append, String.toList_append, toList_joined,
    List.map_map]
  rfl

theorem chars_mapping (es : List (String × Result)) : chars (.mapping es) =
    '{' :: (joinWith [',', ' '] (es.map entryChars) ++ ['}']) := by
  have hentry : (String.toList ∘ fun e : String × Result => "'" ++ e.1 ++ "': " ++ e.2.innerText) =
      entryChars := by
    funext e
    simp [entryChars, bare, chars]
  rw [chars, innerText, innerEntries_eq, String.toList_append, String.toList_append, toList_joined,
    List.map_map, hentry]
  rfl

theorem mem_itemPlaces {v : Result} {r items : List Result} {last : List Char}
    {p : List Char × List Char} (h : v :: r <:+ items)
    (hp : p ∈ places v (behind [',', ' '] (r.map chars) last)) : p ∈ itemPlaces items last := by
  induction items with
  | nil => simp at h
  | cons w items ih =>
    rw [itemPlaces, List.mem_append]
    rcases List.suffix_cons_iff.1 h with heq | h
    · obtain ⟨rfl, rfl⟩ := List.cons.inj heq
      exact .inl hp
    · exact .inr (ih h)

theorem mem_entryPlaces {e : String × Result} {r es : List (String × Result)} {last : List Char}
    {p : List Char × List Char} (h : e :: r <:+ es)
    (hp : p = (e.1.toList,
        ':' :: ' ' :: (chars e.2 ++ behind [',', ' '] (r.map entryChars) last)) ∨
      p ∈ places e.2 (behind [',', ' '] (r.map entryChars) last)) : p ∈ entryPlaces es last := by
  induction es with
  | nil => simp at h
  | cons f es ih =>
    rw [entryPlaces, List.mem_cons, List.mem_append]
    rcases List.suffix_cons_iff.1 h with heq | h
    · obtain ⟨rfl, rfl⟩ := List.cons.inj heq
      exact hp.imp_right .inl
    · exact .inr (.inr (ih h))

/-! Reading back -/

def itemPiece (front : List Char) (v : Result) : Piece Datum := ⟨front, chars v, [], v.datum⟩

def entryPair (front : List Char) (e : String × Result) : Pair :=
  (⟨front, bare e.1.toList, [], .str e.1⟩, itemPiece [' '] e.2)

theorem chars_str (s : String) : chars (.scalar (.str s)) = bare s.toList := by
  simp [chars, innerText, Scalar.innerText, bare]

theorem denotes_null : Denotes (chars (.scalar .null)) .none := .none

theorem denotes_bool (b : Bool) : Denotes (chars (.scalar (.bool b))) (.bool b) := by
  cases b
  · exact .no
  · exact .yes

theorem denotes_int {i : Int} (h : IsWhole i) : Denotes (chars (.scalar (.int i))) (.int i) :=
  .int (whole_toString (natAbs_lt_of_isWhole h))

theorem Nested.front {v : Result} (h : v.Nested) : ∃ c r, isFront c = true ∧ chars v = c :: r := by
  cases h with
  | null => exact denotes_null.front
  | bool b => exact (denotes_bool b).front
  | int h => exact (denotes_int h).front
  | str s => exact ⟨_, _, by decide, chars_str s⟩
  | sequence => exact ⟨_, _, by decide, chars_sequence _⟩
  | mapping => exact ⟨_, _, by decide, chars_mapping _⟩

theorem parted_chars_behind {close : Char} (hc : close = ']' ∨ close = '}')
    (texts : List (List Char)) (rest : List Char) :
    Parted (behind [',', ' '] texts (close :: rest)) := by
  cases texts with
  | nil => rcases hc with rfl | rfl <;> exact parted_cons (by decide) rest
  | cons => exact parted_cons (by decide) _

/-- Where all quotes close at their places, a text is read as the value of the result. -/
theorem Nested.lexes {v : Result} (h : v.Nested) {rest : List Char} (hr : Parted rest)
    (hheld : ∀ p ∈ v.places rest, Held p.2 p.1) : LexesAt (Stands v.datum) (chars v) rest := by
  induction h generalizing rest with
  | null => exact denotes_null.lexes rest hr
  | bool b => exact (denotes_bool b).lexes rest hr
  | int h => exact (denotes_int h).lexes rest hr
  | str s =>
    have hs : Held rest s.toList := hheld _ List.mem_cons_self
    rw [chars_str]
    simpa [datum] using hs.lexes hr
  | @sequence items _ ih =>
    have hwritten : ∀ front v, (itemPiece front v).written = front ++ chars v := by
      simp [itemPiece, Piece.written]
    have htext : chars (.sequence items) =
        enclosed '[' ']' ((spaced itemPiece [] items).map Piece.written) [] := by
      rw [enclosed_spaced chars hwritten, chars_sequence]
    have hvalue : (spaced itemPiece [] items).map Piece.value = items.map datum :=
      map_spaced itemPiece (fun _ _ => rfl) [] items
    rw [htext, datum, itemData_eq, ← hvalue]
    refine lexes_enclosed (.inl rfl) (.inl rfl) (tail_nil _) (fun p qs hp => ?_)
      fun gap ts hts => stands_list hts gap
    obtain ⟨front, v, r, hfront, hr, rfl, rfl⟩ := exists_of_suffix_spaced .nil hp
    rw [behind_spaced hwritten]
    exact lexes_piece ⟨hfront, .nil⟩ (ih v (hr.subset List.mem_cons_self)
      (parted_chars_behind (.inl rfl) _ rest) fun p hp => hheld p (mem_itemPlaces hr hp))
  | @mapping es _ h ih =>
    have hwritten : ∀ front e, (entryPair front e).written = front ++ entryChars e := by
      simp [entryPair, itemPiece, Pair.written, Piece.written, entryChars]
    have htext : chars (.mapping es) =
        enclosed '{' '}' ((spaced entryPair [] es).map Pair.written) [] := by
      rw [enclosed_spaced entryChars hwritten, chars_mapping]
    have hvalue : (spaced entryPair [] es).map Pair.entry =
        es.map fun e => (.str e.1, e.2.datum) :=
      map_spaced entryPair (fun _ _ => rfl) [] es
    rw [htext, datum, entryData_eq, ← hvalue]
    refine lexes_enclosed (.inr rfl) (.inr rfl) (tail_nil _) (fun p qs hp => ?_)
      fun gap ts hts => stands_dict hts gap
    obtain ⟨front, e, r, hfront, hr, rfl, rfl⟩ := exists_of_suffix_spaced .nil hp
    have he := hr.subset List.mem_cons_self
    have hblank : Trivia [' '] := .blank (by decide) .nil
    rw [behind_spaced hwritten]
    refine lexes_entry ⟨⟨hfront, .nil⟩, hblank, .nil⟩ ?_ ?_ (h e he).front
    · have hkey := (hheld _ (mem_entryPlaces hr (.inl rfl))).lexes (parted_cons (by decide) _)
      simpa [entryPair, itemPiece, Piece.written, ofKey] using hkey
    · exact ih e he (parted_chars_behind (.inr rfl) _ rest) fun p hp =>
        hheld p (mem_entryPlaces hr (.inr hp))

theorem trim_chars {v : Result} (h : v.isSequence = true ∨ v.isMapping = true) :
    trim (chars v) = chars v := by
  cases v with
  | sequence items =>
    rw [chars_sequence]
    exact trim_of_enclosed (by decide) (by decide) _
  | mapping es =>
    rw [chars_mapping]
    exact trim_of_enclosed (by decide) (by decide) _
  | _ => simp [isSequence, isMapping] at h

theorem text_of_collection {v : Result} (h : v.isSequence = true ∨ v.isMapping = true) :
    v.text = String.ofList (chars v) := by
  rw [chars, String.ofList_toList]
  cases v with
  | scalar s => simp [isSequence, isMapping] at h
  | _ => rfl

theorem Nested.read_legible {v : Result} (h : v.Nested)
    (hc : v.isSequence = true ∨ v.isMapping = true) (hv : v.Legible) :
    Literal.read v.text = v.datum.literal := by
  rw [text_of_collection hc]
  exact read_of_stands (trim_chars hc) (h.lexes parted_nil hv).lex

/-! The strings that are read back -/

theorem unquoted_int (i : Int) : Unquoted (chars (.scalar (.int i))) :=
  forall_mem_toString_int (p := fun c => isQuoteMark c = false) (by decide) (by decide) i

theorem strings_items {items : List Result}
    (h : ∀ v ∈ items, ∀ rest, strings v.datum.literal = (v.places rest).map Prod.fst)
    (last : List Char) : itemStrings (itemLiterals (itemData items)) =
      (itemPlaces items last).map Prod.fst := by
  induction items with
  | nil => rfl
  | cons v items ih =>
    obtain ⟨hv, hitems⟩ := List.forall_mem_cons.1 h
    rw [itemData, itemLiterals, itemStrings, itemPlaces, List.map_append, ← hv, ih hitems]

/-- A literal of a result without keys has its strings in the order of their places. -/
theorem Keyless.strings {v : Result} (h : v.Keyless) (hn : v.Nested) (rest : List Char) :
    strings v.datum.literal = (v.places rest).map Prod.fst := by
  induction h generalizing rest with
  | scalar s => cases hn <;> rfl
  | sequence _ ih =>
    cases hn with
    | sequence hn => exact strings_items (fun v hv => ih v hv (hn v hv)) _
  | empty => rfl

theorem laid_items {items : List Result} {last : List Char} {ps : List (List Char × List Char)}
    (hlast : ∀ texts, Parted (behind [',', ' '] texts last)) (hl : Laid last ps)
    (h : ∀ v ∈ items, ∀ {rest ps}, Parted rest → Laid rest ps →
      Laid (chars v ++ rest) (places v rest ++ ps)) :
    Laid (joinWith [',', ' '] (items.map chars) ++ last) (itemPlaces items last ++ ps) := by
  have hbehind : ∀ {r}, (∀ v ∈ r, v ∈ items) →
      Laid (behind [',', ' '] (r.map chars) last) (itemPlaces r last ++ ps) := by
    intro r hr
    induction r with
    | nil => exact hl
    | cons v r ih =>
      obtain ⟨hv, hr⟩ := List.forall_mem_cons.1 hr
      rw [itemPlaces, List.append_assoc]
      exact .cons (by decide) (by decide) (.cons (by decide) (by decide)
        (h v hv (hlast _) (ih hr)))
  cases items with
  | nil => exact hl
  | cons v r =>
    rw [List.map_cons, joinWith_behind, itemPlaces, List.append_assoc]
    exact h v List.mem_cons_self (hlast _) (hbehind fun w hw => List.mem_cons_of_mem v hw)

theorem Keyless.laid {v : Result} (h : v.Keyless) (hn : v.Nested) {rest : List Char}
    {ps : List (List Char × List Char)} (hr : Parted rest) (hrest : Laid rest ps) :
    Laid (chars v ++ rest) (v.places rest ++ ps) := by
  induction h generalizing rest ps with
  | scalar s =>
    cases hn with
    | null => exact .append (forall_mem_of_all (by decide)) hr hrest
    | bool b =>
      refine .append ?_ hr hrest
      cases b <;> exact forall_mem_of_all (by decide)
    | @int i _ => exact .append (unquoted_int i) hr hrest
    | str s =>
      rw [chars_str]
      exact @Laid.string [] s.toList rest ps (by simp [Unquoted]) (by simp) hr hrest
  | @sequence items _ ih =>
    cases hn with
    | sequence hn =>
      rw [chars_sequence, List.cons_append, List.append_assoc, List.singleton_append]
      exact .cons (by decide) (by decide) (laid_items
        (fun texts => parted_chars_behind (.inl rfl) texts rest)
        (.cons (by decide) (by decide) hrest) fun v hv => ih v hv (hn v hv))
  | empty =>
    exact .cons (by decide) (by decide) (.cons (by decide) (by decide) hrest)

theorem Keyless.legible {v : Result} (h : v.Keyless) (hn : v.Nested)
    (hc : v.isSequence = true ∨ v.isMapping = true)
    (hread : Literal.read v.text = v.datum.literal) : v.Legible := by
  have hlaid : Laid (chars v) (v.places []) := by
    simpa using h.laid hn parted_nil (.plain (by simp [Unquoted]))
  rw [text_of_collection hc] at hread
  refine held_of_read hlaid (trim_chars hc) hread (fun e he => ?_) (h.strings hn [])
  cases hn <;> cases he

/-- A sequence or a mapping whose quotes close at their places is read as its own value, so no two
of them have one text unless they are the same up to the order of mappings. Without keys, a result
is read as its own value only if its quotes close at their places. -/
theorem text_read {v : Result} (h : v.Nested) (hc : v.isSequence = true ∨ v.isMapping = true) :
    (v.Legible → Literal.read v.text = v.datum.literal) ∧
    (v.Keyless → Literal.read v.text = v.datum.literal → v.Legible) ∧
    ∀ w : Result, w.Nested → w.isSequence = true ∨ w.isMapping = true → v.Legible → w.Legible →
      v.text = w.text → v.datum.literal = w.datum.literal := by
  refine ⟨h.read_legible hc, fun hk => hk.legible h hc, fun w hw hcw hv hlw htext => ?_⟩
  rw [← h.read_legible hc hv, htext, hw.read_legible hcw hlw]

theorem legible_of_ordinary {v : Result}
    (h : (v.places []).all (fun p => p.1.all isOrdinary) = true) : v.Legible :=
  fun p hp => held_of_ordinary (List.all_eq_true.1 (List.all_eq_true.1 h p hp)) p.2

/-- A mapping with brackets, commas and double quotes in its strings. -/
def bracketed : Result := .mapping [("a: b", .sequence [.scalar (.str "], ["), .scalar .null]),
  ("\"c\"", .mapping [("\x7d", .scalar (.int (-7)))])]

theorem text_read_of_bracketed : bracketed.Nested ∧ bracketed.Legible ∧
    Literal.read bracketed.text = bracketed.datum.literal := by
  have hnested : bracketed.Nested := by
    have hseq : Nested (.sequence [.scalar (.str "], ["), .scalar .null]) :=
      .sequence (by simpa using ⟨.str _, .null⟩)
    have hmap : Nested (.mapping [("\x7d", .scalar (.int (-7)))]) :=
      .mapping (by simp) (by simpa using .int (by decide))
    exact .mapping (by decide) (by simpa using ⟨hseq, hmap⟩)
  have hlegible : bracketed.Legible := legible_of_ordinary (by decide)
  exact ⟨hnested, hlegible, (text_read hnested (.inr rfl)).1 hlegible⟩

/-- A quote within a string closes it early: the text is no literal, or that of another value. -/
theorem not_text_read :
    (¬∀ v : Result, v.Nested → v.isSequence = true → Literal.read v.text = v.datum.literal) ∧
    ¬∀ v w : Result, v.Nested → w.Nested → v.isSequence = true → w.isSequence = true →
      v.text = w.text → v.datum.literal = w.datum.literal := by
  have hstr : ∀ s, Nested (.sequence [.scalar (.str s)]) := fun s => .sequence (by simpa using .str s)
  refine ⟨fun h => ?_, fun h => ?_⟩
  · have hread := h (.sequence [.scalar (.str "it's")]) (hstr _) rfl
    have hkeyless : Keyless (.sequence [.scalar (.str "it's")]) :=
      .sequence (by simpa using .scalar _)
    have hheld := hkeyless.legible (hstr _) (.inl rfl) hread _ List.mem_cons_self
    exact absurd hheld.closes (by decide)
  · have htwo : Nested (.sequence [.scalar (.str "a"), .scalar (.str "b")]) :=
      .sequence (by simpa using ⟨.str _, .str _⟩)
    have hone := h (.sequence [.scalar (.str "a', 'b")]) _ (hstr _) htwo rfl rfl (by decide)
    simp [datum, itemData, literal, itemLiterals] at hone

end Pipewright.Result
