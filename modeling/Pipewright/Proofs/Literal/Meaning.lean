import Pipewright.Proofs.Literal.Reading

/-! What a printed value stands for, and what is left of a value that is read and printed. -/
namespace Pipewright
open Text Literal

/-! The parts of a printed collection -/

section
variable {α β γ : Type}

/-- Parts with a blank in front of all but the first of them. -/
def spaced (part : List Char → α → β) : (front : List Char) → List α → List β
  | _, [] => []
  | front, a :: as => part front a :: spaced part [' '] as

theorem map_spaced (part : List Char → α → β) {f : β → γ} {g : α → γ}
    (h : ∀ front a, f (part front a) = g a) (front : List Char) (as : List α) :
    (spaced part front as).map f = as.map g := by
  induction as generalizing front with
  | nil => rfl
  | cons a as ih => rw [spaced, List.map_cons, h, ih, List.map_cons]

theorem exists_of_suffix_spaced {part : List Char → α → β} {front : List Char}
    (hf : Trivia front) {as : List α} {p : β} {qs : List β} (h : p :: qs <:+ spaced part front as) :
    ∃ f a bs, Trivia f ∧ a :: bs <:+ as ∧ p = part f a ∧ qs = spaced part [' '] bs := by
  have hblank : Trivia [' '] := .blank (by decide) .nil
  induction as generalizing front with
  | nil => simp [spaced] at h
  | cons a as ih =>
    rw [spaced] at h
    rcases List.suffix_cons_iff.1 h with heq | h
    · obtain ⟨rfl, rfl⟩ := List.cons.inj heq
      exact ⟨front, a, as, hf, List.suffix_rfl, rfl, rfl⟩
    · obtain ⟨f, b, bs, hf, hb, hp⟩ := ih hblank h
      exact ⟨f, b, bs, hf, hb.trans (List.suffix_cons a as), hp⟩

theorem exists_of_mem_spaced {part : List Char → α → β} {front : List Char} (hf : Trivia front)
    {as : List α} {p : β} (h : p ∈ spaced part front as) :
    ∃ f a, Trivia f ∧ a ∈ as ∧ p = part f a := by
  obtain ⟨before, qs, hqs⟩ := List.append_of_mem h
  obtain ⟨f, a, bs, hf, hbs, hp, -⟩ := exists_of_suffix_spaced hf ⟨before, hqs.symm⟩
  exact ⟨f, a, hf, hbs.subset List.mem_cons_self, hp⟩

theorem behind_spaced {part : List Char → α → β} {written : β → List Char}
    {text : α → List Char} (h : ∀ front a, written (part front a) = front ++ text a)
    (as : List α) (last : List Char) :
    behind [','] ((spaced part [' '] as).map written) last =
      behind [',', ' '] (as.map text) last := by
  induction as with
  | nil => rfl
  | cons a as ih => simp [spaced, behind, h, ih]

theorem joinWith_spaced {part : List Char → α → β} {written : β → List Char}
    {text : α → List Char} (h : ∀ front a, written (part front a) = front ++ text a)
    (front : List Char) (a : α) (as : List α) :
    joinWith [','] ((spaced part front (a :: as)).map written) =
      front ++ joinWith [',', ' '] ((a :: as).map text) := by
  induction as generalizing front a with
  | nil => simp [spaced, joinWith, h]
  | cons b as ih =>
    rw [spaced, List.map_cons, h, List.map_cons]
    have hrest := ih [' '] b
    rw [spaced, List.map_cons] at hrest ⊢
    rw [joinWith, hrest, List.map_cons, joinWith]
    simp

theorem enclosed_spaced {part : List Char → α → β} {written : β → List Char}
    (text : α → List Char) (h : ∀ front a, written (part front a) = front ++ text a)
    (opening closing : Char) (as : List α) :
    enclosed opening closing ((spaced part [] as).map written) [] =
      opening :: (joinWith [',', ' '] (as.map text) ++ [closing]) := by
  cases as with
  | nil => rfl
  | cons a as => rw [enclosed, joinWith_spaced h, List.nil_append, List.append_nil]

end

theorem tail_nil (parts : Bool) : Tail parts [] := by
  cases parts with
  | false => exact .empty .nil
  | true => exact .nil

namespace Literal

def itemPiece (front : List Char) (v : Literal) : Piece Datum := ⟨front, chars v, [], v.meaning⟩

def entryPair (front : List Char) (e : String × Literal) : Pair :=
  (⟨front, quote e.1.toList, [], .str e.1⟩, itemPiece [' '] e.2)

theorem itemChars_eq (items : List Literal) :
    itemChars items = joinWith [',', ' '] (items.map chars) := by
  induction items with
  | nil => rfl
  | cons v items ih =>
    cases items with
    | nil => rfl
    | cons w items =>
      rw [itemChars, ih]
      simp [joinWith]

theorem entryChars_eq (entries : List (String × Literal)) :
    entryChars entries = joinWith [',', ' ']
      (entries.map fun e => quote e.1.toList ++ ':' :: ' ' :: chars e.2) := by
  induction entries with
  | nil => rfl
  | cons e entries ih =>
    cases entries with
    | nil => rfl
    | cons f entries =>
      rw [entryChars, ih]
      simp [joinWith]

theorem denotes_quote {s : String} (h : IsText s) : Denotes (quote s.toList) (.str s) := by
  have hstr := Denotes.str (.inl rfl) (written_escapeAll s.toList) (not_mem_escapeAll h)
  rwa [String.ofList_toList] at hstr

theorem whole_toString {i : Int} (h : i.natAbs < Nat.pow 2 63) : Whole (toString i).toList i := by
  cases i with
  | ofNat n => exact toString_ofNat n ▸ .numeral (numeral_toDigits n) h
  | negSucc n =>
    have hgap : ∀ c ∈ ([] : List Char), c ∈ [' ', '\t'] := by simp
    rw [toString_negSucc]
    exact .minus hgap (.numeral (numeral_toDigits (n + 1)) h)

/-- A printed value stands for what the value means. -/
theorem Plain.denotes {l : Literal} (h : Plain IsText IsWhole l) :
    Denotes (chars l) l.meaning := by
  induction h with
  | none => exact .none
  | bool b =>
    cases b with
    | true => exact .yes
    | false => exact .no
  | int h => exact .int (whole_toString (natAbs_lt_of_isWhole h))
  | str h => exact denotes_quote h
  | @list items h ih =>
    have htext : chars (.list items) =
        enclosed '[' ']' ((spaced itemPiece [] items).map Piece.written) [] := by
      rw [enclosed_spaced chars (by simp [itemPiece, Piece.written]), chars, itemChars_eq]
    have hvalue : (spaced itemPiece [] items).map Piece.value = items.map meaning :=
      map_spaced itemPiece (fun _ _ => rfl) [] items
    rw [htext, meaning, itemMeanings_eq, ← hvalue]
    refine .list (fun p hp => ?_) (fun p hp => ?_) (tail_nil _)
    · obtain ⟨f, v, hf, hv, rfl⟩ := exists_of_mem_spaced .nil hp
      exact ⟨hf, .nil⟩
    · obtain ⟨f, v, hf, hv, rfl⟩ := exists_of_mem_spaced .nil hp
      exact ih v hv
  | @map entries ordered names h ih =>
    have htext : chars (.map entries) =
        enclosed '{' '}' ((spaced entryPair [] entries).map Pair.written) [] := by
      rw [enclosed_spaced (fun e => quote e.1.toList ++ ':' :: ' ' :: chars e.2)
        (by simp [entryPair, itemPiece, Pair.written, Piece.written]), chars, entryChars_eq]
    have hvalue : (spaced entryPair [] entries).map Pair.entry =
        entries.map fun e => (.str e.1, e.2.meaning) :=
      map_spaced entryPair (fun _ _ => rfl) [] entries
    have hkeys : (spaced entryPair [] entries).map (fun p => p.1.value.index) =
        (entries.map Prod.fst).map Key.str := by
      rw [List.map_map]
      exact map_spaced entryPair (fun _ _ => rfl) [] entries
    have hapart : ((spaced entryPair [] entries).map fun p => p.1.value.index).Nodup := by
      rw [hkeys]
      exact ordered.nodup_names.map fun _ _ hk => Key.str.inj hk
    have hblank : Trivia [' '] := .blank (by decide) .nil
    rw [htext, meaning, entryMeanings_eq, ← hvalue]
    refine .dict (fun p hp => ?_) (fun p hp => ?_) (fun p hp => ?_) hapart (tail_nil _)
    · obtain ⟨f, e, hf, he, rfl⟩ := exists_of_mem_spaced .nil hp
      exact ⟨⟨hf, .nil⟩, hblank, .nil⟩
    · obtain ⟨f, e, hf, he, rfl⟩ := exists_of_mem_spaced .nil hp
      exact denotes_quote (names e he)
    · obtain ⟨f, e, hf, he, rfl⟩ := exists_of_mem_spaced .nil hp
      exact ih e he

end Literal

open Datum

variable {text : List Char} {v : Datum}

theorem Denotes.denotes_script (h : Denotes text v) :
    Denotes (Literal.read (String.ofList text)).script.toList v.literal.meaning := by
  rw [h.read, script, String.toList_ofList]
  exact h.proper.plain.denotes

/-- A dictionary that has a number and a string of the same text for keys. -/
def mixedKeys : Datum := .dict [(.int 1, .str "a"), (.str "1", .list [.int (-2), .dict []])]

def mixedKeysText : List Char := "\x7b1: 'a', '1' : [- 0x2, \x7b\x7d],\x7d".toList

theorem denotes_mixedKeys : Denotes mixedKeysText mixedKeys := by
  have hblank : Trivia [' '] := .blank (by decide) .nil
  have hone : Denotes "1".toList (.int 1) :=
    .int (.numeral (.decimal (.last rfl) (by simp) rfl) (by decide))
  have htwo : Denotes "- 0x2".toList (.int (-2)) := by
    have hnumeral : Numeral "0x2".toList 2 :=
      @Numeral.based 'x' 16 [] ['2'] ['2'] 2 (by decide) (.inl rfl) (.last rfl) rfl
    exact .int (@Whole.minus [' '] _ _ (by simp) (.numeral hnumeral (by decide)))
  have hdict : Denotes "\x7b\x7d".toList (.dict []) :=
    @Denotes.dict [] [] (by simp) (by simp) (by simp) (by simp) (tail_nil _)
  have hlist : Denotes "[- 0x2, \x7b\x7d]".toList (.list [.int (-2), .dict []]) := by
    refine @Denotes.list [⟨[], "- 0x2".toList, [], .int (-2)⟩,
      ⟨[' '], "\x7b\x7d".toList, [], .dict []⟩] [] ?_ ?_ (tail_nil _)
    · simp [Piece.Spaced, Trivia.nil, hblank]
    · simpa using ⟨htwo, hdict⟩
  refine @Denotes.dict [(⟨[], "1".toList, [], .int 1⟩, ⟨[' '], "'a'".toList, [], .str "a"⟩),
    (⟨[' '], "'1'".toList, [' '], .str "1"⟩,
      ⟨[' '], "[- 0x2, \x7b\x7d]".toList, [], .list [.int (-2), .dict []]⟩)] [',']
    ?_ ?_ ?_ (by decide) (.comma .nil)
  · simp [Piece.Spaced, Trivia.nil, hblank]
  · simpa [ofKey] using ⟨hone, denotes_quote (s := "1") (by decide)⟩
  · simpa using ⟨denotes_quote (s := "a") (by decide), hlist⟩

/-- The written form of a value that is read stands for one value: that of the text with the texts
of keys for the keys, which is the same value if all keys are strings, and only then. -/
theorem Denotes.script_read (h : Denotes text v) :
    ∃ w, (∀ x, Denotes (Literal.read (String.ofList text)).script.toList x ↔ x = w) ∧
      TextKeyed v w ∧ (Alike v w ↔ StringKeyed v) := by
  have hscript := h.denotes_script
  have hstrings := stringKeyed_meaning h.proper.plain
  refine ⟨v.literal.meaning, fun x => ⟨fun hx => hx.unique hscript, ?_⟩,
    h.proper.textKeyed_meaning, fun ha => ha.stringKeyed hstrings, h.proper.alike_meaning⟩
  rintro rfl
  exact hscript

theorem script_read_mixedKeys : Denotes mixedKeysText mixedKeys ∧
    ∃ w, (∀ x, Denotes (Literal.read (String.ofList mixedKeysText)).script.toList x ↔ x = w) ∧
      TextKeyed mixedKeys w ∧ (Alike mixedKeys w ↔ StringKeyed mixedKeys) :=
  ⟨denotes_mixedKeys, denotes_mixedKeys.script_read⟩

/-- A number becomes a string where it is a key. -/
theorem script_mixedKeys_not_alike : Denotes mixedKeysText mixedKeys ∧
    ¬∃ w, Denotes (Literal.read (String.ofList mixedKeysText)).script.toList w ∧
      Alike mixedKeys w := by
  refine ⟨denotes_mixedKeys, fun ⟨w, hw, halike⟩ => ?_⟩
  obtain rfl := hw.unique denotes_mixedKeys.denotes_script
  cases halike.stringKeyed (stringKeyed_meaning denotes_mixedKeys.proper.plain) with
  | dict hkeys =>
    obtain ⟨s, hs⟩ := hkeys _ List.mem_cons_self
    cases hs

end Pipewright
