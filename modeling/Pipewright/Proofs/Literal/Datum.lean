import Mathlib.Data.List.Perm.Basic
import Pipewright.Proofs.Literal.ReadBack

/-! Values as scripts have them: the keys of a dictionary keep their types. -/
namespace Pipewright
open Literal

/-- A key of a dictionary. -/
inductive Key where
  | none
  | bool (b : Bool)
  | int (i : Int)
  | str (s : String)
  deriving DecidableEq, Repr

namespace Key

/-- Keys with the same index are one key of a dictionary: truth values count as numbers. -/
def index : Key → Key
  | .bool b => .int (if b then 1 else 0)
  | k => k

/-- The text of a key: a string itself, else the script text. -/
def text : Key → String
  | .none => "None"
  | .bool true => "True"
  | .bool false => "False"
  | .int i => toString i
  | .str s => s

end Key

/-- A value of a script. -/
inductive Datum where
  | none
  | bool (b : Bool)
  | int (i : Int)
  | str (s : String)
  | list (items : List Datum)
  | dict (entries : List (Key × Datum))
  deriving Repr

namespace Datum

def ofKey : Key → Datum
  | .none => .none
  | .bool b => .bool b
  | .int i => .int i
  | .str s => .str s

mutual
/-- The literal that stands for a value. -/
def literal : Datum → Literal
  | .none => .none
  | .bool b => .bool b
  | .int i => .int i
  | .str s => .str s
  | .list items => .list (itemLiterals items)
  | .dict entries => .ofEntries (entryLiterals entries)

def itemLiterals : List Datum → List Literal
  | [] => []
  | v :: r => literal v :: itemLiterals r

def entryLiterals : List (Key × Datum) → List (String × Literal)
  | [] => []
  | (k, v) :: r => (k.text, literal v) :: entryLiterals r
end

/-- Values that are equal up to the order of dictionaries. -/
inductive Alike : Datum → Datum → Prop where
  | none : Alike .none .none
  | bool (b : Bool) : Alike (.bool b) (.bool b)
  | int (i : Int) : Alike (.int i) (.int i)
  | str (s : String) : Alike (.str s) (.str s)
  | list {vs ws : List Datum} (hlength : vs.length = ws.length)
      (h : ∀ p ∈ vs.zip ws, Alike p.1 p.2) : Alike (.list vs) (.list ws)
  | dict {es fs gs : List (Key × Datum)} (hperm : gs.Perm fs)
      (hkeys : es.map Prod.fst = gs.map Prod.fst)
      (h : ∀ p ∈ es.zip gs, Alike p.1.2 p.2.2) : Alike (.dict es) (.dict fs)

/-- The entries of a dictionary under the texts of their keys; of entries whose keys have one text
the last counts. -/
def underTexts (es : List (Key × Datum)) : List (String × Datum) :=
  Entries.putAll (es.map fun e => (e.1.text, e.2))

/-- What a value becomes when the texts of keys stand for them, up to the order of dictionaries. -/
inductive TextKeyed : Datum → Datum → Prop where
  | none : TextKeyed .none .none
  | bool (b : Bool) : TextKeyed (.bool b) (.bool b)
  | int (i : Int) : TextKeyed (.int i) (.int i)
  | str (s : String) : TextKeyed (.str s) (.str s)
  | list {vs ws : List Datum} (hlength : vs.length = ws.length)
      (h : ∀ p ∈ vs.zip ws, TextKeyed p.1 p.2) : TextKeyed (.list vs) (.list ws)
  | dict {es fs gs : List (Key × Datum)} (hperm : gs.Perm fs)
      (hkeys : (underTexts es).map (fun e => Key.str e.1) = gs.map Prod.fst)
      (h : ∀ p ∈ (underTexts es).zip gs, TextKeyed p.1.2 p.2.2) : TextKeyed (.dict es) (.dict fs)

/-- Values whose dictionaries all have strings for keys. -/
inductive StringKeyed : Datum → Prop where
  | none : StringKeyed .none
  | bool (b : Bool) : StringKeyed (.bool b)
  | int (i : Int) : StringKeyed (.int i)
  | str (s : String) : StringKeyed (.str s)
  | list {vs : List Datum} (h : ∀ v ∈ vs, StringKeyed v) : StringKeyed (.list vs)
  | dict {es : List (Key × Datum)} (hkeys : ∀ e ∈ es, ∃ s, e.1 = .str s)
      (h : ∀ e ∈ es, StringKeyed e.2) : StringKeyed (.dict es)

/-- Values that can be written: texts without null characters, integers that fit, and keys that
are apart. -/
inductive Proper : Datum → Prop where
  | none : Proper .none
  | bool (b : Bool) : Proper (.bool b)
  | int {i : Int} (h : IsWhole i) : Proper (.int i)
  | str {s : String} (h : IsText s) : Proper (.str s)
  | list {vs : List Datum} (h : ∀ v ∈ vs, Proper v) : Proper (.list vs)
  | dict {es : List (Key × Datum)} (apart : (es.map fun e => e.1.index).Nodup)
      (keys : ∀ e ∈ es, Proper (ofKey e.1)) (h : ∀ e ∈ es, Proper e.2) : Proper (.dict es)

end Datum

namespace Literal

mutual
/-- The value that a literal stands for. -/
def meaning : Literal → Datum
  | .none | .float _ | .expr _ => .none
  | .bool b => .bool b
  | .int i => .int i
  | .str s => .str s
  | .list items => .list (itemMeanings items)
  | .map entries => .dict (entryMeanings entries)

def itemMeanings : List Literal → List Datum
  | [] => []
  | v :: r => meaning v :: itemMeanings r

def entryMeanings : List (String × Literal) → List (Key × Datum)
  | [] => []
  | (k, v) :: r => (.str k, meaning v) :: entryMeanings r
end

end Literal

namespace Datum

theorem itemLiterals_eq (vs : List Datum) : itemLiterals vs = vs.map literal := by
  induction vs with
  | nil => rfl
  | cons v vs ih => rw [itemLiterals, ih, List.map_cons]

theorem entryLiterals_eq (es : List (Key × Datum)) :
    entryLiterals es = es.map fun e => (e.1.text, e.2.literal) := by
  induction es with
  | nil => rfl
  | cons e es ih => rw [entryLiterals, ih, List.map_cons]

end Datum

namespace Literal

theorem itemMeanings_eq (vs : List Literal) : itemMeanings vs = vs.map meaning := by
  induction vs with
  | nil => rfl
  | cons v vs ih => rw [itemMeanings, ih, List.map_cons]

theorem entryMeanings_eq (es : List (String × Literal)) :
    entryMeanings es = es.map fun e => (.str e.1, e.2.meaning) := by
  induction es with
  | nil => rfl
  | cons e es ih => rw [entryMeanings, ih, List.map_cons]

end Literal

namespace Datum
open Literal
variable {v w : Datum}

theorem isText_int (i : Int) : IsText (toString i) := fun h =>
  forall_mem_toString_int (p := (· ≠ '\x00')) (by decide) (by decide) i _ h rfl

theorem isText_text {k : Key} (h : Proper (ofKey k)) : IsText k.text := by
  cases k with
  | none => decide
  | bool b => cases b <;> decide
  | int i => exact isText_int i
  | str s =>
    cases h with
    | str h => exact h

/-! The entries that are left -/

theorem mem_zip_map {α β : Type*} {f : α → β} {as : List α} {p : α × β}
    (h : p ∈ as.zip (as.map f)) : p.1 ∈ as ∧ p.2 = f p.1 := by
  induction as with
  | nil => simp at h
  | cons a as ih =>
    rw [List.map_cons, List.zip_cons_cons] at h
    rcases List.mem_cons.1 h with rfl | h
    · exact ⟨List.mem_cons_self, rfl⟩
    · exact (ih h).imp_left (List.mem_cons_of_mem a)

theorem exists_of_mem_putAll {es : List (Key × Datum)} {e : String × Datum}
    (h : e ∈ underTexts es) : ∃ d ∈ es, d.1.text = e.1 ∧ d.2 = e.2 := by
  have hlast := List.mem_of_getLast? (Entries.getLast?_of_mem_putAll h)
  obtain ⟨d, hd, rfl⟩ := List.mem_map.1 (List.mem_filter.1 hlast).1
  exact ⟨d, hd, rfl, rfl⟩

/-- The entries of a dictionary as a literal are those under the texts of its keys, in order. -/
theorem literal_dict (es : List (Key × Datum)) : literal (.dict es) =
    .map ((Entries.sort (es.map fun e => (e.1.text, e.2))).map fun e => (e.1, e.2.literal)) := by
  rw [literal, entryLiterals_eq, ofEntries, ← Entries.sort_map, List.map_map]
  rfl

theorem sort_perm_underTexts (es : List (Key × Datum)) :
    (Entries.sort (es.map fun e => (e.1.text, e.2))).Perm (underTexts es) :=
  Entries.sort_perm_putAll _

theorem meaning_literal_dict (es : List (Key × Datum)) : (literal (.dict es)).meaning =
    .dict ((Entries.sort (es.map fun e => (e.1.text, e.2))).map fun e =>
      (.str e.1, e.2.literal.meaning)) := by
  rw [literal_dict, meaning, entryMeanings_eq, List.map_map]
  rfl

theorem meaning_literal_list (vs : List Datum) :
    (literal (.list vs)).meaning = .list (vs.map fun v => v.literal.meaning) := by
  rw [literal, itemLiterals_eq, meaning, itemMeanings_eq, List.map_map]
  rfl

/-! What a literal makes of a value -/

theorem Proper.plain (h : Proper v) : Plain IsText IsWhole v.literal := by
  induction h with
  | none => exact .none
  | bool b => exact .bool b
  | int h => exact .int h
  | str h => exact .str h
  | list _ ih =>
    rw [literal, itemLiterals_eq]
    exact .list (List.forall_mem_map.2 ih)
  | @dict es _ keys _ _ ih =>
    rw [literal_dict, ← Entries.sort_map]
    have hmem : ∀ e ∈ Entries.sort ((es.map fun e => (e.1.text, e.2)).map fun e =>
        (e.1, e.2.literal)), IsText e.1 ∧ Plain IsText IsWhole e.2 := by
      rw [Entries.sort_map]
      refine List.forall_mem_map.2 fun e he => ?_
      obtain ⟨d, hd, hkey, hvalue⟩ :=
        exists_of_mem_putAll ((sort_perm_underTexts es).mem_iff.1 he)
      exact ⟨hkey ▸ isText_text (keys d hd), hvalue ▸ ih d hd⟩
    exact .map (Entries.ordered_sort _) (fun e he => (hmem e he).1) fun e he => (hmem e he).2

theorem Proper.textKeyed_meaning (h : Proper v) : TextKeyed v v.literal.meaning := by
  induction h with
  | none => exact .none
  | bool b => exact .bool b
  | int => exact .int _
  | str => exact .str _
  | @list vs _ ih =>
    rw [meaning_literal_list]
    refine .list (List.length_map _).symm fun p hp => ?_
    obtain ⟨hv, he⟩ := mem_zip_map hp
    exact he ▸ ih p.1 hv
  | @dict es _ _ _ _ ih =>
    rw [meaning_literal_dict]
    refine .dict ((sort_perm_underTexts es).symm.map _) (by simp) fun p hp => ?_
    obtain ⟨hp, he⟩ := mem_zip_map hp
    obtain ⟨d, hd, -, hvalue⟩ := exists_of_mem_putAll hp
    rw [he, ← hvalue]
    exact ih d hd

/-- Strings that are apart as keys are apart as texts. -/
theorem nodup_texts {es : List (Key × Datum)} (h : (es.map fun e => e.1.index).Nodup)
    (hs : ∀ e ∈ es, ∃ s, e.1 = .str s) : (es.map fun e => e.1.text).Nodup := by
  have hindex : es.map (fun e => e.1.index) = (es.map fun e => e.1.text).map Key.str := by
    rw [List.map_map]
    refine List.map_congr_left fun e he => ?_
    obtain ⟨s, hs⟩ := hs e he
    rw [Function.comp_apply, hs]
    rfl
  rw [hindex] at h
  exact .of_map _ h

theorem Proper.alike_meaning (h : Proper v) (hs : StringKeyed v) : Alike v v.literal.meaning := by
  induction h with
  | none => exact .none
  | bool b => exact .bool b
  | int => exact .int _
  | str => exact .str _
  | @list vs _ ih =>
    cases hs with
    | list hs =>
      rw [meaning_literal_list]
      refine .list (List.length_map _).symm fun p hp => ?_
      obtain ⟨hv, he⟩ := mem_zip_map hp
      exact he ▸ ih p.1 hv (hs p.1 hv)
  | @dict es apart _ _ _ ih =>
    cases hs with
    | dict hkeys hs =>
      have hleft : underTexts es = es.map fun e => (e.1.text, e.2) :=
        Entries.putAll_of_nodup (by rw [List.map_map]; exact nodup_texts apart hkeys)
      have hsame : (es.map fun e => (e.1.text, e.2)).map
          (fun e => (Key.str e.1, e.2.literal.meaning)) =
            es.map fun e => (e.1, e.2.literal.meaning) := by
        rw [List.map_map]
        refine List.map_congr_left fun e he => ?_
        obtain ⟨s, hstr⟩ := hkeys e he
        simp [hstr, Key.text]
      have hperm := (sort_perm_underTexts es).map fun e => (Key.str e.1, e.2.literal.meaning)
      rw [hleft, hsame] at hperm
      rw [meaning_literal_dict]
      refine .dict hperm.symm (by simp) fun p hp => ?_
      obtain ⟨he, hvalue⟩ := mem_zip_map hp
      exact hvalue ▸ ih p.1 he (hs p.1 he)

theorem stringKeyed_meaning {l : Literal} (h : Plain IsText IsWhole l) :
    StringKeyed l.meaning := by
  induction h with
  | none => exact .none
  | bool b => exact .bool b
  | int => exact .int _
  | str => exact .str _
  | list _ ih =>
    rw [meaning, itemMeanings_eq]
    exact .list (List.forall_mem_map.2 ih)
  | map _ _ _ ih =>
    rw [meaning, entryMeanings_eq]
    exact .dict (List.forall_mem_map.2 fun e _ => ⟨e.1, rfl⟩) (List.forall_mem_map.2 ih)

theorem exists_mem_zip {α β : Type*} {as : List α} {bs : List β}
    (hlength : as.length = bs.length) {a : α} (ha : a ∈ as) : ∃ b ∈ bs, (a, b) ∈ as.zip bs := by
  obtain ⟨i, hi, rfl⟩ := List.getElem_of_mem ha
  have hzip : i < (as.zip bs).length := by
    rw [List.length_zip]
    omega
  refine ⟨bs[i], List.getElem_mem _, ?_⟩
  rw [← List.getElem_zip (h := hzip)]
  exact List.getElem_mem hzip

theorem Alike.stringKeyed (h : Alike v w) (hw : StringKeyed w) : StringKeyed v := by
  induction h with
  | none => exact .none
  | bool b => exact .bool b
  | int => exact .int _
  | str => exact .str _
  | list hlength _ ih =>
    cases hw with
    | list hw =>
      refine .list fun v hv => ?_
      obtain ⟨w, hmem, hzip⟩ := exists_mem_zip hlength hv
      exact ih (v, w) hzip (hw w hmem)
  | @dict es fs gs hperm hkeys _ ih =>
    cases hw with
    | dict hstrings hvalues =>
      have hlength : es.length = gs.length := by
        simpa using congrArg List.length hkeys
      refine .dict (fun e he => ?_) fun e he => ?_
      · have hmem : e.1 ∈ gs.map Prod.fst := hkeys ▸ List.mem_map_of_mem he
        obtain ⟨g, hg, hkey⟩ := List.mem_map.1 hmem
        exact hkey ▸ hstrings g (hperm.mem_iff.1 hg)
      · obtain ⟨g, hg, hzip⟩ := exists_mem_zip hlength he
        exact ih (e, g) hzip (hvalues g (hperm.mem_iff.1 hg))

end Datum
end Pipewright
