import Pipewright.Proofs.Literal.Datum

/-! Reading of values whose keys keep their types: what the tokens are read as otherwise is the
literal of the value. -/
namespace Pipewright
open Literal Source

namespace Datum

/-- The value of a literal that is no collection. -/
def leaf? : Literal → Option Datum
  | .none => some .none
  | .bool b => some (.bool b)
  | .int i => some (.int i)
  | .str s => some (.str s)
  | _ => Option.none

def key? : Datum → Option Key
  | .none => some .none
  | .bool b => some (.bool b)
  | .int i => some (.int i)
  | .str s => some (.str s)
  | _ => Option.none

mutual
/-- Reads one value. -/
def readValue : (fuel : Nat) → List Token → Option (Datum × List Token)
  | 0, _ => Option.none
  | _, [] => Option.none
  | n + 1, t :: ts =>
    if t.isMark "[" then (readItems n ts).map fun (vs, r) => (.list vs, r)
    else if t.isMark "\x7b" then (readEntries n ts).map fun (es, r) => (.dict es, r)
    else (Literal.readValue (n + 1) (t :: ts)).bind fun (v, r) => (leaf? v).map (·, r)

def readItems : (fuel : Nat) → List Token → Option (List Datum × List Token)
  | 0, _ => Option.none
  | _, [] => Option.none
  | n + 1, t :: ts =>
    if t.isMark "]" then some ([], ts)
    else
      match readValue n (t :: ts) with
      | some (v, c :: r) =>
        if c.isMark "]" then some ([v], r)
        else if c.isMark "," then (readItems n r).map fun (vs, r) => (v :: vs, r)
        else Option.none
      | _ => Option.none

def readEntries : (fuel : Nat) → List Token → Option (List (Key × Datum) × List Token)
  | 0, _ => Option.none
  | _, [] => Option.none
  | n + 1, t :: ts =>
    if t.isMark "\x7d" then some ([], ts)
    else
      match (readValue n (t :: ts)).bind fun (k, r) => (key? k).map (·, r) with
      | some (k, c :: r) =>
        if !c.isMark ":" then Option.none
        else
          match readValue n r with
          | some (v, e :: r) =>
            if e.isMark "\x7d" then some ([(k, v)], r)
            else if e.isMark "," then (readEntries n r).map fun (es, r) => ((k, v) :: es, r)
            else Option.none
          | _ => Option.none
      | _ => Option.none
end

theorem literal_of_leaf? {l : Literal} {v : Datum} (h : leaf? l = some v) : v.literal = l := by
  cases l <;> cases h <;> rfl

theorem ofKey_of_key? {v : Datum} {k : Key} (h : key? v = some k) : ofKey k = v := by
  cases v <;> cases h <;> rfl

theorem keyText_literal (k : Key) : keyText (ofKey k).literal = k.text := by
  cases k with
  | none => rfl
  | bool b => cases b <;> rfl
  | int i => exact String.ofList_toList
  | str s => rfl

/-- No value starts with a joint. -/
theorem skipJoints_of_readValue {n : Nat} {ts r : List Token} {l : Literal}
    (h : Literal.readValue n ts = some (l, r)) : skipJoints ts = ts := by
  cases n with
  | zero => rw [Literal.readValue] at h; cases h
  | succ n =>
    cases ts with
    | nil => rfl
    | cons t ts =>
      refine skipJoints_of_head fun hk => ?_
      rw [Literal.readValue, hk] at h
      cases h

theorem eq_mark_of_isMark {t : Token} {c : Char} (h : t.isMark (String.singleton c) = true) :
    t = mark t.gap c := by
  simp only [Token.isMark, Bool.and_eq_true, decide_eq_true_eq, String.toList_singleton] at h
  cases t
  obtain ⟨rfl, rfl⟩ := h
  rfl

/-- Whether readers with some fuel agree on what they read. -/
structure Agrees (n : Nat) : Prop where
  value : ∀ ts v r, readValue n ts = some (v, r) → Literal.readValue n ts = some (v.literal, r)
  items : ∀ ts vs r, readItems n ts = some (vs, r) →
    ∃ comma, Literal.readItems n "]" ts = some (vs.map literal, comma, r)
  entries : ∀ ts es r, readEntries n ts = some (es, r) →
    Literal.readEntries n ts = some (es.map fun e => (e.1.text, e.2.literal), r)

theorem Agrees.value_succ {n : Nat} (h : Agrees n) {t : Token} {ts r : List Token} {v : Datum}
    (hr : readValue (n + 1) (t :: ts) = some (v, r)) :
    Literal.readValue (n + 1) (t :: ts) = some (v.literal, r) := by
  rw [readValue] at hr
  split at hr
  · rename_i ht
    obtain ⟨⟨vs, r⟩, hitems, he⟩ := Option.map_eq_some_iff.1 hr
    cases he
    obtain ⟨comma, hread⟩ := h.items ts vs r hitems
    rw [eq_mark_of_isMark (c := '[') ht, Literal.readValue]
    simp [hread, literal, itemLiterals_eq]
  split at hr
  · rename_i ht
    obtain ⟨⟨es, r⟩, hentries, he⟩ := Option.map_eq_some_iff.1 hr
    cases he
    have hread := h.entries ts es r hentries
    rw [eq_mark_of_isMark (c := '{') ht, Literal.readValue]
    simp [hread, literal, entryLiterals_eq]
  · obtain ⟨⟨l, r⟩, hread, hleaf⟩ := Option.bind_eq_some_iff.1 hr
    obtain ⟨w, hw, he⟩ := Option.map_eq_some_iff.1 hleaf
    cases he
    rw [hread, literal_of_leaf? hw]

theorem Agrees.items_succ {n : Nat} (h : Agrees n) {t : Token} {ts r : List Token}
    {vs : List Datum} (hr : readItems (n + 1) (t :: ts) = some (vs, r)) :
    ∃ comma, Literal.readItems (n + 1) "]" (t :: ts) = some (vs.map literal, comma, r) := by
  rw [readItems] at hr
  rw [Literal.readItems]
  split at hr
  · rename_i hclose
    cases hr
    exact ⟨false, if_pos hclose⟩
  rename_i hclose
  rw [if_neg hclose]
  split at hr
  · rename_i hread
    rw [h.value _ _ _ hread]
    dsimp only
    split at hr
    · rename_i hc
      cases hr
      exact ⟨false, if_pos hc⟩
    rename_i hc
    rw [if_neg hc]
    split at hr
    · rename_i hcomma
      obtain ⟨⟨ws, r⟩, hitems, he⟩ := Option.map_eq_some_iff.1 hr
      cases he
      obtain ⟨comma, hrest⟩ := h.items _ _ _ hitems
      rw [if_pos hcomma, hrest]
      exact ⟨_, rfl⟩
    · cases hr
  · cases hr

theorem Agrees.key {n : Nat} (h : Agrees n) {ts ks : List Token} {c : Token} {k : Key}
    (hkey : ((readValue n ts).bind fun (k, r) => (key? k).map (·, r)) = some (k, c :: ks))
    (hc : c.isMark ":" = true) : (Literal.readValue n ts).map (fun (k, r) => (k, skipJoints r)) =
      some ((ofKey k).literal, c :: ks) := by
  obtain ⟨⟨d, r⟩, hread, hmap⟩ := Option.bind_eq_some_iff.1 hkey
  obtain ⟨k, hk, he⟩ := Option.map_eq_some_iff.1 hmap
  cases he
  have hjoint : skipJoints (c :: ks) = c :: ks := by
    simp only [Token.isMark, Bool.and_eq_true, decide_eq_true_eq] at hc
    exact skipJoints_of_head (by simp [hc.1])
  rw [h.value _ _ _ hread, Option.map_some]
  dsimp only
  rw [hjoint, ofKey_of_key? hk]

theorem Agrees.entries_succ {n : Nat} (h : Agrees n) {t : Token} {ts r : List Token}
    {es : List (Key × Datum)} (hr : readEntries (n + 1) (t :: ts) = some (es, r)) :
    Literal.readEntries (n + 1) (t :: ts) =
      some (es.map fun e => (e.1.text, e.2.literal), r) := by
  rw [readEntries] at hr
  rw [Literal.readEntries]
  split at hr
  · rename_i hclose
    cases hr
    exact if_pos hclose
  rename_i hclose
  rw [if_neg hclose]
  split at hr
  · rename_i k c ks hkey
    split at hr
    · cases hr
    rename_i hcolon
    have hmark : c.isMark ":" = true := by simpa using hcolon
    rw [h.key hkey hmark]
    dsimp only
    rw [if_neg hcolon]
    split at hr
    · rename_i v e vs hvalue
      have hv := h.value _ _ _ hvalue
      rw [skipJoints_of_readValue hv, hv, keyText_literal]
      dsimp only
      split at hr
      · rename_i he
        cases hr
        exact if_pos he
      rename_i he
      rw [if_neg he]
      split at hr
      · rename_i hcomma
        obtain ⟨⟨es, r⟩, hentries, he⟩ := Option.map_eq_some_iff.1 hr
        cases he
        rw [if_pos hcomma, h.entries _ _ _ hentries]
        rfl
      · cases hr
    · cases hr
  · cases hr

theorem agrees (n : Nat) : Agrees n := by
  induction n with
  | zero =>
    refine ⟨fun ts v r hr => ?_, fun ts vs r hr => ?_, fun ts es r hr => ?_⟩
    · rw [readValue] at hr
      cases hr
    · rw [readItems] at hr
      cases hr
    · rw [readEntries] at hr
      cases hr
  | succ n ih =>
    refine ⟨fun ts v r hr => ?_, fun ts vs r hr => ?_, fun ts es r hr => ?_⟩
    · cases ts with
      | nil => cases hr
      | cons t ts => exact ih.value_succ hr
    · cases ts with
      | nil => cases hr
      | cons t ts => exact ih.items_succ hr
    · cases ts with
      | nil => cases hr
      | cons t ts => exact ih.entries_succ hr

end Datum
end Pipewright
