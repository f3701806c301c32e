import Pipewright.Proofs.Literal.RoundTrip

/-! What the readers of values can do in one step. -/
namespace Pipewright.Literal
open Text Source

/-- A value whose first token is `t`, and the tokens behind it. -/
inductive ValueStep (n : Nat) (t : Token) (ts : List Token) : Literal → List Token → Prop where
  | word {v : Literal} (hk : t.kind = .word) (h : wordValue? t = some v) : ValueStep n t ts v ts
  | whole {v : Literal} (hk : t.kind = .whole) (h : wholeValue? t.text = some v) :
      ValueStep n t ts v ts
  | decimal {v : Literal} (hk : t.kind = .decimal) (h : decimalValue? t.text = some v) :
      ValueStep n t ts v ts
  | string {v : Literal} (hk : t.kind = .string)
      (h : joinStrings? (t :: (takeStrings ts).1) = some v) :
      ValueStep n t ts v (takeStrings ts).2
  | signed {v w : Literal} {r : List Token} (hm : t.isMark "-" = true ∨ t.isMark "+" = true)
      (h : readValue n (skipJoints ts) = some (w, r))
      (hv : signed? (t.isMark "-") w = some v) : ValueStep n t ts v r
  | list {vs : List Literal} {comma : Bool} {r : List Token} (hm : t.isMark "[" = true)
      (h : readItems n "]" ts = some (vs, comma, r)) : ValueStep n t ts (.list vs) r
  | single {v : Literal} {r : List Token} (hm : t.isMark "(" = true)
      (h : readItems n ")" ts = some ([v], false, r)) : ValueStep n t ts v r
  | tuple {vs : List Literal} {comma : Bool} {r : List Token} (hm : t.isMark "(" = true)
      (h : readItems n ")" ts = some (vs, comma, r)) : ValueStep n t ts (.list vs) r
  | map {es : List (String × Literal)} {r : List Token} (hm : t.isMark "\x7b" = true)
      (h : readEntries n ts = some (es, r)) : ValueStep n t ts (ofEntries es) r

/-- Items up to a closing bracket. -/
inductive ItemsStep (n : Nat) (close : String) (t : Token) (ts : List Token) :
    List Literal → List Token → Prop where
  | close (hm : t.isMark close = true) : ItemsStep n close t ts [] ts
  | last {v : Literal} {c : Token} {r : List Token} (h : readValue n (t :: ts) = some (v, c :: r))
      (hc : c.isMark close = true) : ItemsStep n close t ts [v] r
  | more {v : Literal} {c : Token} {r s : List Token} {vs : List Literal} {comma : Bool}
      (h : readValue n (t :: ts) = some (v, c :: r)) (hc : c.isMark "," = true)
      (hs : readItems n close r = some (vs, comma, s)) : ItemsStep n close t ts (v :: vs) s

/-- Entries up to the closing brace. -/
inductive EntriesStep (n : Nat) (t : Token) (ts : List Token) :
    List (String × Literal) → List Token → Prop where
  | close (hm : t.isMark "\x7d" = true) : EntriesStep n t ts [] ts
  | last {k v : Literal} {c e : Token} {p q r : List Token}
      (hk : readValue n (t :: ts) = some (k, p)) (hp : skipJoints p = c :: q)
      (hc : c.isMark ":" = true) (hv : readValue n (skipJoints q) = some (v, e :: r))
      (he : e.isMark "\x7d" = true) : EntriesStep n t ts [(keyText k, v)] r
  | more {k v : Literal} {c e : Token} {p q r s : List Token} {es : List (String × Literal)}
      (hk : readValue n (t :: ts) = some (k, p)) (hp : skipJoints p = c :: q)
      (hc : c.isMark ":" = true) (hv : readValue n (skipJoints q) = some (v, e :: r))
      (he : e.isMark "," = true) (hs : readEntries n r = some (es, s)) :
      EntriesStep n t ts ((keyText k, v) :: es) s

section
variable {n : Nat} {t : Token} {ts r : List Token}

theorem eq_of_wordValue? {v : Literal} (h : wordValue? t = some v) :
    v = .none ∨ ∃ b, v = .bool b := by
  rw [wordValue?] at h
  split at h
  · cases h
    exact .inl rfl
  split at h
  · cases h
    exact .inr ⟨true, rfl⟩
  split at h
  · cases h
    exact .inr ⟨false, rfl⟩
  · cases h

theorem valueStep {v : Literal} (hr : readValue (n + 1) (t :: ts) = some (v, r)) :
    ValueStep n t ts v r := by
  rw [readValue] at hr
  split at hr
  · rename_i hk
    obtain ⟨w, hw, he⟩ := Option.map_eq_some_iff.1 hr
    cases he
    exact .word hk hw
  · rename_i hk
    obtain ⟨w, hw, he⟩ := Option.map_eq_some_iff.1 hr
    cases he
    exact .whole hk hw
  · rename_i hk
    obtain ⟨w, hw, he⟩ := Option.map_eq_some_iff.1 hr
    cases he
    exact .decimal hk hw
  · rename_i hk
    obtain ⟨w, hw, he⟩ := Option.map_eq_some_iff.1 hr
    cases he
    exact .string hk hw
  · split at hr
    · rename_i hsign
      split at hr
      · rename_i hread
        obtain ⟨w, hw, he⟩ := Option.map_eq_some_iff.1 hr
        cases he
        exact .signed (by simpa using hsign) hread hw
      · cases hr
    split at hr
    · rename_i hm
      obtain ⟨⟨vs, comma, r⟩, hitems, he⟩ := Option.map_eq_some_iff.1 hr
      cases he
      exact .list hm hitems
    split at hr
    · rename_i hm
      obtain ⟨⟨vs, comma, r⟩, hitems, he⟩ := Option.map_eq_some_iff.1 hr
      dsimp only at he
      split at he
      · cases he
        exact .single hm hitems
      · cases he
        exact .tuple hm hitems
    split at hr
    · rename_i hm
      obtain ⟨⟨es, r⟩, hentries, he⟩ := Option.map_eq_some_iff.1 hr
      cases he
      exact .map hm hentries
    · cases hr
  · cases hr

theorem itemsStep {close : String} {vs : List Literal} {comma : Bool}
    (hr : readItems (n + 1) close (t :: ts) = some (vs, comma, r)) :
    ItemsStep n close t ts vs r := by
  rw [readItems] at hr
  split at hr
  · rename_i hm
    cases hr
    exact .close hm
  split at hr
  · rename_i hread
    split at hr
    · rename_i hc
      cases hr
      exact .last hread hc
    split at hr
    · rename_i hc
      obtain ⟨⟨ws, comma, r⟩, hitems, he⟩ := Option.map_eq_some_iff.1 hr
      cases he
      exact .more hread hc hitems
    · cases hr
  · cases hr

theorem entriesStep {es : List (String × Literal)}
    (hr : readEntries (n + 1) (t :: ts) = some (es, r)) : EntriesStep n t ts es r := by
  rw [readEntries] at hr
  split at hr
  · rename_i hm
    cases hr
    exact .close hm
  split at hr
  · rename_i k c q hkey
    obtain ⟨⟨k', p⟩, hk, hp⟩ := Option.map_eq_some_iff.1 hkey
    simp only [Prod.mk.injEq] at hp
    obtain ⟨rfl, hp⟩ := hp
    split at hr
    · cases hr
    rename_i hc
    rw [Bool.not_eq_true', Bool.not_eq_false] at hc
    split at hr
    · rename_i hv
      split at hr
      · rename_i he
        cases hr
        exact .last hk hp hc hv he
      split at hr
      · rename_i he
        obtain ⟨⟨es, s⟩, hs, heq⟩ := Option.map_eq_some_iff.1 hr
        cases heq
        exact .more hk hp hc hv he hs
      · cases hr
    · cases hr
  · cases hr

end

/-! All that is read -/

section
variable {value : List Token → Literal → List Token → Prop}
  {items : List Token → List Literal → List Token → Prop}
  {entries : List Token → List (String × Literal) → List Token → Prop}

/-- Whether readers with some fuel keep to conditions on the tokens they are given, what they read
and the tokens they leave. -/
structure Keeps (value : List Token → Literal → List Token → Prop)
    (items : List Token → List Literal → List Token → Prop)
    (entries : List Token → List (String × Literal) → List Token → Prop) (n : Nat) : Prop where
  value : ∀ {ts v r}, readValue n ts = some (v, r) → value ts v r
  items : ∀ {close ts vs comma r}, readItems n close ts = some (vs, comma, r) → items ts vs r
  entries : ∀ {ts es r}, readEntries n ts = some (es, r) → entries ts es r

/-- Conditions that each step keeps hold for all that is read. -/
theorem keeps (hv : ∀ {n t ts v r}, Keeps value items entries n → ValueStep n t ts v r →
      value (t :: ts) v r)
    (hi : ∀ {n close t ts vs r}, Keeps value items entries n → ItemsStep n close t ts vs r →
      items (t :: ts) vs r)
    (he : ∀ {n t ts es r}, Keeps value items entries n → EntriesStep n t ts es r →
      entries (t :: ts) es r) (n : Nat) : Keeps value items entries n := by
  induction n with
  | zero =>
    refine ⟨fun h => ?_, fun h => ?_, fun h => ?_⟩
    · rw [readValue] at h
      cases h
    · rw [readItems] at h
      cases h
    · rw [readEntries] at h
      cases h
  | succ n ih =>
    refine ⟨fun {ts _ _} h => ?_, fun {_ ts _ _ _} h => ?_, fun {ts _ _} h => ?_⟩
    · cases ts with
      | nil => cases h
      | cons t ts => exact hv ih (valueStep h)
    · cases ts with
      | nil => cases h
      | cons t ts => exact hi ih (itemsStep h)
    · cases ts with
      | nil => cases h
      | cons t ts => exact he ih (entriesStep h)

end
end Pipewright.Literal
