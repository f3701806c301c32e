import Pipewright.Notebook.Sections
import Pipewright.Proofs.Text.Lines

/-! Where the shown part of a body ends: in front of the first statement that returns something and
of the first definition without parameters. -/
namespace Pipewright.Notebook
open Text

/-- The texts that a shown part does not go on with. -/
inductive EndsBody : List Char → Prop
  | returns {a b : Char} (ha : isBlank a) (hb : isBlank b) (rest : List Char) :
      EndsBody (a :: ("return".toList ++ b :: rest))
  | defines {a b : Char} {name : List Char} (ha : isBlank a) (hb : isBlank b) (hne : name ≠ [])
      (hname : ∀ c ∈ name, isBlank c = false) (rest : List Char) :
      EndsBody (a :: ("def".toList ++ b :: (name ++ ("():".toList ++ rest))))

section
variable {cs r lead : List Char} {c : Char}

theorem afterBlank?_eq_some_iff :
    afterBlank? cs = some r ↔ ∃ b, isBlank b = true ∧ cs = b :: r := by
  cases cs with
  | nil => simp [afterBlank?]
  | cons b cs =>
    rw [afterBlank?]
    split
    · rename_i h
      constructor
      · rintro ⟨⟩
        exact ⟨b, h, rfl⟩
      · rintro ⟨d, -, ⟨⟩⟩
        rfl
    · rename_i h
      constructor
      · rintro ⟨⟩
      · rintro ⟨d, hd, ⟨⟩⟩
        exact absurd hd h

theorem afterLead_blank_iff :
    (afterLead? lead cs).bind afterBlank? = some r ↔
      ∃ b, isBlank b = true ∧ cs = lead ++ b :: r := by
  rw [Option.bind_eq_some_iff]
  constructor
  · rintro ⟨m, hm, hr⟩
    obtain ⟨b, hb, rfl⟩ := afterBlank?_eq_some_iff.1 hr
    exact ⟨b, hb, eq_of_afterLead? hm⟩
  · rintro ⟨b, hb, rfl⟩
    exact ⟨b :: r, afterLead?_append _ _, afterBlank?_eq_some_iff.2 ⟨b, hb, rfl⟩⟩

theorem startsReturn_iff :
    startsReturn cs = true ↔ ∃ b rest, isBlank b = true ∧ cs = "return".toList ++ b :: rest := by
  rw [startsReturn, Option.isSome_iff_exists]
  constructor
  · rintro ⟨r, hr⟩
    obtain ⟨b, hb, h⟩ := afterLead_blank_iff.1 hr
    exact ⟨b, r, hb, h⟩
  · rintro ⟨b, r, hb, h⟩
    exact ⟨r, afterLead_blank_iff.2 ⟨b, hb, h⟩⟩

/-- The name of a function goes on to the brackets behind it. -/
theorem startsPlainDefinition_iff :
    startsPlainDefinition cs = true ↔ ∃ b name rest, isBlank b = true ∧ name ≠ [] ∧
      (∀ c ∈ name, isBlank c = false) ∧
        cs = "def".toList ++ b :: (name ++ ("():".toList ++ rest)) := by
  rw [startsPlainDefinition]
  constructor
  · intro h
    split at h
    · rename_i r hr
      obtain ⟨b, hb, rfl⟩ := afterLead_blank_iff.1 hr
      have hjoin := List.takeWhile_append_dropWhile (p := fun c => !isBlank c) (l := r)
      split at h
      · rename_i d name hname
        rw [indexOf?, Option.isSome_map, splitOnce_isSome_iff] at h
        obtain ⟨front, behind, rfl⟩ := h
        refine ⟨b, d :: front, behind ++ r.dropWhile fun c => !isBlank c, hb,
          List.cons_ne_nil d front, fun c hc => ?_, ?_⟩
        · have hmem : c ∈ r.takeWhile fun c => !isBlank c := by
            rw [hname, List.append_assoc, ← List.cons_append]
            exact List.mem_append_left _ hc
          simpa using List.mem_takeWhile_imp hmem
        · conv_lhs => rw [← hjoin, hname]
          simp
      · cases h
    · cases h
  · rintro ⟨b, name, rest, hb, hne, hname, rfl⟩
    obtain ⟨d, name, rfl⟩ := List.exists_cons_of_ne_nil hne
    have hnonblank : ∀ c ∈ d :: name ++ "():".toList, (!isBlank c) = true :=
      List.forall_mem_append.2
        ⟨fun c hc => by rw [hname c hc]; rfl, forall_mem_of_all (by decide)⟩
    rw [afterLead_blank_iff.2 ⟨b, hb, rfl⟩]
    dsimp only
    rw [← List.append_assoc, List.takeWhile_append_of_pos hnonblank, List.append_assoc,
      List.cons_append]
    dsimp only
    rw [indexOf?, Option.isSome_map, splitOnce_isSome_iff]
    exact (List.prefix_append _ _).isInfix.trans (List.suffix_append name _).isInfix

theorem endsBody_cons_iff :
    EndsBody (c :: cs) ↔ (isBlank c && (startsReturn cs || startsPlainDefinition cs)) = true := by
  rw [Bool.and_eq_true, Bool.or_eq_true, startsReturn_iff, startsPlainDefinition_iff]
  constructor
  · intro h
    cases h with
    | returns ha hb rest => exact ⟨ha, .inl ⟨_, rest, hb, rfl⟩⟩
    | defines ha hb hne hname rest => exact ⟨ha, .inr ⟨_, _, rest, hb, hne, hname, rfl⟩⟩
  · rintro ⟨ha, ⟨b, rest, hb, rfl⟩ | ⟨b, name, rest, hb, hne, hname, rfl⟩⟩
    · exact .returns ha hb rest
    · exact .defines ha hb hne hname rest

/-- The shown part ends in front of the first text that it does not go on with. -/
theorem upToEnd_spec (cs : List Char) :
    ∃ rest, cs = upToEnd cs ++ rest ∧ (rest = [] ∨ EndsBody rest) ∧
      ∀ x y, cs = x ++ y → EndsBody y → upToEnd cs <+: x := by
  induction cs with
  | nil => exact ⟨[], rfl, .inl rfl, fun x y _ _ => List.nil_prefix⟩
  | cons c cs ih =>
    obtain ⟨rest, hsplit, hrest, hfirst⟩ := ih
    rw [upToEnd]
    split
    · rename_i h
      exact ⟨c :: cs, rfl, .inr (endsBody_cons_iff.2 h), fun x y _ _ => List.nil_prefix⟩
    · rename_i h
      refine ⟨rest, congrArg (c :: ·) hsplit, hrest, fun x y hxy hy => ?_⟩
      cases x with
      | nil => exact absurd (endsBody_cons_iff.1 (hxy ▸ hy)) h
      | cons d x =>
        obtain ⟨rfl, hrestxy⟩ := List.cons.inj hxy
        exact List.cons_prefix_cons.2 ⟨rfl, hfirst x y hrestxy hy⟩

theorem upToEnd_eq_self_iff : upToEnd cs = cs ↔ ∀ y, y <:+ cs → ¬EndsBody y := by
  obtain ⟨rest, hsplit, hrest, hfirst⟩ := upToEnd_spec cs
  constructor
  · rintro hall y ⟨x, rfl⟩ hy
    have hle := (hfirst x y rfl hy).length_le
    rw [hall, List.length_append] at hle
    have hy0 : y = [] := List.eq_nil_of_length_eq_zero (by omega)
    rw [hy0] at hy
    cases hy
  · intro h
    obtain rfl | hends := hrest
    · rw [List.append_nil] at hsplit
      exact hsplit.symm
    · exact absurd hends (h rest ⟨upToEnd cs, hsplit.symm⟩)

/-- The shown part goes on up to a place just if no end stands before it. -/
theorem isPrefix_upToEnd_iff {w : List Char} (hw : w <+: cs) :
    w <+: upToEnd cs ↔ ∀ x y, cs = x ++ y → EndsBody y → w <+: x := by
  obtain ⟨rest, hsplit, hrest, hfirst⟩ := upToEnd_spec cs
  constructor
  · exact fun h x y hxy hy => h.trans (hfirst x y hxy hy)
  · intro h
    obtain rfl | hends := hrest
    · rwa [hsplit, List.append_nil] at hw
    · exact h _ rest hsplit hends

end
end Pipewright.Notebook
