import Pipewright.Proofs.Literal.Bare
import Pipewright.Proofs.Literal.Places

/-! The strings of a value that is read, and where they stand in its text. -/
namespace Pipewright.Literal
open Text Source

mutual
/-- The strings of a value in order, without those of dictionaries. -/
def strings : Literal → List (List Char)
  | .str s => [s.toList]
  | .list items => itemStrings items
  | _ => []

def itemStrings : List Literal → List (List Char)
  | [] => []
  | v :: r => strings v ++ itemStrings r
end

/-- Whether tokens hold strings in their order, in front of the tokens that are left. -/
def Gathers (ts : List Token) (ss : List (List Char)) (r : List Token) : Prop :=
  ∃ gss, List.Forall₂ Joined gss ss ∧ (gss.flatten ++ r).Sublist ts

section
variable {ts us r p : List Token} {ss ss' : List (List Char)}

theorem gathers_nil (h : r.Sublist ts) : Gathers ts [] r := ⟨[], .nil, h⟩

theorem Gathers.mono (h : Gathers ts ss r) (hu : ts.Sublist us) : Gathers us ss r := by
  obtain ⟨gss, hj, hs⟩ := h
  exact ⟨gss, hj, hs.trans hu⟩

theorem Gathers.trans (h : Gathers ts ss r) (hr : Gathers r ss' p) : Gathers ts (ss ++ ss') p := by
  obtain ⟨gss, hj, hs⟩ := h
  obtain ⟨gss', hj', hs'⟩ := hr
  refine ⟨gss ++ gss', List.rel_append hj hj', ?_⟩
  rw [List.flatten_append, List.append_assoc]
  exact (hs'.append_left gss.flatten).trans hs

theorem Gathers.left (h : Gathers ts ss r) (hp : p.Sublist r) : Gathers ts ss p := by
  simpa using h.trans (gathers_nil hp)

/-- The strings at the start of tokens, and the tokens behind them. -/
theorem takeStrings_append (ts : List Token) : (takeStrings ts).1 ++ (takeStrings ts).2 = ts := by
  induction ts with
  | nil => rfl
  | cons t ts ih =>
    rw [takeStrings]
    split
    · exact congrArg (t :: ·) ih
    · rfl

theorem strings_wordValue? {t : Token} {v : Literal} (h : wordValue? t = some v) :
    strings v = [] := by
  obtain rfl | ⟨b, rfl⟩ := eq_of_wordValue? h <;> rfl

theorem strings_wholeValue? {text : List Char} {v : Literal} (h : wholeValue? text = some v) :
    strings v = [] := by
  obtain ⟨n, -, hn⟩ := Option.bind_eq_some_iff.1 h
  split at hn
  · cases hn
    rfl
  · cases hn

theorem strings_signed? {negative : Bool} {v w : Literal} (h : signed? negative v = some w) :
    strings w = strings v := by
  cases v <;> cases h <;> rfl

end

/-- Whether readers with some fuel gather the strings of the values they read. -/
abbrev ReadsStrings : Nat → Prop :=
  Keeps (fun ts v r => Gathers ts (strings v) r) (fun ts vs r => Gathers ts (itemStrings vs) r)
    (fun ts _ r => r.Sublist ts)

section
variable {n : Nat} {t : Token} {ts r : List Token} {v : Literal}

theorem ReadsStrings.value_sublist (h : ReadsStrings n) (hr : readValue n ts = some (v, r)) :
    r.Sublist ts := by
  obtain ⟨gss, -, hs⟩ := h.value hr
  exact (List.sublist_append_right _ r).trans hs

theorem ReadsStrings.value_step (h : ReadsStrings n) (hs : ValueStep n t ts v r) :
    Gathers (t :: ts) (strings v) r := by
  have htail := List.sublist_cons_self t ts
  cases hs with
  | word _ hw => exact strings_wordValue? hw ▸ gathers_nil htail
  | whole _ hw => exact strings_wholeValue? hw ▸ gathers_nil htail
  | decimal _ hw =>
    obtain ⟨x, -, rfl⟩ := Option.map_eq_some_iff.1 hw
    exact gathers_nil htail
  | string hk hw =>
    obtain ⟨x, -, rfl⟩ := Option.map_eq_some_iff.1 hw
    refine ⟨[t :: (takeStrings ts).1], .cons ⟨List.cons_ne_nil _ _,
      List.forall_mem_cons.2 ⟨hk, kind_of_mem_takeStrings⟩, by simpa using hw⟩ .nil, ?_⟩
    rw [List.flatten_singleton, List.cons_append, takeStrings_append]
  | signed _ hread hw =>
    have hjoints : (skipJoints ts).Sublist ts := (List.dropWhile_suffix _).sublist
    exact strings_signed? hw ▸ (h.value hread).mono (hjoints.trans htail)
  | list _ hitems => exact (h.items hitems).mono htail
  | single _ hitems =>
    have hone := (h.items hitems).mono htail
    rwa [itemStrings, itemStrings, List.append_nil] at hone
  | tuple _ hitems => exact (h.items hitems).mono htail
  | map _ hentries => exact gathers_nil ((h.entries hentries).trans htail)

theorem ReadsStrings.items_step (h : ReadsStrings n) {close : String} {vs : List Literal}
    (hs : ItemsStep n close t ts vs r) : Gathers (t :: ts) (itemStrings vs) r := by
  cases hs with
  | close => exact gathers_nil (List.sublist_cons_self t ts)
  | last hv =>
    rw [itemStrings, itemStrings, List.append_nil]
    exact (h.value hv).left (List.sublist_cons_self _ _)
  | more hv _ hs => exact ((h.value hv).left (List.sublist_cons_self _ _)).trans (h.items hs)

theorem ReadsStrings.entries_step (h : ReadsStrings n) {es : List (String × Literal)}
    (hs : EntriesStep n t ts es r) : r.Sublist (t :: ts) := by
  have hjoints : ∀ us, (skipJoints us).Sublist us := fun us => (List.dropWhile_suffix _).sublist
  have hentry : ∀ {k v : Literal} {c e : Token} {p q s : List Token},
      readValue n (t :: ts) = some (k, p) → skipJoints p = c :: q →
      readValue n (skipJoints q) = some (v, e :: s) → s.Sublist (t :: ts) := by
    intro k v c e p q s hk hp hv
    have hvalue : s.Sublist q :=
      (List.sublist_cons_self e s).trans ((h.value_sublist hv).trans (hjoints q))
    have hkey : (c :: q).Sublist (t :: ts) := hp ▸ (hjoints p).trans (h.value_sublist hk)
    exact hvalue.trans ((List.sublist_cons_self c q).trans hkey)
  cases hs with
  | close => exact List.sublist_cons_self t ts
  | last hk hp _ hv => exact hentry hk hp hv
  | more hk hp _ hv _ hs => exact (h.entries hs).trans (hentry hk hp hv)

end

theorem readsStrings (n : Nat) : ReadsStrings n :=
  keeps (fun h hs => ReadsStrings.value_step h hs) (fun h hs => ReadsStrings.items_step h hs)
    (fun h hs => ReadsStrings.entries_step h hs) n

/-! The tokens of a statement -/

theorem dropEnd_sublist (m : String) (ts : List Token) : (dropEnd m ts).Sublist ts := by
  rw [dropEnd]
  split
  · split
    · exact List.dropLast_sublist ts
    · exact List.Sublist.refl ts
  · exact List.Sublist.refl ts

theorem statementTokens_sublist (cs : List Char) : (statementTokens cs).Sublist (lex cs) := by
  have hend : ((((lex cs).dropWhile isSpacer).reverse.dropWhile isSpacer).reverse).Sublist
      ((lex cs).dropWhile isSpacer) :=
    List.reverse_sublist.1 (by simpa using (List.dropWhile_suffix isSpacer).sublist)
  exact (dropEnd_sublist ";" _).trans (hend.trans (List.dropWhile_suffix isSpacer).sublist)

/-- Strings of a text that are read in their order are held by the quotes around them. -/
theorem held_of_read {text : List Char} {ps : List (List Char × List Char)} (htext : Laid text ps)
    (htrim : trim text = text) {v : Literal} (hread : read (String.ofList text) = v)
    (hne : ∀ e, v ≠ .expr e) (hs : strings v = ps.map Prod.fst) : ∀ p ∈ ps, Held p.2 p.1 := by
  have htokens := ofTokens?_of_read hread hne
  rw [htrim] at htokens
  obtain ⟨n, hvalue⟩ := readValue_of_ofTokens? htokens
  obtain ⟨gss, hj, hsub⟩ := (readsStrings (n + 1)).value hvalue
  rw [hs, List.forall₂_map_right_iff] at hj
  rw [List.append_nil] at hsub
  exact (htext.held List.suffix_rfl hj (hsub.trans (List.filter_sublist.trans
    ((dropEnd_sublist "," _).trans (statementTokens_sublist text))))).2

/-! One text between quotes -/

section
variable {s : List Char}

theorem trim_bare (s : List Char) : trim (bare s) = bare s :=
  trim_of_enclosed (by decide) (by decide) s

theorem read_bare_iff_held :
    read (String.ofList (bare s)) = .str (String.ofList s) ↔ Held [] s := by
  constructor
  · intro h
    have hlaid : Laid (bare s) [(s, [])] := by
      have hstring := @Laid.string [] s [] [] (by simp [Unquoted]) (by simp) parted_nil
        (.plain (by simp [Unquoted]))
      rwa [List.nil_append, List.append_nil] at hstring
    exact held_of_read hlaid (trim_bare s) h (by simp) (by simp [strings]) (s, []) (by simp)
  · exact fun h => read_of_stands (trim_bare s) (h.lexes parted_nil).lex

/-- A text without escapes that no quote closes early is read between single quotes as it is, and
no other text. -/
theorem read_bare_iff (hz : '\x00' ∉ s) (hn : '\n' ∉ s) :
    read (String.ofList (bare s)) = .str (String.ofList s) ↔ unescape s = s ∧ Quotable s :=
  read_bare_iff_held.trans ((held_iff hz hn).trans (and_congr_right' (by simp)))

end
end Pipewright.Literal
