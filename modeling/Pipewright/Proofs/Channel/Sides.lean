import Pipewright.Channel.Wiring
import Pipewright.Proofs.Text.Splitting

/-! Both sides of a channel name by name: which variable stands at the place of a parameter, and
which variables are declared. -/
namespace Pipewright

/-! Stars in front of names -/

namespace Text
variable {sep l : List Char}

/-- A name without one star in front. -/
def unstarred : List Char → List Char
  | '*' :: cs => cs
  | cs => cs

theorem unstarred_of_head (h : l.head? ≠ some '*') : unstarred l = l := by
  unfold unstarred
  split
  · exact absurd rfl h
  · rfl

theorem length_unstarred_le (l : List Char) : (unstarred l).length ≤ l.length := by
  unfold unstarred
  split
  · exact Nat.le_succ _
  · exact Nat.le_refl _

theorem unstarred_eq_self_iff : unstarred l = l ↔ l.head? ≠ some '*' := by
  refine ⟨fun h hstar => ?_, unstarred_of_head⟩
  obtain ⟨cs, rfl⟩ := List.head?_eq_some_iff.1 hstar
  exact List.cons_ne_self '*' cs h.symm

/-- A star in front of several names is one in front of the first. -/
theorem unstarred_joinWith (hsep : sep ≠ []) (hstar : sep.head? ≠ some '*') (l : List Char)
    (ls : List (List Char)) :
    unstarred (joinWith sep (l :: ls)) = joinWith sep (unstarred l :: ls) := by
  cases ls with
  | nil => rfl
  | cons m ls =>
    cases l with
    | nil =>
      refine unstarred_of_head ?_
      rw [joinWith, List.nil_append, List.head?_append_of_ne_nil sep hsep]
      exact hstar
    | cons c l =>
      by_cases hc : c = '*'
      · rw [hc]
        rfl
      · have hhead : (c :: l).head? ≠ some '*' := by simpa using hc
        rw [unstarred_of_head hhead]
        exact unstarred_of_head hhead

end Text

theorem toList_withoutStar (s : String) : (withoutStar s).toList = Text.unstarred s.toList := by
  rw [withoutStar]
  split
  · rename_i h
    rw [h]
    exact String.toList_ofList
  · rename_i h
    refine (Text.unstarred_of_head fun hstar => ?_).symm
    obtain ⟨cs, hcs⟩ := List.head?_eq_some_iff.1 hstar
    exact h cs hcs

theorem withoutStar_eq_self_iff {s : String} : withoutStar s = s ↔ isStarred s = false := by
  rw [← String.toList_inj, toList_withoutStar, Text.unstarred_eq_self_iff, isStarred,
    decide_eq_false_iff_not]

theorem withoutStar_joined (s : String) (ss : List String) :
    withoutStar (joined ", " (s :: ss)) = joined ", " (withoutStar s :: ss) := by
  refine String.toList_injective ?_
  rw [toList_withoutStar, toList_joined, toList_joined, List.map_cons, List.map_cons,
    toList_withoutStar]
  exact Text.unstarred_joinWith (by decide) (by decide) _ _

/-- Behind the first name, stars make a difference. -/
theorem joined_withoutStar_iff (s : String) (ss : List String) :
    joined ", " (s :: ss) = joined ", " (s :: ss.map withoutStar) ↔
      ∀ n ∈ ss, isStarred n = false := by
  have hmap : (ss.map withoutStar).map String.toList = (ss.map String.toList).map Text.unstarred := by
    rw [List.map_map, List.map_map]
    exact List.map_congr_left fun n _ => toList_withoutStar n
  rw [eq_comm, ← String.toList_inj, toList_joined, toList_joined, List.map_cons, List.map_cons, hmap,
    Text.joinWith_cons_map_eq_iff Text.length_unstarred_le, List.forall_mem_map]
  refine forall₂_congr fun n _ => ?_
  rw [← toList_withoutStar, String.toList_inj, withoutStar_eq_self_iff]

/-! Names in one text -/

/-- The number of places at which a text holds the separator of names. -/
def separators (cs : List Char) : Nat := cs.tails.countP fun r => Text.startsWith r [',', ' ']

theorem separators_cons (c : Char) (cs : List Char) : separators (c :: cs) =
    separators cs + if Text.startsWith (c :: cs) [',', ' '] then 1 else 0 := by
  rw [separators, List.tails, List.countP_cons]
  rfl

theorem length_splitBy_separator (cs : List Char) :
    (Text.splitBy [',', ' '] 0 cs).length = separators cs + 1 := by
  induction cs with
  | nil => rfl
  | cons c cs ih =>
    rw [separators_cons]
    by_cases h : [',', ' '] <+: c :: cs
    · obtain ⟨r, hr⟩ := h
      obtain ⟨rfl, rfl⟩ := List.cons.inj hr
      -- the second character of a separator starts no other one
      have hnext : ¬[',', ' '] <+: ' ' :: r := fun h =>
        absurd (List.cons_prefix_cons.1 h).1 (by decide)
      have hmark : Text.splitBy [',', ' '] 0 (',' :: ' ' :: r) =
          [] :: Text.splitBy [',', ' '] 0 r := Text.splitBy_mark (List.cons_ne_nil _ _) r
      change (Text.splitBy [',', ' '] 0 (' ' :: r)).length = separators (' ' :: r) + 1 at ih
      rw [Text.splitBy_cons hnext, List.length_modifyHead] at ih
      change (Text.splitBy [',', ' '] 0 (',' :: ' ' :: r)).length = _
      rw [hmark, List.length_cons, ih, if_pos]
      · rfl
      · exact Text.startsWith_iff.2 (List.prefix_append [',', ' '] r)
    · rw [Text.splitBy_cons h, List.length_modifyHead, ih,
        if_neg fun hs => h (Text.startsWith_iff.1 hs)]

namespace Names

/-- The number of names: one more than there are separators, or as many as the list has. -/
def size : Names → Nat
  | .one text => separators text.toList + 1
  | .list names => names.length

theorem length_entries (n : Names) : n.entries.length = n.size := by
  cases n with
  | list names => rfl
  | one text =>
    rw [entries, size]
    split
    · rename_i h
      rw [String.isEmpty_iff.1 h]
      rfl
    · rw [List.length_map, length_splitBy_separator]

/-- The names in one text, with their separators, are the text. -/
theorem joined_entries (text : String) : joined ", " (Names.one text).entries = text := by
  rw [entries]
  split
  · rename_i h
    rw [String.isEmpty_iff.1 h]
    rfl
  · refine String.toList_injective ?_
    have hself : (Text.splitBy [',', ' '] 0 text.toList).map (String.toList ∘ String.ofList) =
        Text.splitBy [',', ' '] 0 text.toList := by simp
    rw [toList_joined, List.map_map, hself]
    exact Text.joinWith_splitBy (by decide) text.toList

theorem entries_ne_nil (text : String) : (Names.one text).entries ≠ [] := by
  rw [← List.length_pos_iff, length_entries]
  exact Nat.succ_pos _

end Names

namespace Channel

/-- The names of the variables: those in front of the pairs, or those given apart. -/
def left (c : Channel) : Names :=
  match c.mapping with
  | some pairs => .list (pairs.map Prod.fst)
  | none => c.vars.getD (.one "")

/-- The names of the parameters, if there are any. -/
def right (c : Channel) : Option Names :=
  match c.mapping with
  | some pairs => some (.list (pairs.map Prod.snd))
  | none => c.params

def varEntries (c : Channel) : List String := c.left.entries
def paramEntries (c : Channel) : List String := (c.right.map Names.entries).getD []

def varCount (c : Channel) : Nat := c.left.size
def paramCount (c : Channel) : Nat := (c.right.map Names.size).getD 0

/-- Whether pairs are given together with one of the sides. -/
def isMixed (c : Channel) : Bool := c.mapping.isSome && (c.vars.isSome || c.params.isSome)

/-- Whether the names of one side are a list. -/
def isTupled (c : Channel) : Bool :=
  c.mapping.isSome || c.vars.any Names.isList || c.params.any Names.isList

/-- There are enough variables for the parameters, and no more than that where a side is a list. -/
structure LinesUp (c : Channel) : Prop where
  le : c.paramCount ≤ c.varCount
  eq : c.isTupled = true → c.paramCount = c.varCount

def declared (c : Channel) : String :=
  match c.left with
  | .one text => withoutStar text
  | .list _ => joined ", " (c.varEntries.map withoutStar)

def resolved (c : Channel) : ResolvedChannel where
  declaration := c.declared
  vars := c.varEntries.map withoutStar
  params := c.paramEntries.map paramEntry

variable {c : Channel} {r : ResolvedChannel}

theorem length_vars_resolved (c : Channel) : c.resolved.vars.length = c.varCount := by
  rw [resolved, List.length_map]
  exact c.left.length_entries

theorem length_params_resolved (c : Channel) : c.resolved.params.length = c.paramCount := by
  rw [resolved, List.length_map, paramEntries, paramCount]
  cases c.right with
  | none => rfl
  | some names => exact names.length_entries

theorem sides_unmixed (h : c.isMixed = false) : c.sides = .ok (c.left, c.right) := by
  rw [sides, left, right]
  cases hmapping : c.mapping with
  | none => rfl
  | some pairs =>
    have hsides : (c.vars.isSome || c.params.isSome) = false := by simpa [isMixed, hmapping] using h
    exact if_neg (by simp [hsides])

theorem isTupled_eq (c : Channel) : (c.left.isList || c.params.any Names.isList) = c.isTupled := by
  rw [isTupled, left]
  cases hmapping : c.mapping with
  | some pairs => rfl
  | none => cases c.vars <;> rfl

theorem resolve_mixed (h : c.isMixed = true) : ∃ fault, c.resolve = .error fault := by
  obtain ⟨hmapping, hsides⟩ := Bool.and_eq_true_iff.1 h
  obtain ⟨pairs, hpairs⟩ := Option.isSome_iff_exists.1 hmapping
  rw [resolve, sides, hpairs]
  dsimp only
  rw [if_pos hsides]
  exact ⟨_, rfl⟩

theorem resolve_ok_iff : c.resolve = .ok r ↔ c.isMixed = false ∧ c.LinesUp ∧ r = c.resolved := by
  cases hmixed : c.isMixed with
  | true =>
    obtain ⟨fault, hfault⟩ := resolve_mixed hmixed
    rw [hfault]
    exact ⟨nofun, nofun⟩
  | false =>
    rw [resolve, sides_unmixed hmixed]
    change (if _ && decide (c.resolved.vars.length ≠ c.resolved.params.length) then _ else
      if c.resolved.vars.length < c.resolved.params.length then _ else Except.ok c.resolved) = _ ↔ _
    rw [isTupled_eq, length_vars_resolved, length_params_resolved]
    split
    · rename_i h
      obtain ⟨htupled, hne⟩ := Bool.and_eq_true_iff.1 h
      exact ⟨nofun, fun hr => absurd (hr.2.1.eq htupled).symm (of_decide_eq_true hne)⟩
    · rename_i htupled
      split
      · rename_i h
        exact ⟨nofun, fun hr => absurd hr.2.1.le (Nat.not_le_of_lt h)⟩
      · rename_i h
        have heven : c.isTupled = true → c.paramCount = c.varCount := fun ht =>
          by_contra fun hne => htupled (Bool.and_eq_true_iff.2 ⟨ht, decide_eq_true (Ne.symm hne)⟩)
        have hup : c.LinesUp := ⟨Nat.le_of_not_lt h, heven⟩
        exact ⟨fun hr => ⟨rfl, hup, (Except.ok.inj hr).symm⟩, fun hr => congrArg _ hr.2.2.symm⟩

theorem length_params_le (h : c.resolve = .ok r) : r.params.length ≤ r.vars.length := by
  obtain ⟨-, hup, rfl⟩ := resolve_ok_iff.1 h
  rw [length_params_resolved, length_vars_resolved]
  exact hup.le

theorem resolve_error_iff :
    (∃ fault, c.resolve = .error fault) ↔ c.isMixed = true ∨ ¬c.LinesUp := by
  constructor
  · rintro ⟨fault, hfault⟩
    by_contra hnot
    rw [not_or, not_not, Bool.not_eq_true] at hnot
    have hok : c.resolve = .ok c.resolved := resolve_ok_iff.2 ⟨hnot.1, hnot.2, rfl⟩
    cases hfault.symm.trans hok
  · intro h
    cases hr : c.resolve with
    | error fault => exact ⟨fault, rfl⟩
    | ok r =>
      obtain ⟨hmixed, hup, -⟩ := resolve_ok_iff.1 hr
      exact absurd h (by simp [hmixed, hup])

/-- The channel with its sides as pairs. -/
def paired (c : Channel) (pairs : List (String × String)) : Channel :=
  { c with vars := none, params := none, mapping := some pairs }

/-- The channel with its sides as two lists. -/
def listed (c : Channel) (vars params : List String) : Channel :=
  { c with vars := some (.list vars), params := some (.list params), mapping := none }

/-- Pairs line up as the lists of what they hold do. -/
theorem resolve_paired (c : Channel) (pairs : List (String × String)) :
    ∃ r, (c.paired pairs).resolve = .ok r ∧
      (c.listed (pairs.map Prod.fst) (pairs.map Prod.snd)).resolve = .ok r := by
  have heven : (pairs.map Prod.snd).length = (pairs.map Prod.fst).length := by
    rw [List.length_map, List.length_map]
  have hup : ∀ d : Channel, d.left = .list (pairs.map Prod.fst) →
      d.right = some (.list (pairs.map Prod.snd)) → d.LinesUp := by
    intro d hleft hright
    have hcounts : d.paramCount = d.varCount := by
      rw [paramCount, varCount, hleft, hright]
      exact heven
    exact ⟨hcounts.le, fun _ => hcounts⟩
  exact ⟨_, resolve_ok_iff.2 ⟨rfl, hup _ rfl rfl, rfl⟩, resolve_ok_iff.2 ⟨rfl, hup _ rfl rfl, rfl⟩⟩

/-- What stands at each place of a resolved channel that has enough variables. -/
theorem links_eq (h : r.params.length ≤ r.vars.length) :
    Wiring.links r = (List.finRange r.params.length).filterMap fun i =>
      (r.params.get i).map fun p => (p, shellReference (r.vars.get (i.castLE h))) := by
  have hzip : r.params.zip r.vars = (List.finRange r.params.length).map fun i =>
      (r.params.get i, r.vars.get (i.castLE h)) := by
    apply List.ext_getElem
    · simp [h]
    · intro i hi hj
      simp
  rw [Wiring.links, hzip, List.filterMap_map]
  rfl

/-- A resolved channel has a variable for each of its parameters, and no more where a side is a
list, so that every parameter is passed the variable at its place. What is not resolved gives pairs
and a side apart, or does not line up. -/
theorem resolve_lines_up (c : Channel) :
    (∀ r, c.resolve = .ok r →
      (c.isTupled = true → r.params.length = r.vars.length) ∧
      ∃ h : r.params.length ≤ r.vars.length,
        Wiring.links r = (List.finRange r.params.length).filterMap fun i =>
          (r.params.get i).map fun p => (p, shellReference (r.vars.get (i.castLE h)))) ∧
    ((∃ fault, c.resolve = .error fault) ↔ c.isMixed = true ∨ ¬c.LinesUp) ∧
    (∀ pairs, ∃ r, (c.paired pairs).resolve = .ok r ∧
      (c.listed (pairs.map Prod.fst) (pairs.map Prod.snd)).resolve = .ok r) := by
  refine ⟨fun r hr => ?_, resolve_error_iff, c.resolve_paired⟩
  have hle := length_params_le hr
  obtain ⟨-, hup, rfl⟩ := resolve_ok_iff.1 hr
  refine ⟨fun ht => ?_, hle, links_eq hle⟩
  rw [length_params_resolved, length_vars_resolved, hup.eq ht]

/-- Reads by sample, with a variable that no parameter takes. -/
def sampleReads : Channel where
  name := .one "reads"
  kind := some "tuple"
  vars := some (.one "*val(sample), , file(reads)")
  params := some (.one "sample, None, *files")
  mapping := none
  transform := none
  fromParams := false

theorem resolve_lines_up_sampleReads :
    (∃ r, sampleReads.resolve = .ok r ∧ r.params = [some "sample", none, some "*files"] ∧
      r.params.length ≤ r.vars.length) ∧
    (∃ fault, { sampleReads with params := some (.list ["sample"]) }.resolve = .error fault) ∧
    ∃ r, (sampleReads.paired [("*val(sample)", "sample"), ("", "None")]).resolve = .ok r := by
  have hr : sampleReads.resolve = .ok sampleReads.resolved := by decide
  have huneven : ¬LinesUp { sampleReads with params := some (.list ["sample"]) } := fun h =>
    absurd (h.eq rfl) (by decide)
  obtain ⟨hok, -, hpaired⟩ := resolve_lines_up sampleReads
  obtain ⟨-, hle, -⟩ := hok _ hr
  obtain ⟨r, hpairs, -⟩ := hpaired [("*val(sample)", "sample"), ("", "None")]
  obtain ⟨-, herror, -⟩ := resolve_lines_up { sampleReads with params := some (.list ["sample"]) }
  exact ⟨⟨_, hr, by decide, hle⟩, herror.2 (.inr huneven), r, hpairs⟩

theorem left_of_text {text : String} (hmixed : c.isMixed = false)
    (h : c.vars = some (.one text)) : c.left = .one text := by
  have hmapping : c.mapping = none := by simpa [isMixed, h] using hmixed
  rw [left, hmapping, h]
  rfl

theorem text_of_left {text : String} (h : c.left = .one text) :
    c.vars = some (.one text) ∨ text = "" := by
  rw [left] at h
  split at h
  · cases h
  · cases hvars : c.vars with
    | none =>
      rw [hvars] at h
      exact .inr (Names.one.inj h).symm
    | some names =>
      rw [hvars] at h
      exact .inl (congrArg some h)

theorem declared_text {text : String} (h : c.left = .one text) :
    c.declared = joined ", " (c.varEntries.map withoutStar) ↔
      ∀ n ∈ (Names.one text).entries.tail, isStarred n = false := by
  obtain ⟨e, es, hentries⟩ := List.exists_cons_of_ne_nil (Names.entries_ne_nil text)
  have hdeclared : c.declared = joined ", " (withoutStar e :: es) := by
    rw [declared, h, ← Names.joined_entries text, hentries]
    exact withoutStar_joined e es
  rw [hdeclared, varEntries, h, hentries, List.map_cons, joined_withoutStar_iff, List.tail_cons]

theorem mem_vars_of_links (h : r.params.length ≤ r.vars.length) {e : String × String}
    (he : e ∈ Wiring.links r) : ∃ v ∈ r.vars, e.2 = shellReference v := by
  rw [links_eq h] at he
  obtain ⟨i, -, hi⟩ := List.mem_filterMap.1 he
  obtain ⟨p, -, rfl⟩ := Option.map_eq_some_iff.1 hi
  exact ⟨_, List.get_mem r.vars (i.castLE h), rfl⟩

/-- The variables of a channel are the names given for them, each without a star in front, and what
is passed on refers to these. Pairs and lists are declared as the variables. Of names in one text,
only the first loses its star in the declaration, which is that of the variables just if no other
name has one. -/
theorem declares_vars_iff (h : c.resolve = .ok r) (name : String) :
    r.vars = c.varEntries.map withoutStar ∧
    (∀ e ∈ Wiring.links r, ∃ v ∈ r.vars, e.2 = shellReference v) ∧
    (r.declaration = joined ", " r.vars ∧
        (Wiring.inputLine c name r).declaration = joined ", " r.vars ∧
        (Wiring.outputLine c r).declaration = joined ", " r.vars ↔
      ∀ text, c.vars = some (.one text) →
        ∀ n ∈ (Names.one text).entries.tail, isStarred n = false) := by
  have hle := length_params_le h
  obtain ⟨hmixed, -, rfl⟩ := resolve_ok_iff.1 h
  refine ⟨rfl, fun e => mem_vars_of_links hle, ?_⟩
  change c.declared = joined ", " (c.varEntries.map withoutStar) ∧
    c.declared = joined ", " (c.varEntries.map withoutStar) ∧
    c.declared = joined ", " (c.varEntries.map withoutStar) ↔ _
  rw [and_self_iff, and_self_iff]
  cases hleft : c.left with
  | list names =>
    refine iff_of_true (by rw [declared, hleft]) fun text htext => ?_
    cases hleft.symm.trans (left_of_text hmixed htext)
  | one text =>
    rw [declared_text hleft]
    constructor
    · intro hplain other hother
      cases hleft.symm.trans (left_of_text hmixed hother)
      exact hplain
    · intro hplain
      obtain htext | rfl := text_of_left hleft
      · exact hplain text htext
      · exact List.forall_mem_nil _

theorem declares_vars_sampleReads : ∃ r, sampleReads.resolve = .ok r ∧
    r.vars = ["val(sample)", "", "file(reads)"] ∧ r.declaration = joined ", " r.vars := by
  have hr : sampleReads.resolve = .ok sampleReads.resolved := by decide
  obtain ⟨hvars, -, hdeclares⟩ := declares_vars_iff hr "reads"
  refine ⟨_, hr, hvars.trans (by decide), (hdeclares.2 fun text htext => ?_).1⟩
  obtain rfl : "*val(sample), , file(reads)" = text := Names.one.inj (Option.some.inj htext)
  decide

/-- The star of the second variable stays in the declaration. -/
theorem second_star_declared :
    (Channel.simple "pairs" "tuple" "*val(x), *file(y)" none).resolve =
      .ok ⟨"val(x), *file(y)", ["val(x)", "file(y)"], []⟩ ∧
    "val(x), *file(y)" ≠ joined ", " ["val(x)", "file(y)"] := by decide

end Channel
end Pipewright
