import Pipewright.Proofs.Binding.ReadBack
import Pipewright.Proofs.Binding.Views
import Pipewright.Proofs.CommandLine.Waiting

/-! The first flag of an argument, as the table spells it, in a command line: which flags are read
as the argument's own, with a word behind them or attached. -/
namespace Pipewright
open CommandLine

namespace Argument

def isDashed (flag : String) : Bool := flag.toList.head? = some '-'

/-- Whether a flag waits for a word of the argument: a long name without the sign that attaches
words, the letter that counts, or that letter behind the one that shows the functions. -/
def answers (a : Argument) (flag : String) : Bool :=
  match flag.toList with
  | '-' :: '-' :: name => !name.isEmpty && !name.contains '='
  | '-' :: cs => (shortName a.flags).any fun c => cs = [c] || cs = ['i', c]
  | _ => false

variable {a : Argument} {flag : String} {flags : List String}

theorem shortName_ne_dash {c : Char} (h : shortName flags = some c) : c ≠ '-' := by
  obtain ⟨-, -, -, hc⟩ := exists_flag_of_shortName h
  exact hc

theorem answers_cases (h : a.answers flag) :
    (∃ name, flag.toList = '-' :: '-' :: name ∧ name ≠ [] ∧ ∀ c ∈ name, decide (c ≠ '=') = true) ∨
      ∃ l c, (l = [] ∨ l = ['i']) ∧ flag.toList = '-' :: (l ++ [c]) ∧
        shortName a.flags = some c := by
  rw [answers] at h
  split at h
  · rename_i name hl
    simp only [Bool.and_eq_true, Bool.not_eq_true', List.isEmpty_eq_false_iff,
      List.contains_eq_mem, decide_eq_false_iff_not] at h
    exact .inl ⟨name, hl, h.1, fun c hc => decide_eq_true fun he => h.2 (he ▸ hc)⟩
  · rename_i cs _ hl
    cases hs : shortName a.flags with
    | none => simp [hs] at h
    | some c =>
      simp only [hs, Option.any_some, Bool.or_eq_true, decide_eq_true_eq] at h
      rcases h with rfl | rfl
      · exact .inr ⟨[], c, .inl rfl, hl, rfl⟩
      · exact .inr ⟨['i'], c, .inr rfl, hl, rfl⟩
  · cases h

theorem answers_of_letters {l : List Char} {c : Char} (hl : l = [] ∨ l = ['i'])
    (hflag : flag.toList = '-' :: (l ++ [c])) (hs : shortName a.flags = some c) :
    a.answers flag := by
  have hc : c ≠ '-' := shortName_ne_dash hs
  rw [answers, hflag]
  rcases hl with rfl | rfl
  · rw [List.nil_append]
    split <;> simp_all
  · simp [hs]

theorem mem_longNames {name : List Char} (hf : flag ∈ flags)
    (hl : flag.toList = '-' :: '-' :: name) : String.ofList name ∈ longNames flags :=
  List.mem_filterMap.2 ⟨flag, hf, by simp only [hl]⟩

theorem leadsLong_iff (hf : a.flags = flag :: flags) :
    a.leadsLong ↔ ∃ name, flag.toList = '-' :: '-' :: name := by
  rw [leadsLong, hf, List.head?_cons, Option.any_some]
  split <;> simp_all

/-- A flag that starts with a dash makes an option. -/
theorem option?_of_dashed (hf : a.flags = flag :: flags) (hd : isDashed flag) :
    a.option? = some a.opt := by
  have hdash : flag.toList.head? = some '-' := of_decide_eq_true hd
  obtain ⟨r, hr⟩ : ∃ r, flag.toList = '-' :: r := List.head?_eq_some_iff.1 hdash
  have hflag : flag ∈ a.flags := hf ▸ List.mem_cons_self
  rw [option?, if_neg]
  · rfl
  intro h
  obtain ⟨hlongs, hshort⟩ := Bool.and_eq_true_iff.1 h
  have hlong : ∀ f ∈ a.flags, _ := List.filterMap_eq_nil_iff.1 (List.isEmpty_iff.1 hlongs)
  have hletter : ∀ f ∈ a.flags, _ := List.filterMap_eq_nil_iff.1
    (List.getLast?_eq_none_iff.1 (Option.isNone_iff_eq_none.1 hshort))
  have hno := hlong flag hflag
  have hnone := hletter flag hflag
  rw [hr] at hno hnone
  cases r with
  | nil => cases hno
  | cons c cs =>
    by_cases hc : c = '-'
    · cases hc
      cases hno
    · cases cs with
      | nil => simp at hnone
      | cons => simp [hc] at hno

/-- Two words that mean different values, whatever the kind, and hold no option. -/
theorem read_probe_ne (a : Argument) : a.read "1,-" ≠ a.read "2,-" := by
  intro h
  have hs := congrArg Literal.script h
  simp only [read] at hs
  revert hs
  generalize a.kind = k
  cases k <;> decide +kernel

end Argument

namespace Binding
variable {b : Binding} {a : Argument} {words : List String} {w flag : String}
  {flags : List String} {st t : State}

/-- A command line gives an argument the value that a word stands for. -/
def Gives (b : Binding) (a : Argument) (words : List String) (w : String) : Prop :=
  ∃ r, b.parse words = .ok r ∧ r.get? a.dest = some (a.read w)

theorem gives_iff (hd : (b.arguments.map Argument.dest).Nodup) (ha : a ∈ b.arguments) :
    b.Gives a words w ↔
      ∃ st, CommandLine.parse b.spec words = .ok st ∧ a.value (st.values? a.dest) = a.read w := by
  have hget : ∀ st : State, Entries.get? a.dest
      (b.arguments.map fun a => (a.dest, a.value (st.values? a.dest))) =
        some (a.value (st.values? a.dest)) := by
    intro st
    refine Entries.get?_of_mem (e := (a.dest, a.value (st.values? a.dest))) ?_
      (List.mem_map_of_mem ha)
    rw [List.map_map]
    exact hd
  rw [Gives, Binding.parse]
  constructor
  · rintro ⟨r, hr, hvalue⟩
    split at hr
    · cases hr
    · rename_i st hst
      cases hr
      exact ⟨st, hst, Option.some.inj ((hget st).symm.trans hvalue)⟩
  · rintro ⟨st, hst, hvalue⟩
    rw [hst]
    exact ⟨_, rfl, (hget st).trans (congrArg some hvalue)⟩

theorem Apart.gives_iff (hb : b.Apart) (ha : a ∈ b.arguments) : b.Gives a words w ↔
    ∃ st, CommandLine.parse b.spec words = .ok st ∧ a.value (st.values? a.dest) = a.read w :=
  Binding.gives_iff hb.dests_nodup ha

theorem values?_take_opt (hfresh : a.dest ∉ st.given.map Prod.fst)
    (h : take st a.opt [w] = .ok t) : t.values? a.dest = some (a.items w) := by
  rw [Argument.take_opt hfresh w] at h
  cases h
  rw [State.values?, ← Entries.put_of_not_mem hfresh, Entries.get?_put_self]

section
variable {g : Given} (hd : (b.arguments.map Argument.dest).Nodup) (ha : a ∈ b.arguments)
  (hfresh : a.dest ∉ g.map Prod.fst)

include hd ha hfresh in
/-- A word that is read as the first one of an argument gives it that value. -/
theorem gives_of_take {word : String}
    (h : step b.spec State.initial word = take (ready g 0) a.opt [w]) : b.Gives a [word] w := by
  obtain ⟨t, ht⟩ : ∃ t, take (ready g 0) a.opt [w] = .ok t := ⟨_, Argument.take_opt hfresh w⟩
  have hvalues : t.values? a.dest = some (a.items w) := values?_take_opt hfresh ht
  have hsettled : settle t = .ok t := by
    obtain ⟨g, rfl⟩ := take_frame ht
    rfl
  refine (gives_iff hd ha).2 ⟨t, ?_, by rw [hvalues, a.value_items]⟩
  rw [CommandLine.parse, foldlM_cons_of_ok (h.trans ht)]
  exact hsettled

include hd ha hfresh in
/-- A word behind a flag that goes to its argument gives it that value. -/
theorem gives_of_holding (hflag : step b.spec State.initial flag = .ok (waiting g 0 a.opt))
    (hw : step b.spec (waiting g 0 a.opt) w = .ok (holding g 0 a.opt w)) :
    b.Gives a [flag, w] w := by
  obtain ⟨t, ht⟩ : ∃ t, take { ready g 0 with accepts := a.opt.takesMany } a.opt [w] = .ok t :=
    ⟨_, Argument.take_opt hfresh w⟩
  have hvalues : t.values? a.dest = some (a.items w) := values?_take_opt hfresh ht
  refine (gives_iff hd ha).2 ⟨t, ?_, by rw [hvalues, a.value_items]⟩
  rw [parse_pair, hflag]
  change step b.spec (waiting g 0 a.opt) w >>= settle = _
  rw [hw]
  exact ht

end

/-! The letters of a script -/

theorem short?_inspect (b : Binding) : b.spec.short? 'i' = some inspectOption := rfl

theorem short?_dash (b : Binding) : b.spec.short? '-' = none := by
  rw [Spec.short?, List.find?_eq_none]
  intro o ho hm
  have hm : o.short = some '-' := of_decide_eq_true hm
  rcases mem_options ho with ⟨c, hc, rfl⟩ | ho
  · exact Argument.shortName_ne_dash hm rfl
  · simp only [List.mem_cons, List.not_mem_nil, or_false] at ho
    rcases ho with rfl | rfl | rfl | rfl <;> cases hm

/-- The only option that a script can have without a word shows its functions. -/
theorem eq_inspectOption {o : Opt} (ho : o ∈ b.spec.options) (hv : o.takesValue = false)
    (h : complete st o [] = .ok t) : o = inspectOption := by
  obtain ⟨u, hu, ht⟩ := bind_ok h
  rcases mem_options ho with ⟨c, hc, rfl⟩ | ho
  · rw [c.opt_takesValue] at hv
    cases hv
  · simp only [List.mem_cons, List.not_mem_nil, or_false] at ho
    rcases ho with rfl | rfl | rfl | rfl
    · cases hv
    · rfl
    · cases ht
    · cases ht

theorem Apart.eq_opt_of_id (hb : b.Apart) (ha : a ∈ b.arguments) {o : Opt}
    (ho : o ∈ b.spec.options) (hid : o.id = a.dest) : o = a.opt := by
  rcases mem_options ho with ⟨c, hc, rfl⟩ | ho
  · exact congrArg Argument.opt (hb.eq_of_dest hc ha hid)
  · have hreserved : a.dest ∈ reservedIds := by
      simp only [List.mem_cons, List.not_mem_nil, or_false] at ho
      rcases ho with rfl | rfl | rfl | rfl <;>
        · rw [← hid]
          decide
    exact absurd hreserved (hb.dests_free a ha)

theorem short?_mem {c : Char} {o : Opt} (h : b.spec.short? c = some o) :
    o ∈ b.spec.options ∧ o.short = some c := by
  rw [Spec.short?] at h
  have hs := List.find?_some h
  exact ⟨List.mem_of_find?_eq_some h, of_decide_eq_true hs⟩

/-- Letters before a word that shall go to an argument: its own, perhaps after the one that shows
the functions. -/
theorem Apart.letters_of_waits (hb : b.Apart) (ha : a ∈ b.arguments) {cs : List Char}
    (h : cluster b.spec State.initial cs = .ok t) {p : Opt × List String} (hp : p ∈ t.pending)
    (hid : p.1.id = a.dest) :
    ∃ l c, (l = [] ∨ l = ['i']) ∧ cs = l ++ [c] ∧ Argument.shortName a.flags = some c := by
  have hown : ∀ {o : Opt} {c : Char}, b.spec.short? c = some o → p.1 = o →
      Argument.shortName a.flags = some c := by
    intro o c ho he
    obtain ⟨hm, hs⟩ := short?_mem ho
    rw [hb.eq_opt_of_id ha hm (he ▸ hid)] at hs
    exact hs
  cases cs with
  | nil =>
    cases h
    cases hp
  | cons c r =>
    obtain ⟨o, ho, ⟨-, hend⟩ | ⟨hv, u, hu, hr⟩⟩ := cluster_cons_ok h
    · obtain ⟨rfl, he⟩ := hend p hp
      exact ⟨[], c, .inl rfl, rfl, hown ho he⟩
    · obtain ⟨hm, hs⟩ := short?_mem ho
      cases eq_inspectOption hm hv hu
      cases hs
      cases hu
      cases r with
      | nil =>
        cases hr
        cases hp
      | cons d r =>
        obtain ⟨o', ho', ⟨-, hend⟩ | ⟨hv', v, hv, -⟩⟩ := cluster_cons_ok hr
        · obtain ⟨rfl, he⟩ := hend p hp
          exact ⟨['i'], d, .inr rfl, rfl, hown ho' he⟩
        · -- The functions can be shown once only.
          cases eq_inspectOption (short?_mem ho').1 hv' hv
          cases hv

/-- A word after which an option waits for a word of an argument answers for it. -/
theorem Apart.answers_of_waits (hb : b.Apart) (ha : a ∈ b.arguments)
    (h : step b.spec State.initial flag = .ok t) {p : Opt × List String} (hp : p ∈ t.pending)
    (hid : p.1.id = a.dest) : a.answers flag := by
  rcases step_waits rfl rfl h hp with ⟨name, hl, hne, hsign, -⟩ | ⟨c, r, -, hl, hcluster⟩
  · simp [Argument.answers, hl, hne, hsign]
  · obtain ⟨l, d, hl', hcs, hs⟩ := hb.letters_of_waits ha hcluster hp hid
    exact Argument.answers_of_letters hl' (hcs ▸ hl) hs

/-! A word behind the flag -/

theorem Apart.dest_not_positional (hb : b.Apart) (ha : a ∈ b.arguments)
    (ho : a.option? = some a.opt) : a.dest ∉ b.spec.positionals := by
  intro h
  obtain ⟨c, hc, hd⟩ := List.mem_map.1 h
  obtain ⟨hc, hnone⟩ := List.mem_filter.1 hc
  rw [hb.eq_of_dest hc ha hd, ho] at hnone
  cases hnone

/-- Words that stand for different values show whether they were given. -/
theorem Apart.answers_of_gives (hb : b.Apart) (ha : a ∈ b.arguments)
    (ho : a.option? = some a.opt) (h : ∀ w, isPlainWord w → b.Gives a [flag, w] w) :
    a.answers flag := by
  obtain ⟨u, hu, hone⟩ := (hb.gives_iff ha).1 (h "1,-" rfl)
  obtain ⟨v, hv, htwo⟩ := (hb.gives_iff ha).1 (h "2,-" rfl)
  rw [parse_pair] at hu hv
  obtain ⟨t, ht, hu⟩ := bind_ok hu
  rw [ht] at hv
  by_contra hno
  have hwait : ∀ p ∈ t.pending, p.1.id ≠ a.dest := fun p hp hid =>
    hno (hb.answers_of_waits ha ht hp hid)
  have hpositional := hb.dest_not_positional ha ho
  rw [values?_plain_last rfl hwait hpositional hu] at hone
  rw [values?_plain_last rfl hwait hpositional hv] at htwo
  exact a.read_probe_ne (hone.symm.trans htwo)

theorem step_letters {l r : List Char} {c : Char} (hl : l = [] ∨ l = ['i']) (hc : c ≠ '-')
    (hw : w.toList = '-' :: (l ++ c :: r)) (ht : st.trailing = false)
    (h : (atRest b.spec st && (l ++ c :: r).any fun d => (b.spec.short? d).isNone) = false) :
    step b.spec st w = cluster b.spec st (l ++ c :: r) := by
  rcases hl with rfl | rfl
  · exact step_cluster hc hw ht h
  · exact step_cluster (by decide) hw ht h

/-- Letters that end in one of an argument are read up to that. -/
theorem Apart.cluster_letters (hb : b.Apart) (ha : a ∈ b.arguments)
    (ho : a.option? = some a.opt) {l : List Char} (hl : l = [] ∨ l = ['i']) {c : Char}
    (hs : Argument.shortName a.flags = some c) :
    ∃ g : Given, a.dest ∉ g.map Prod.fst ∧
      cluster b.spec State.initial (l ++ [c]) = .ok (waiting g 0 a.opt) ∧
      ∀ v, cluster b.spec State.initial (l ++ c :: '=' :: v) =
        take (ready g 0) a.opt [String.ofList v] := by
  have hletter : b.spec.short? c = some a.opt := hb.short?_eq ha ho hs
  have hfree : a.dest ∉ reservedIds := hb.dests_free a ha
  have hwait : ∀ g, cluster b.spec (ready g 0) [c] = .ok (waiting g 0 a.opt) := by
    intro g
    rw [cluster, hletter]
    simp only [a.opt_takesValue, if_true]
    rfl
  have htake : ∀ g v, cluster b.spec (ready g 0) (c :: '=' :: v) =
      take (ready g 0) a.opt [String.ofList v] := by
    intro g v
    rw [cluster, hletter]
    simp only [a.opt_takesValue, if_true]
    rfl
  rcases hl with rfl | rfl
  · exact ⟨[], List.not_mem_nil, hwait [], htake []⟩
  · refine ⟨[("inspect", ["true"])], fun hm => hfree ?_, hwait _, htake _⟩
    rw [List.mem_singleton.1 hm]
    decide

/-- A flag that answers waits for a word; a word attached to it is taken, to a letter only before
the positional words. -/
theorem Apart.step_answers (hb : b.Apart) (ha : a ∈ b.arguments) (ho : a.option? = some a.opt)
    (hf : flag ∈ a.flags) (h : a.answers flag) :
    ∃ g : Given, a.dest ∉ g.map Prod.fst ∧
      step b.spec State.initial flag = .ok (waiting g 0 a.opt) ∧
      ((∃ name, flag.toList = '-' :: '-' :: name) ∨ b.spec.positionals ≠ [] →
        ∀ w, step b.spec State.initial (flag ++ "=" ++ w) = take (ready g 0) a.opt [w]) := by
  rcases Argument.answers_cases h with ⟨name, hflag, hne, hsign⟩ | ⟨l, c, hl, hflag, hs⟩
  · have hlong := hb.long?_eq ha ho (Argument.mem_longNames hf hflag)
    refine ⟨[], List.not_mem_nil, step_name hne hsign hflag hlong rfl, fun _ w => ?_⟩
    rw [step_name_attached hne hsign hflag hlong rfl w]
    rfl
  · obtain ⟨g, hfresh, hwait, htake⟩ := hb.cluster_letters ha ho hl hs
    have hc : c ≠ '-' := Argument.shortName_ne_dash hs
    have hletter : b.spec.short? c = some a.opt := hb.short?_eq ha ho hs
    refine ⟨g, hfresh, ?_, fun hplace w => ?_⟩
    · have hknown : ((l ++ [c]).any fun d => (b.spec.short? d).isNone) = false := by
        rcases hl with rfl | rfl <;> simp [hletter, short?_inspect]
      rw [step_letters hl hc hflag rfl (by rw [hknown, Bool.and_false]), hwait]
    · have hpositional : atRest b.spec State.initial = false := by
        have hplace : b.spec.positionals ≠ [] := hplace.resolve_left fun ⟨name, hname⟩ => by
          rw [hflag] at hname
          rcases hl with rfl | rfl <;> cases hname
          exact hc rfl
        simpa [atRest, State.initial] using fun _ => hplace
      have hw : (flag ++ "=" ++ w).toList = '-' :: (l ++ c :: '=' :: w.toList) := by
        simp [String.toList_append, hflag]
      rw [step_letters hl hc hw rfl (by rw [hpositional, Bool.false_and]), htake,
        String.ofList_toList]

theorem Apart.gives_of_answers (hb : b.Apart) (ha : a ∈ b.arguments)
    (ho : a.option? = some a.opt) (hf : flag ∈ a.flags) (h : a.answers flag)
    (hw : isPlainWord w) : b.Gives a [flag, w] w := by
  obtain ⟨g, hfresh, hwait, -⟩ := hb.step_answers ha ho hf h
  exact gives_of_holding hb.dests_nodup ha hfresh hwait (step_waiting hw a.opt)

/-! A word attached to the flag -/

theorem Apart.gives_attached (hb : b.Apart) (ha : a ∈ b.arguments)
    (ho : a.option? = some a.opt) (hf : flag ∈ a.flags) (h : a.answers flag)
    (hplace : (∃ name, flag.toList = '-' :: '-' :: name) ∨ b.spec.positionals ≠ []) :
    b.Gives a [flag ++ "=" ++ w] w := by
  obtain ⟨g, hfresh, -, hstep⟩ := hb.step_answers ha ho hf h
  exact gives_of_take hb.dests_nodup ha hfresh (hstep hplace w)

/-- A word with a dash that is attached to letters is no option where the rest may start. -/
theorem values?_lost (hp : b.spec.positionals = []) {c : Char} {r : List Char} (hc : c ≠ '-')
    (hw : w.toList = '-' :: c :: r) (hdash : '-' ∈ r)
    (h : CommandLine.parse b.spec [w] = .ok t) (id : String) : t.values? id = none := by
  have hclaims : b.spec.claims w = false := by
    rw [claims_of_letters hc hw, List.all_eq_false]
    refine ⟨'-', List.mem_cons_of_mem c hdash, ?_⟩
    rw [← short?_isSome, short?_dash]
    decide
  have hrest : atRest b.spec State.initial = true := by
    rw [atRest, hp]
    rfl
  have hplain : ∀ v ∈ [w].head?, step b.spec State.initial v = plain b.spec State.initial v := by
    intro v hv
    cases hv
    exact step_of_not_claims rfl hrest hclaims
  obtain ⟨u, hu, hgiven, -⟩ := read_rest rfl (by rw [hp]; rfl) rfl hplain
  rw [CommandLine.parse, hu] at h
  cases h
  rw [State.values?, hgiven]
  rfl

theorem Apart.attached_of_gives (hb : b.Apart) (ha : a ∈ b.arguments) (h : a.answers flag)
    (hgives : ∀ w, isPlainWord w → b.Gives a [flag ++ "=" ++ w] w) :
    (∃ name, flag.toList = '-' :: '-' :: name) ∨ b.spec.positionals ≠ [] := by
  rcases Argument.answers_cases h with ⟨name, hflag, -⟩ | ⟨l, c, hl, hflag, hs⟩
  · exact .inl ⟨name, hflag⟩
  · right
    intro hp
    have hc : c ≠ '-' := Argument.shortName_ne_dash hs
    have hlost : ∀ w, '-' ∈ w.toList → ∀ t,
        CommandLine.parse b.spec [flag ++ "=" ++ w] = .ok t → t.values? a.dest = none := by
      intro w hdash t ht
      rcases hl with rfl | rfl
      · exact values?_lost hp hc (by simp [String.toList_append, hflag])
          (List.mem_cons_of_mem '=' hdash) ht a.dest
      · have hi : 'i' ≠ '-' := by decide
        exact values?_lost hp hi (by simp [String.toList_append, hflag])
          (List.mem_cons_of_mem c (List.mem_cons_of_mem '=' hdash)) ht a.dest
    obtain ⟨u, hu, hone⟩ := (hb.gives_iff ha).1 (hgives "1,-" rfl)
    obtain ⟨v, hv, htwo⟩ := (hb.gives_iff ha).1 (hgives "2,-" rfl)
    rw [hlost _ (by decide) u hu] at hone
    rw [hlost _ (by decide) v hv] at htwo
    exact a.read_probe_ne (hone.symm.trans htwo)

/-! The flags of a signature's arguments -/

section
variable {f : Signature} {os : Overrides}

/-- All flags of the settings start with a dash. -/
def Dashed (os : Overrides) : Prop := ∀ e ∈ os, ∀ flag ∈ e.2.flags, Argument.isDashed flag

theorem dashed_inputFlags {param : String} {tune : Option Override} {default : Option Literal}
    (h : ∀ o ∈ tune, ∀ flag ∈ o.flags, Argument.isDashed flag) :
    ∀ flag ∈ (inputFlags param tune default).1, Argument.isDashed flag := by
  have hdashes : Argument.isDashed ("--" ++ param) := by
    simp [Argument.isDashed, String.toList_append]
  have hset : ∀ flag ∈ (tune.map Override.flags).getD [], Argument.isDashed flag := by
    cases tune with
    | none => exact nofun
    | some o => exact h o rfl
  intro flag hflag
  simp only [inputFlags] at hflag
  split at hflag
  · split at hflag
    · exact List.mem_singleton.1 hflag ▸ hdashes
    · cases hflag
  · split at hflag
    · exact hset flag hflag
    · cases hflag

theorem isDashed_of_mem (hd : Dashed os) (ha : a ∈ (ofSignature f os).arguments)
    (hflag : flag ∈ a.flags) : Argument.isDashed flag := by
  rcases List.mem_append.1 ha with ha | ha
  · obtain ⟨p, -, rfl⟩ := List.mem_map.1 ha
    exact dashed_inputFlags (fun o ho => hd (p.name, o) (Entries.mem_of_get? ho)) flag hflag
  · obtain ⟨e, he, -, -, -, rfl⟩ := mem_outputArguments.1 ha
    exact hd e he flag hflag

theorem positionals_of_dashed
    (hd : ∀ a ∈ b.arguments, ∀ flag ∈ a.flags, Argument.isDashed flag) :
    b.spec.positionals = b.positional.map Argument.dest := by
  refine positionals_of_option? fun a ha hne => ?_
  obtain ⟨flag, flags, hf⟩ := List.exists_cons_of_ne_nil hne
  exact Argument.option?_of_dashed hf (hd a ha flag (hf ▸ List.mem_cons_self))

/-- The table spells an argument by its first flag. A script reads a word behind that flag as the
argument's just if the flag answers, and a word attached to it, where the flag answers with a
letter, only before the positional words. -/
theorem spelling_read_iff (hf : (f.params.map Param.name).Nodup) (ho : Entries.Ordered os)
    (hd : Dashed os) {version : Option String} {doc : String}
    (hb : b = { ofSignature f os with version := version, inspectDoc := doc }) (hapart : b.Apart)
    (ha : a ∈ b.arguments) (hflags : a.flags = flag :: flags) :
    b.flagTable.get? a.param = some (flag ++ " ") ∧
    ((∀ w, isPlainWord w → b.Gives a [flag, w] w) ↔ a.answers flag) ∧
    (a.answers flag → ((∀ w, isPlainWord w → b.Gives a [flag ++ "=" ++ w] w) ↔
      a.leadsLong ∨ b.positional ≠ [])) := by
  have hargs : b.arguments = (ofSignature f os).arguments := by rw [hb]
  have hdashed : ∀ c ∈ b.arguments, ∀ flag ∈ c.flags, Argument.isDashed flag := fun c hc _ hm =>
    isDashed_of_mem hd (hargs ▸ hc) hm
  have hmem : flag ∈ a.flags := hflags ▸ List.mem_cons_self
  have hoption : a.option? = some a.opt :=
    Argument.option?_of_dashed hflags (hdashed a ha flag hmem)
  have hplace : a.leadsLong ∨ b.positional ≠ [] ↔
      (∃ name, flag.toList = '-' :: '-' :: name) ∨ b.spec.positionals ≠ [] := by
    rw [Argument.leadsLong_iff hflags, positionals_of_dashed hdashed, Ne, Ne, List.map_eq_nil_iff]
  refine ⟨?_, ⟨hapart.answers_of_gives ha hoption, ?_⟩, fun h => ?_⟩
  · have htable : b.flagTable = (ofSignature f os).flagTable := by rw [hb]
    rw [htable, get?_flagTable (ofSignature_coherent f os) (nodup_params_ofSignature hf ho)
      (hargs ▸ ha), Argument.spelling, hflags]
    rfl
  · exact fun h w hw => hapart.gives_of_answers ha hoption hmem h hw
  · rw [hplace]
    exact ⟨hapart.attached_of_gives ha h, fun hp w _ =>
      hapart.gives_attached ha hoption hmem h hp⟩

end

/-- A function with one argument by keyword. -/
def counting : Signature :=
  ⟨"process", [⟨"a", .keywordOnly, none, some (.int 1)⟩], none, none, "", "", 0⟩

def countedBy (flags : List String) : Overrides := [("a", { Override.none with flags := flags })]

theorem counting_letter {flags : List String} (h : flags = ["-a", "-b"] ∨ flags = ["-b", "--a"]) :
    ∀ a ∈ (ofSignature counting (countedBy flags)).arguments,
      a.dest = "a" ∧ Argument.shortName a.flags = some 'b' := by
  rcases h with rfl | rfl <;> decide +kernel

theorem counting_apart {flags : List String} (h : flags = ["-a", "-b"] ∨ flags = ["-b", "--a"]) :
    (ofSignature counting (countedBy flags)).Apart where
  dests_nodup := by rcases h with rfl | rfl <;> decide
  dests_free := by rcases h with rfl | rfl <;> decide
  longs_free := by rcases h with rfl | rfl <;> decide +kernel
  letters_free := by
    intro a ha c hc
    obtain rfl : 'b' = c := by simpa [(counting_letter h a ha).2] using hc
    decide
  longs_apart := by rcases h with rfl | rfl <;> decide
  letters_apart := fun a ha c hc hne =>
    absurd ((counting_letter h a ha).1.trans (counting_letter h c hc).1.symm) hne

/-- Of two letters the first is written, but the last is read. -/
theorem spelling_read_counting :
    (∃ a ∈ (ofSignature counting (countedBy ["-b", "--a"])).arguments,
      (ofSignature counting (countedBy ["-b", "--a"])).flagTable.get? a.param = some "-b " ∧
      ∀ w, isPlainWord w → (ofSignature counting (countedBy ["-b", "--a"])).Gives a ["-b", w] w) ∧
    ∃ a ∈ (ofSignature counting (countedBy ["-a", "-b"])).arguments,
      (ofSignature counting (countedBy ["-a", "-b"])).flagTable.get? a.param = some "-a " ∧
      ¬∀ w, isPlainWord w →
        (ofSignature counting (countedBy ["-a", "-b"])).Gives a ["-a", w] w := by
  have hparams : (counting.params.map Param.name).Nodup := by decide
  have hordered : ∀ flags, Entries.Ordered (countedBy flags) := fun flags =>
    List.pairwise_singleton _ _
  have hargument : ∀ flags, flags = ["-a", "-b"] ∨ flags = ["-b", "--a"] →
      ∃ a ∈ (ofSignature counting (countedBy flags)).arguments, a.flags = flags := by
    rintro flags (rfl | rfl) <;> decide +kernel
  have hdashed : ∀ flags, flags = ["-a", "-b"] ∨ flags = ["-b", "--a"] →
      Dashed (countedBy flags) := by
    rintro flags (rfl | rfl) e he flag hflag <;> cases List.mem_singleton.1 he <;> revert flag <;>
      decide
  constructor
  · obtain ⟨a, ha, hflags⟩ := hargument _ (.inr rfl)
    obtain ⟨htable, hread, -⟩ := spelling_read_iff hparams (hordered _) (hdashed _ (.inr rfl)) rfl
      (counting_apart (.inr rfl)) ha hflags
    exact ⟨a, ha, htable, hread.2 (by rw [Argument.answers, hflags]; decide)⟩
  · obtain ⟨a, ha, hflags⟩ := hargument _ (.inl rfl)
    obtain ⟨htable, hread, -⟩ := spelling_read_iff hparams (hordered _) (hdashed _ (.inl rfl)) rfl
      (counting_apart (.inl rfl)) ha hflags
    refine ⟨a, ha, htable, fun h => ?_⟩
    have hanswers := hread.1 h
    rw [Argument.answers, hflags] at hanswers
    revert hanswers
    decide

end Binding
end Pipewright
