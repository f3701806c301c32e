import Mathlib.Data.List.Nodup
import Mathlib.Data.List.TakeWhile
import Pipewright.Binding.Arguments
import Pipewright.Proofs.CommandLine.Reading

/-! The options of a binding: each argument with a flag is found under its names, and under no
other. A word attached to a letter is an option only while positional words are missing. -/
namespace Pipewright
open CommandLine

namespace Argument

def isFlag (f : String) : Bool :=
  match f.toList with
  | '-' :: '-' :: name => isFlagName name
  | '-' :: name => isFlagName name
  | _ => false

def leadsLong (a : Argument) : Bool :=
  a.flags.head?.any fun f =>
    match f.toList with
    | '-' :: '-' :: _ => true
    | _ => false

/-- Whether the first flag is a long one or the letter that counts. -/
def leads (a : Argument) : Bool :=
  a.flags.head?.any fun f =>
    match f.toList with
    | '-' :: '-' :: _ => true
    | ['-', c] => shortName a.flags = some c
    | _ => false

def opt (a : Argument) : Opt where
  id := a.dest
  longs := longNames a.flags
  short := shortName a.flags
  action := if a.kind.isList then .values ',' else .value none
  valueName := a.dest

/-- What a word for an argument is split into. -/
def items (a : Argument) (word : String) : List String :=
  if a.kind.isList then pieces ',' word else [word]

end Argument

namespace Binding

def reservedIds : List String := ["displayMax", "inspect", "__rest", "help", "version"]
def reservedLongs : List String := ["peek", "inspect", "help", "version"]
def reservedLetters : List Char := ['p', 'i', 'h']

/-- The arguments of a binding can be told apart on a command line, and from the options that
every script has. -/
structure Clear (b : Binding) : Prop where
  dests_nodup : (b.arguments.map Argument.dest).Nodup
  dests_free : ∀ a ∈ b.arguments, a.dest ∉ reservedIds
  longs_free : ∀ a ∈ b.arguments, ∀ n ∈ Argument.longNames a.flags, n ∉ reservedLongs
  letters_free : ∀ a ∈ b.arguments, ∀ c ∈ Argument.shortName a.flags, c ∉ reservedLetters
  longs_apart : ∀ a ∈ b.arguments, ∀ c ∈ b.arguments, a.dest ≠ c.dest →
    ∀ n ∈ Argument.longNames a.flags, n ∉ Argument.longNames c.flags
  letters_apart : ∀ a ∈ b.arguments, ∀ c ∈ b.arguments, a.dest ≠ c.dest →
    ∀ l ∈ Argument.shortName a.flags, Argument.shortName c.flags ≠ some l
  flags_named : ∀ a ∈ b.arguments, ∀ f ∈ a.flags, Argument.isFlag f
  leads : ∀ a ∈ b.arguments, a.flags ≠ [] → a.leads
  positional_scalar : ∀ a ∈ b.arguments, a.flags = [] → a.kind.isList = false
  lists_many : ∀ a ∈ b.arguments, a.kind.isList →
    a.nargs = none ∨ a.nargs = some "*" ∨ a.nargs = some "+" ∨ a.nargs = some "?"

/-- The destinations, long names and letters of a binding are apart from each other, and from those
that every script has. -/
structure Apart (b : Binding) : Prop where
  dests_nodup : (b.arguments.map Argument.dest).Nodup
  dests_free : ∀ a ∈ b.arguments, a.dest ∉ reservedIds
  longs_free : ∀ a ∈ b.arguments, ∀ n ∈ Argument.longNames a.flags, n ∉ reservedLongs
  letters_free : ∀ a ∈ b.arguments, ∀ c ∈ Argument.shortName a.flags, c ∉ reservedLetters
  longs_apart : ∀ a ∈ b.arguments, ∀ c ∈ b.arguments, a.dest ≠ c.dest →
    ∀ n ∈ Argument.longNames a.flags, n ∉ Argument.longNames c.flags
  letters_apart : ∀ a ∈ b.arguments, ∀ c ∈ b.arguments, a.dest ≠ c.dest →
    ∀ l ∈ Argument.shortName a.flags, Argument.shortName c.flags ≠ some l

theorem Clear.apart {b : Binding} (hb : b.Clear) : b.Apart :=
  ⟨hb.dests_nodup, hb.dests_free, hb.longs_free, hb.letters_free, hb.longs_apart,
    hb.letters_apart⟩

end Binding

theorem find?_of_only {α : Type*} {p : α → Bool} {x : α} {xs : List α} (hx : x ∈ xs) (hp : p x)
    (h : ∀ y ∈ xs, p y → y = x) : xs.find? p = some x := by
  cases hf : xs.find? p with
  | none => exact absurd hp (List.find?_eq_none.1 hf x hx)
  | some y => rw [h y (List.mem_of_find?_eq_some hf) (List.find?_some hf)]

namespace Argument
variable {a : Argument} {f : String} {fs : List String} {st : State} {w : String}

theorem takesMany_of_list (hl : a.kind.isList)
    (hn : a.nargs = none ∨ a.nargs = some "*" ∨ a.nargs = some "+" ∨ a.nargs = some "?") :
    a.takesMany := by
  rcases hn with h | h | h | h <;> simp [takesMany, h, hl]

theorem option?_of_positional (h : a.flags = []) : a.option? = none := by
  rw [option?, h]
  rfl

theorem eq_opt_of_option? {o : Opt} (h : a.option? = some o) : o = a.opt := by
  rw [option?] at h
  split at h
  · cases h
  · cases h; rfl

theorem option?_of_leads (h : a.leads) : a.option? = some a.opt := by
  rw [leads] at h
  cases hf : a.flags with
  | nil => simp [hf] at h
  | cons f fs =>
    rw [option?, if_neg]
    · rfl
    rw [hf, List.head?_cons, Option.any_some] at h
    split at h
    · rename_i name hn
      simp [hf, longNames, hn]
    · rename_i c hn
      simp [hf, of_decide_eq_true h]
    · cases h

theorem opt_takesValue (a : Argument) : a.opt.takesValue = true := by
  rw [Opt.takesValue, opt]
  cases a.kind.isList <;> rfl

theorem opt_takesMany (a : Argument) : a.opt.takesMany = a.kind.isList := by
  rw [Opt.takesMany, opt]
  cases a.kind.isList <;> rfl

/-- The option of an argument that has no value yet takes one word. -/
theorem take_opt (h : a.dest ∉ st.given.map Prod.fst) (w : String) :
    take st a.opt [w] = .ok { st with given := st.given ++ [(a.dest, a.items w)] } := by
  have hg : Entries.get? a.dest st.given = none := Entries.get?_eq_none_iff.2 h
  cases hl : a.kind.isList with
  | true => simp [take, opt, hl, addGiven_fresh h, items, Opt.split]
  | false => simp [take, opt, hl, hg, addGiven_fresh h, items, Opt.split]

theorem isFlag_cases (h : isFlag f) : ∃ name, isFlagName name ∧
    (f.toList = '-' :: '-' :: name ∨ f.toList = '-' :: name) := by
  rw [isFlag] at h
  split at h
  · rename_i name hl
    exact ⟨name, h, .inl hl⟩
  · rename_i name _ hl
    exact ⟨name, h, .inr hl⟩
  · cases h

theorem ne_nil_of_isFlagName {name : List Char} (h : isFlagName name) : name ≠ [] := by
  rintro rfl
  cases h

theorem sign_of_isFlagName {name : List Char} (h : isFlagName name) :
    ∀ c ∈ name, decide (c ≠ '=') = true := fun c hc =>
  (Bool.and_eq_true_iff.1 (List.all_eq_true.1 (Bool.and_eq_true_iff.1 h).2 c hc)).1

theorem lead_cases (hf : a.flags = f :: fs) (hl : a.leads) (hflag : isFlag f) :
    (∃ name, isFlagName name ∧ f.toList = '-' :: '-' :: name ∧
        String.ofList name ∈ longNames a.flags ∧ a.leadsLong) ∨
      (∃ c, f.toList = ['-', c] ∧ c ≠ '-' ∧ shortName a.flags = some c ∧ a.leadsLong = false) := by
  rw [leads, hf, List.head?_cons, Option.any_some] at hl
  rw [isFlag] at hflag
  split at hl
  · rename_i name hname
    left
    rw [hname] at hflag
    refine ⟨name, hflag, hname, ?_, ?_⟩
    · rw [hf, longNames, List.filterMap_cons, hname]
      exact List.mem_cons_self
    · simp [leadsLong, hf, hname]
  · rename_i c hd hc
    right
    refine ⟨c, hc, hd, hf ▸ of_decide_eq_true hl, ?_⟩
    rw [leadsLong, hf, List.head?_cons, Option.any_some, hc]
    split
    · rename_i he
      cases he
      exact absurd rfl hd
    · rfl
  · cases hl

theorem exists_flag_of_shortName {flags : List String} {c : Char} (h : shortName flags = some c) :
    ∃ f ∈ flags, f.toList = ['-', c] ∧ c ≠ '-' := by
  obtain ⟨f, hf, hc⟩ := List.mem_filterMap.1 (List.mem_of_getLast? h)
  refine ⟨f, hf, ?_⟩
  split at hc
  · cases hc
  · rename_i d hd hl
    cases hc
    exact ⟨hl, fun he => hd (he ▸ rfl)⟩
  · cases hc

end Argument

namespace Binding
variable {b : Binding} {a : Argument}

theorem mem_options {o : Opt} (h : o ∈ b.spec.options) :
    (∃ a ∈ b.arguments, o = a.opt) ∨
      o ∈ [peekOption, inspectOption, versionOption, helpOption] := by
  simp only [spec, List.mem_append, List.mem_filterMap] at h
  rcases h with ((h | h) | ⟨a, ha, ho⟩) | h
  · right
    rcases List.mem_cons.1 h with rfl | h <;> simp_all
  · right
    split at h <;> simp_all
  · exact .inl ⟨a, ha, Argument.eq_opt_of_option? ho⟩
  · right
    simp_all

theorem opt_mem_options (ha : a ∈ b.arguments) (ho : a.option? = some a.opt) :
    a.opt ∈ b.spec.options := by
  have h : a.opt ∈ b.arguments.filterMap Argument.option? := List.mem_filterMap.2 ⟨a, ha, ho⟩
  simp only [spec, List.mem_append]
  exact .inl (.inr h)

namespace Apart

theorem eq_of_dest (hb : b.Apart) {c : Argument} (ha : a ∈ b.arguments) (hc : c ∈ b.arguments)
    (h : a.dest = c.dest) : a = c :=
  List.inj_on_of_nodup_map hb.dests_nodup ha hc h

/-- Only its own option answers to a long name of an argument. -/
theorem long?_eq (hb : b.Apart) (ha : a ∈ b.arguments) (ho : a.option? = some a.opt) {n : String}
    (hn : n ∈ Argument.longNames a.flags) : b.spec.long? n = some a.opt := by
  refine find?_of_only (opt_mem_options ha ho) (List.contains_iff_mem.2 hn) fun o ho hm => ?_
  have hm : n ∈ o.longs := List.contains_iff_mem.1 hm
  rcases mem_options ho with ⟨c, hc, rfl⟩ | ho
  · by_cases hd : a.dest = c.dest
    · rw [hb.eq_of_dest ha hc hd]
    · exact absurd hm (hb.longs_apart a ha c hc hd n hn)
  · have hr : n ∈ reservedLongs := by
      simp only [List.mem_cons, List.not_mem_nil, or_false] at ho
      rcases ho with rfl | rfl | rfl | rfl <;>
        · rw [List.mem_singleton.1 hm]
          decide
    exact absurd hr (hb.longs_free a ha n hn)

theorem short?_eq (hb : b.Apart) (ha : a ∈ b.arguments) (ho : a.option? = some a.opt) {l : Char}
    (hs : Argument.shortName a.flags = some l) : b.spec.short? l = some a.opt := by
  refine find?_of_only (opt_mem_options ha ho) (decide_eq_true hs) fun o ho hm => ?_
  have hm : o.short = some l := of_decide_eq_true hm
  rcases mem_options ho with ⟨c, hc, rfl⟩ | ho
  · by_cases hd : a.dest = c.dest
    · rw [hb.eq_of_dest ha hc hd]
    · exact absurd hm (hb.letters_apart a ha c hc hd l hs)
  · have hr : l ∈ reservedLetters := by
      simp only [List.mem_cons, List.not_mem_nil, or_false] at ho
      rcases ho with rfl | rfl | rfl | rfl <;> cases hm <;> decide
    exact absurd hr (hb.letters_free a ha l hs)

end Apart

/-! Flags as words -/

section
variable {st : State} {flag : String} {name : List Char}

theorem step_long (hn : name ≠ []) (hl : flag.toList = '-' :: '-' :: name)
    (ht : st.trailing = false) : step b.spec st flag = long b.spec st flag name := by
  rw [step, ht, hl]
  cases name with
  | nil => exact absurd rfl hn
  | cons c cs => rfl

/-- A long name on its own waits for a word. -/
theorem step_name (hn : name ≠ []) (hsign : ∀ c ∈ name, decide (c ≠ '=') = true)
    (hl : flag.toList = '-' :: '-' :: name)
    (ho : b.spec.long? (String.ofList name) = some a.opt) (ht : st.trailing = false) :
    step b.spec st flag = await st a.opt := by
  have htake : name.takeWhile (· ≠ '=') = name := List.takeWhile_eq_self_iff.2 hsign
  have hdrop : name.dropWhile (· ≠ '=') = [] := List.dropWhile_eq_nil_iff.2 hsign
  rw [step_long hn hl ht, long, htake, hdrop, ho]
  simp only [a.opt_takesValue]

theorem step_name_attached (hn : name ≠ []) (hsign : ∀ c ∈ name, decide (c ≠ '=') = true)
    (hl : flag.toList = '-' :: '-' :: name)
    (ho : b.spec.long? (String.ofList name) = some a.opt) (ht : st.trailing = false) (w : String) :
    step b.spec st (flag ++ "=" ++ w) = complete st a.opt [w] := by
  have hw : (flag ++ "=" ++ w).toList = '-' :: '-' :: (name ++ '=' :: w.toList) := by
    simp [String.toList_append, hl]
  have htake : (name ++ '=' :: w.toList).takeWhile (· ≠ '=') = name := by
    rw [List.takeWhile_append_of_pos hsign]
    simp
  have hdrop : (name ++ '=' :: w.toList).dropWhile (· ≠ '=') = '=' :: w.toList := by
    rw [List.dropWhile_append_of_pos hsign]
    simp
  rw [step_long (by simp [hn]) hw ht, long, htake, hdrop, ho]
  simp only [a.opt_takesValue, String.ofList_toList]

end

/-- Where the flags make options, the words in order are those of the arguments without flags. -/
theorem positionals_of_option? (h : ∀ a ∈ b.arguments, a.flags ≠ [] → a.option? = some a.opt) :
    b.spec.positionals = (b.arguments.filter Argument.isPositional).map Argument.dest := by
  have hf : b.arguments.filter (fun a => a.option?.isNone) =
      b.arguments.filter Argument.isPositional := by
    refine List.filter_congr fun a ha => ?_
    rw [Argument.isPositional]
    cases hf : a.flags with
    | nil => rw [Argument.option?_of_positional hf]; rfl
    | cons f fs => rw [h a ha (by simp [hf])]; rfl
  rw [← hf]
  rfl

namespace Clear

/-- No option is called by the sign that attaches values. -/
theorem short?_sign (hb : b.Clear) : b.spec.short? '=' = none := by
  rw [Spec.short?, List.find?_eq_none]
  intro o ho hm
  have hm : o.short = some '=' := of_decide_eq_true hm
  rcases mem_options ho with ⟨c, hc, rfl⟩ | ho
  · obtain ⟨f, hf, hl, -⟩ := Argument.exists_flag_of_shortName hm
    have hn := hb.flags_named c hc f hf
    simp [Argument.isFlag, hl, isFlagName] at hn
  · simp only [List.mem_cons, List.not_mem_nil, or_false] at ho
    rcases ho with rfl | rfl | rfl | rfl <;> cases hm

theorem positionals_eq (hb : b.Clear) :
    b.spec.positionals = (b.arguments.filter Argument.isPositional).map Argument.dest :=
  positionals_of_option? fun a ha hf => Argument.option?_of_leads (hb.leads a ha hf)

variable {f : String} {fs : List String} {st : State}

theorem flag_cases (hb : b.Clear) (ha : a ∈ b.arguments) (hf : a.flags = f :: fs) :
    (∃ name, isFlagName name ∧ f.toList = '-' :: '-' :: name ∧
        b.spec.long? (String.ofList name) = some a.opt ∧ a.leadsLong) ∨
      (∃ c, f.toList = ['-', c] ∧ c ≠ '-' ∧ b.spec.short? c = some a.opt ∧
        a.leadsLong = false) := by
  have hl : a.leads := hb.leads a ha (by simp [hf])
  have hflag : Argument.isFlag f := hb.flags_named a ha f (by simp [hf])
  rcases Argument.lead_cases hf hl hflag with ⟨name, hn, hname, hm, hlong⟩ | ⟨c, hc, hd, hs, hlong⟩
  · exact .inl ⟨name, hn, hname, hb.apart.long?_eq ha (Argument.option?_of_leads hl) hm, hlong⟩
  · exact .inr ⟨c, hc, hd, hb.apart.short?_eq ha (Argument.option?_of_leads hl) hs, hlong⟩

/-- A flag on its own waits for a word. -/
theorem step_flag (hb : b.Clear) (ha : a ∈ b.arguments) (hf : a.flags = f :: fs)
    (ht : st.trailing = false) : step b.spec st f = await st a.opt := by
  rcases hb.flag_cases ha hf with ⟨name, hn, hname, hlong, -⟩ | ⟨c, hc, hd, hshort, -⟩
  · exact step_name (Argument.ne_nil_of_isFlagName hn) (Argument.sign_of_isFlagName hn) hname
      hlong ht
  · have hstep : step b.spec st f = cluster b.spec st [c] :=
      step_cluster hd hc ht (by simp [hshort])
    rw [hstep, cluster, hshort]
    simp only [a.opt_takesValue, if_true]

theorem step_attached (hb : b.Clear) (ha : a ∈ b.arguments) (hf : a.flags = f :: fs)
    (hl : a.leadsLong) (ht : st.trailing = false) (w : String) :
    step b.spec st (f ++ "=" ++ w) = complete st a.opt [w] := by
  rcases hb.flag_cases ha hf with ⟨name, hn, hname, hlong, -⟩ | ⟨c, -, -, -, hlong⟩
  · exact step_name_attached (Argument.ne_nil_of_isFlagName hn) (Argument.sign_of_isFlagName hn)
      hname hlong ht w
  · rw [hl] at hlong
    cases hlong

/-- A word attached to a letter is no option where the rest may start. -/
theorem step_letter (hb : b.Clear) (ha : a ∈ b.arguments) (hf : a.flags = f :: fs)
    (hl : a.leadsLong = false) (ht : st.trailing = false)
    (hn : b.spec.positionals.length ≤ st.filled) (w : String) :
    step b.spec st (f ++ "=" ++ w) = plain b.spec st (f ++ "=" ++ w) := by
  rcases hb.flag_cases ha hf with ⟨name, -, -, -, hlong⟩ | ⟨c, hc, hd, -, -⟩
  · rw [hl] at hlong
    cases hlong
  · have hw : (f ++ "=" ++ w).toList = '-' :: c :: '=' :: w.toList := by
      simp [String.toList_append, hc]
    have hrest : atRest b.spec st = true := by
      rw [atRest, Bool.and_eq_true_iff]
      exact ⟨rfl, decide_eq_true hn⟩
    rw [step, ht, hw, if_neg (by decide)]
    simp [hrest, hb.short?_sign]

end Clear

end Binding

end Pipewright
