import Mathlib.Data.List.Pairwise
import Pipewright.Proofs.Binding.Spelling
import Pipewright.Proofs.Wiring.Words

/-! Integers on the command line of a script. Behind a flag a negative one looks like letters, so
it is read only where no positional word can follow and one of its digits is no letter. -/
namespace Pipewright
open CommandLine

namespace Text

theorem integer?_of_isDigit {c : Char} {cs : List Char} (h : isDigit c = true) :
    integer? (c :: cs) = (number? 10 (c :: cs)).map Int.ofNat := by
  obtain ⟨hminus, hplus⟩ : c ≠ '-' ∧ c ≠ '+' :=
    of_isDigit (p := fun d => d ≠ '-' ∧ d ≠ '+') h (by decide)
  rw [integer?]
  · rintro r ⟨⟩
    exact hminus rfl
  · rintro r ⟨⟩
    exact hplus rfl

/-- The digits of an integer, with a sign in front of a negative one, are read as that integer. -/
theorem integer?_toString (n : Int) : integer? (toString n).toList = some n := by
  cases n with
  | ofNat n =>
    obtain ⟨c, cs, hcs, hc, -⟩ := exists_toDigits n
    have hread := number?_toDigits n
    rw [hcs] at hread
    rw [toString_ofNat, hcs, integer?_of_isDigit hc, hread]
    rfl
  | negSucc n =>
    rw [toString_negSucc, integer?, number?_toDigits]
    rfl

theorem isBlank_of_mem_toString {n : Int} {c : Char} (h : c ∈ (toString n).toList) :
    isBlank c = false := by
  have hdigit : ∀ {m : Nat}, c ∈ Nat.toDigits 10 m → isBlank c = false := fun hm =>
    of_isDigit (p := fun d => isBlank d = false) (isDigit_of_mem_toDigits hm) (by decide)
  cases n with
  | ofNat n =>
    rw [toString_ofNat] at h
    exact hdigit h
  | negSucc n =>
    rw [toString_negSucc] at h
    rcases List.mem_cons.1 h with rfl | h
    · decide
    · exact hdigit h

end Text

theorem ArgumentKind.convert_integer {n : Int} (h : fitsInt64 n = true) :
    ArgumentKind.int.convert (toString n) = .int n := by
  have htrim : Text.trim (toString n).toList = (toString n).toList :=
    Text.trim_of_all fun _ hc => Text.isBlank_of_mem_toString hc
  have hread : (Text.integer? (Text.trim (toString n).toList)).filter fitsInt64 = some n := by
    rw [htrim, Text.integer?_toString, Option.filter_some, if_pos h]
  exact congrArg (fun o : Option Int => (o.map Literal.int).getD (.str (toString n))) hread

theorem isPlainWord_toString {n : Int} (h : 0 ≤ n) : isPlainWord (toString n) := by
  cases n with
  | negSucc n => exact absurd h (Int.not_le.2 (Int.negSucc_lt_zero n))
  | ofNat n =>
    obtain ⟨c, cs, hcs, hc, -⟩ := Text.exists_toDigits n
    have hdash : c ≠ '-' := Text.of_isDigit (p := fun d => d ≠ '-') hc (by decide)
    rw [isPlainWord, toString_ofNat, hcs]
    exact decide_eq_true hdash

/-! A word behind an option that waits -/

namespace CommandLine
variable {spec : Spec} {o : Opt} {given : Given} {n : Nat} {word : String} {c : Char}
  {r : List Char} {t : State}

/-- An option for one word that got none is a fault. -/
theorem settle_unanswered {separator : Option Char} (ho : o.action = .value separator)
    (accepts : Bool) :
    settle { waiting given n o with accepts := accepts } = .error (.missingValue o.display) := by
  simp [settle, waiting, take, ho]

/-- Letters leave an option for one word without it. -/
theorem cluster_waiting {separator : Option Char} (ho : o.action = .value separator) :
    cluster spec (waiting given n o) (c :: r) ≠ .ok t := by
  have hawait : ∀ p, await (waiting given n o) p = .error (.missingValue o.display) := by
    intro p
    have hsettle : settle (waiting given n o) = _ := settle_unanswered ho true
    rw [await, hsettle]
    rfl
  have hcomplete : ∀ p words,
      complete (waiting given n o) p words = .error (.missingValue o.display) := by
    intro p words
    rw [complete, settle_unanswered ho]
    rfl
  intro h
  rw [cluster] at h
  split at h
  · cases h
  · split at h
    · split at h
      · rw [hawait] at h
        cases h
      · rw [hcomplete] at h
        cases h
      · rw [hcomplete] at h
        cases h
    · rw [hcomplete] at h
      cases h

/-- A word with one dash goes to an option that waits for it just if the rest may start there and
one of its characters is no letter. -/
theorem step_dash_waiting_iff {separator : Option Char} (ho : o.action = .value separator)
    (hc : c ≠ '-') (hw : word.toList = '-' :: c :: r) :
    step spec (waiting given n o) word = .ok t ↔
      (atRest spec (waiting given n o) = true ∧ ∃ d ∈ c :: r, spec.short? d = none) ∧
        t = holding given n o word := by
  cases hcase : atRest spec (waiting given n o) && (c :: r).any fun d => (spec.short? d).isNone with
  | false =>
    rw [step_cluster hc hw rfl hcase]
    refine ⟨fun h => absurd h (cluster_waiting ho), fun h => ?_⟩
    obtain ⟨⟨hrest, d, hd, hnone⟩, -⟩ := h
    have hany : ((c :: r).any fun d => (spec.short? d).isNone) = true :=
      List.any_eq_true.2 ⟨d, hd, by rw [hnone]; rfl⟩
    rw [hrest, hany] at hcase
    cases hcase
  | true =>
    obtain ⟨hrest, hany⟩ := Bool.and_eq_true_iff.1 hcase
    obtain ⟨d, hd, hnone⟩ := List.any_eq_true.1 hany
    have hclaims : spec.claims word = false := by
      rw [claims_of_letters hc hw, ← Bool.not_eq_true', ← any_isNone, hany]
    rw [step_of_not_claims rfl hrest hclaims]
    refine ⟨fun h => ⟨⟨hrest, d, hd, Option.isNone_iff_eq_none.1 hnone⟩, ?_⟩, ?_⟩
    · cases h
      rfl
    · rintro ⟨-, rfl⟩
      rfl

end CommandLine

namespace Binding
variable {b : Binding} {a : Argument} {flag w : String} {flags : List String} {name : List Char}
  {n : Int}

/-- No two options of a script have an id, a long name or a letter in common. -/
structure Admitted (b : Binding) : Prop where
  ids : (b.spec.options.map Opt.id ++ b.spec.positionals ++ ["__rest"]).Nodup
  names : b.spec.options.Pairwise fun o p =>
    (∀ l ∈ o.longs, l ∉ p.longs) ∧ (o.short = none ∨ o.short ≠ p.short)

/-- Each argument is an option or positional. -/
theorem dests_split_perm (as : List Argument) :
    ((as.filterMap Argument.option?).map Opt.id ++
      (as.filter fun a => a.option?.isNone).map Argument.dest).Perm (as.map Argument.dest) := by
  induction as with
  | nil => exact .refl _
  | cons a as ih =>
    cases ho : a.option? with
    | none =>
      simp only [List.filterMap_cons, List.filter_cons, ho, Option.isNone_none, if_true,
        List.map_cons]
      exact List.perm_middle.trans (ih.cons _)
    | some o =>
      have hid : o.id = a.dest := by rw [Argument.eq_opt_of_option? ho]; rfl
      simp only [List.filterMap_cons, List.filter_cons, ho, Option.isNone_some, Bool.false_eq_true,
        if_false, List.map_cons, List.cons_append, hid]
      exact ih.cons _

theorem Admitted.dests_nodup (hb : b.Admitted) : (b.arguments.map Argument.dest).Nodup := by
  have hown : (b.arguments.filterMap Argument.option?).Sublist b.spec.options :=
    (List.sublist_append_right _ _).trans (List.sublist_append_left _ _)
  have hids : (b.spec.options.map Opt.id ++ b.spec.positionals).Nodup :=
    hb.ids.sublist (List.sublist_append_left _ _)
  exact (dests_split_perm b.arguments).nodup_iff.1 (hids.sublist ((hown.map _).append_right _))

theorem Admitted.long?_eq (hb : b.Admitted) (ha : a ∈ b.arguments)
    (ho : a.option? = some a.opt) {l : String} (hl : l ∈ Argument.longNames a.flags) :
    b.spec.long? l = some a.opt := by
  have hmem := opt_mem_options ha ho
  refine find?_of_only hmem (List.contains_iff_mem.2 hl) fun o hoption hm => ?_
  by_contra hne
  have hsymm : Std.Symm fun o p : Opt => ∀ l ∈ o.longs, l ∉ p.longs :=
    ⟨fun _ _ h l hp ho => h l ho hp⟩
  have hapart := (hb.names.imp fun h => h.1).forall hoption hmem hne
  exact hapart l (List.contains_iff_mem.1 hm) hl

/-! Words behind a long name, and attached to one -/

theorem parse_ok_iff {words : List String} :
    (∃ r, b.parse words = .ok r) ↔ ∃ t, CommandLine.parse b.spec words = .ok t := by
  rw [Binding.parse]
  cases CommandLine.parse b.spec words <;> simp

/-- Whether the words that pass an integer to an argument are read. -/
def ReadsInteger (b : Binding) (a : Argument) (n : Int) : Prop :=
  a.takesMany ∨ 0 ≤ n ∨
    (b.spec.positionals = [] ∧ ∃ d ∈ Nat.toDigits 10 n.natAbs, b.spec.short? d = none)

section
variable (hb : b.Admitted) (ha : a ∈ b.arguments) (hk : a.kind.isList = false) (hne : name ≠ [])
  (hsign : ∀ c ∈ name, decide (c ≠ '=') = true) (hf : a.flags = flag :: flags)
  (hl : flag.toList = '-' :: '-' :: name)

include hf hl in
theorem long_opt : a.option? = some a.opt ∧ String.ofList name ∈ Argument.longNames a.flags := by
  refine ⟨Argument.option?_of_dashed hf ?_, Argument.mem_longNames (hf ▸ List.mem_cons_self) hl⟩
  rw [Argument.isDashed, hl]
  rfl

include hk in
theorem action_opt : a.opt.action = .value none := by
  rw [Argument.opt, hk]
  rfl

include hk in
/-- A negative integer behind a flag is taken where a word with a dash may start the rest. -/
theorem step_negative_iff {m : Nat} {t : State} :
    step b.spec (waiting [] 0 a.opt) (toString (Int.negSucc m)) = .ok t ↔
      (b.spec.positionals = [] ∧ ∃ d ∈ Nat.toDigits 10 (m + 1), b.spec.short? d = none) ∧
        t = holding [] 0 a.opt (toString (Int.negSucc m)) := by
  obtain ⟨c, cs, hcs, hc, -⟩ := Text.exists_toDigits (m + 1)
  have hdash : c ≠ '-' := Text.of_isDigit (p := fun d => d ≠ '-') hc (by decide)
  have hword : (toString (Int.negSucc m)).toList = '-' :: c :: cs := by
    rw [toString_negSucc, hcs]
  have hrest : atRest b.spec (waiting [] 0 a.opt) = true ↔ b.spec.positionals = [] := by
    rw [atRest, Bool.and_eq_true_iff, decide_eq_true_eq, ← List.length_eq_zero_iff]
    exact ⟨fun h => Nat.le_zero.1 h.2, fun h => ⟨rfl, Nat.le_zero.2 h⟩⟩
  rw [step_dash_waiting_iff (action_opt hk) hdash hword, hrest, hcs]

include hb ha hk hne hsign hf hl in
theorem Admitted.gives_integer (h : b.ReadsInteger a n) :
    b.Gives a (a.passed (toString n)) (toString n) := by
  obtain ⟨hoption, hmem⟩ := long_opt hf hl
  have hd := hb.dests_nodup
  have hlong := hb.long?_eq ha hoption hmem
  rw [Argument.passed_of_flags hf]
  cases hm : a.takesMany with
  | true => exact gives_of_take hd ha List.not_mem_nil (step_name_attached hne hsign hl hlong rfl _)
  | false =>
    have hflag : step b.spec State.initial flag = .ok (waiting [] 0 a.opt) :=
      (step_name hne hsign hl hlong rfl).trans (await_ok rfl _)
    refine gives_of_holding hd ha List.not_mem_nil hflag ?_
    rcases h.resolve_left (by simp [hm]) with hn | hn
    · exact step_waiting (isPlainWord_toString hn) a.opt
    · cases n with
      | ofNat n => exact step_waiting (isPlainWord_toString (Int.natCast_nonneg n)) a.opt
      | negSucc m => exact (step_negative_iff hk).2 ⟨hn, rfl⟩

include hb ha hk hne hsign hf hl in
theorem Admitted.readsInteger_of_parse {r : BoundArguments}
    (h : b.parse (a.passed (toString n)) = .ok r) : b.ReadsInteger a n := by
  obtain ⟨hoption, hmem⟩ := long_opt hf hl
  have hlong := hb.long?_eq ha hoption hmem
  cases n with
  | ofNat n => exact .inr (.inl (Int.natCast_nonneg n))
  | negSucc m =>
    rw [Argument.passed_of_flags hf] at h
    cases hm : a.takesMany with
    | true => exact .inl hm
    | false =>
      rw [hm] at h
      obtain ⟨t, ht⟩ := parse_ok_iff.1 ⟨r, h⟩
      have hflag : step b.spec State.initial flag = .ok (waiting [] 0 a.opt) :=
        (step_name hne hsign hl hlong rfl).trans (await_ok rfl _)
      rw [if_neg (by decide), parse_pair] at ht
      obtain ⟨s, hs, ht⟩ := bind_ok ht
      cases hflag.symm.trans hs
      obtain ⟨u, hu, -⟩ := bind_ok ht
      exact .inr (.inr ((step_negative_iff hk).1 hu).1)

end

/-- A process writes an integer behind a long flag as the words that pass it. The script reads it
back just if it is attached to the flag, or not negative, or if no argument is positional and one
of its digits is no letter; otherwise the command line is refused. -/
theorem integer_read_iff (hb : b.Admitted) (hc : b.Coherent)
    (hp : (b.arguments.map Argument.param).Nodup) (ha : a ∈ b.arguments)
    (hs : isStarred a.param = false) (hk : a.kind = .int) (hf : a.flags = flag :: flags)
    (hflag : Argument.isFlag flag) (hl : flag.toList = '-' :: '-' :: name)
    (hn : fitsInt64 n = true) :
    (Wiring.emit b Wiring.empty a.param (toString n)).flags.map FlagWord.text =
        [joined " " (a.passed (toString n))] ∧
      a.passed (toString n) =
        (if a.takesMany then [flag ++ "=" ++ toString n] else [flag, toString n]) ∧
      ((∃ r, b.parse (a.passed (toString n)) = .ok r) ↔ b.ReadsInteger a n) ∧
      ∀ r, b.parse (a.passed (toString n)) = .ok r → r.get? a.dest = some (.int n) := by
  have hlist : a.kind.isList = false := by rw [hk]; rfl
  have hname : isFlagName name := by rwa [Argument.isFlag, hl] at hflag
  have hne : name ≠ [] := Argument.ne_nil_of_isFlagName hname
  have hsign := Argument.sign_of_isFlagName hname
  have hread : a.read (toString n) = .int n := by
    rw [Argument.read, hk]
    exact ArgumentKind.convert_integer hn
  refine ⟨?_, Argument.passed_of_flags hf _, ⟨?_, ?_⟩, ?_⟩
  · have hbinds : Wiring.binds a.param (a.param, toString n) := by simp [Wiring.binds, hs]
    have hspelling : a.spelling ≠ "" := by
      rw [Ne, Argument.spelling_eq_empty_iff, Argument.isPositional, hf]
      exact Bool.false_ne_true
    have hwords := Wiring.flagWords_argument hc hp ha hbinds
    rw [if_neg hspelling] at hwords
    have hjoined := Argument.word_eq_joined (a := a) (by simpa [hf] using hflag) (toString n)
    rw [← hjoined]
    exact congrArg (List.map FlagWord.text) hwords
  · rintro ⟨r, hr⟩
    exact hb.readsInteger_of_parse ha hlist hne hsign hf hl hr
  · intro h
    obtain ⟨r, hr, -⟩ := hb.gives_integer ha hlist hne hsign hf hl h
    exact ⟨r, hr⟩
  · intro r hr
    have h := hb.readsInteger_of_parse ha hlist hne hsign hf hl hr
    obtain ⟨r', hr', hvalue⟩ := hb.gives_integer ha hlist hne hsign hf hl h
    cases hr.symm.trans hr'
    rw [hvalue, hread]

/-- A function that takes some parameters and then a count by keyword. -/
def counter (params : List Param) : Signature :=
  ⟨"process", params ++ [⟨"count", .keywordOnly, some "int", some (.int 2)⟩], none, none, "", "", 0⟩

def tableParam : Param := ⟨"table", .positional, none, none⟩

theorem counter_admitted {params : List Param} (h : params = [] ∨ params = [tableParam]) :
    (ofSignature (counter params) []).Admitted where
  ids := by rcases h with rfl | rfl <;> decide
  names := by rcases h with rfl | rfl <;> decide

/-- A negative count is refused while a table is missing. -/
theorem integer_read_counter :
    (∃ r, (ofSignature (counter [tableParam]) []).parse ["--count", "5"] = .ok r ∧
      r.get? "count" = some (.int 5)) ∧
    (¬∃ r, (ofSignature (counter [tableParam]) []).parse ["--count", "-5"] = .ok r) ∧
    ∃ r, (ofSignature (counter []) []).parse ["--count", "-5"] = .ok r ∧
      r.get? "count" = some (.int (-5)) := by
  have hcount : ∀ params, params = [] ∨ params = [tableParam] →
      ∃ a ∈ (ofSignature (counter params) []).arguments, a.param = "count" ∧ a.dest = "count" ∧
        a.kind = .int ∧ a.flags = ["--count"] ∧ a.takesMany = false := by
    rintro params (rfl | rfl) <;> decide
  have hparams : ∀ params, params = [] ∨ params = [tableParam] →
      ((ofSignature (counter params) []).arguments.map Argument.param).Nodup := by
    rintro params (rfl | rfl) <;> decide
  have hread : ∀ params, params = [] ∨ params = [tableParam] → ∀ n, fitsInt64 n = true →
      ∃ a ∈ (ofSignature (counter params) []).arguments, a.takesMany = false ∧
        ((∃ r, (ofSignature (counter params) []).parse ["--count", toString n] = .ok r) ↔
          (ofSignature (counter params) []).ReadsInteger a n) ∧
        ∀ r, (ofSignature (counter params) []).parse ["--count", toString n] = .ok r →
          r.get? "count" = some (.int n) := by
    intro params h n hn
    obtain ⟨a, ha, hparam, hdest, hk, hf, hm⟩ := hcount params h
    obtain ⟨-, hpassed, hread, hvalue⟩ := integer_read_iff (counter_admitted h)
      (ofSignature_coherent _ _) (hparams params h) ha (by rw [hparam]; decide) hk hf
      (by decide) rfl hn
    rw [hpassed, hm] at hread hvalue
    exact ⟨a, ha, hm, hread, hdest ▸ hvalue⟩
  obtain ⟨_, -, -, hfive, hvalue⟩ := hread [tableParam] (.inr rfl) 5 (by decide)
  obtain ⟨_, -, hm, hminus, -⟩ := hread [tableParam] (.inr rfl) (-5) (by decide)
  obtain ⟨_, -, -, halone, hown⟩ := hread [] (.inl rfl) (-5) (by decide)
  refine ⟨?_, fun h => ?_, ?_⟩
  · obtain ⟨r, hr⟩ := hfive.2 (.inr (.inl (by decide)))
    exact ⟨r, hr, hvalue r hr⟩
  · rcases hminus.1 h with hmany | hneg | ⟨hnone, -⟩
    · simp [hm] at hmany
    · exact absurd hneg (by decide)
    · exact absurd hnone (by decide)
  · obtain ⟨r, hr⟩ := halone.2 (.inr (.inr ⟨by decide, '5', by decide, by decide⟩))
    exact ⟨r, hr, hown r hr⟩

end Binding
end Pipewright
