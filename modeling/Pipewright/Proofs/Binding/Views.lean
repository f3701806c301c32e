import Mathlib.Order.Bounds.Basic
import Pipewright.Proofs.Binding.Table

/-! The arguments of a command line, the table of their flags and the destinations of its results
agree, whatever the settings say. -/
namespace Pipewright.Binding

/-- Settings that belong to no parameter of the function. -/
def IsForeign (f : Signature) (e : String × Override) : Prop :=
  e.1 ∉ f.params.map Param.name ∧ e.1 ≠ "self"

/-- Earlier results come first, and the names of arguments for one result are in order. -/
def Precedes (a c : Argument) : Prop :=
  resultIndex a < resultIndex c ∨ resultIndex a = resultIndex c ∧ a.param < c.param

/-- What the three views of a command line say of the function and of each other. -/
structure Views (f : Signature) (os : Overrides) (b : Binding) : Prop where
  parts : b.arguments = b.inputArguments ++ b.fileArguments
  inputs : b.inputArguments.map Argument.param = f.exposed.map Param.name
  files : ∀ a, a ∈ b.fileArguments ↔ ∃ e ∈ os, IsForeign f e ∧ e.2.output ≠ 0 ∧ e.2.flags ≠ [] ∧
    a = outputArgument e.1 e.2
  sorted : b.fileArguments.Pairwise Precedes
  distinct : (b.arguments.map Argument.param).Nodup
  tableInputs : b.flagTable.inputs.map Prod.fst = b.inputArguments.map Argument.param
  tableOutputs : b.flagTable.outputs.map Prod.fst = b.fileArguments.map Argument.param
  spelled : ∀ param, b.flagTable.get? param = (b.argument? param).map Argument.spelling
  positional : ∀ a ∈ b.arguments, b.flagTable.get? a.param = some "" ↔ a.isPositional
  results : IsGreatest (insert 1 {n | ∃ e ∈ os, IsForeign f e ∧ e.2.output = n}) b.outputs.length
  /-- The destination of each file argument has its place. -/
  within : ∀ a ∈ b.fileArguments, ∃ k < b.outputs.length, a.role = .output (k + 1)
  slots : ∀ k < b.outputs.length,
    (∃ a ∈ b.fileArguments, a.role = .output (k + 1) ∧ b.outputs[k]? = some (some a.dest)) ∨
      (∀ a ∈ b.fileArguments, a.role ≠ .output (k + 1)) ∧ b.outputs[k]? = some none

section
variable {f : Signature} {os : Overrides} {a : Argument}

/-! The arguments -/

theorem mem_foreign {e : String × Override} : e ∈ foreign f os ↔ e ∈ os ∧ IsForeign f e := by
  simp only [foreign, IsForeign, List.mem_filter, Signature.param?, Bool.and_eq_true,
    decide_eq_true_eq, Option.isNone_iff_eq_none, List.find?_eq_none, List.mem_map, not_exists,
    not_and]

theorem mem_outputArguments : a ∈ outputArguments f os ↔
    ∃ e ∈ os, IsForeign f e ∧ e.2.output ≠ 0 ∧ e.2.flags ≠ [] ∧ a = outputArgument e.1 e.2 := by
  rw [outputArguments, (sortByResult_perm _).mem_iff]
  simp only [List.mem_map, List.mem_filter, mem_foreign]
  constructor
  · rintro ⟨e, ⟨⟨hm, hf⟩, hc⟩, rfl⟩
    simp only [Bool.and_eq_true, decide_eq_true_eq, Bool.not_eq_true', List.isEmpty_eq_false_iff]
      at hc
    exact ⟨e, hm, hf, hc.1, hc.2, rfl⟩
  · rintro ⟨e, hm, hf, ho, hflags, rfl⟩
    exact ⟨e, ⟨⟨hm, hf⟩, by simp [ho, hflags]⟩, rfl⟩

/-- An argument whose name comes after those of all others is inserted in order. -/
theorem pairwise_insertByResult {as : List Argument} (h : as.Pairwise Precedes)
    (hname : ∀ c ∈ as, c.param < a.param) : (insertByResult a as).Pairwise Precedes := by
  -- Insertion passes all arguments for the same result, whose names come before.
  induction as with
  | nil => simp [insertByResult]
  | cons c as ih =>
    obtain ⟨hc, has⟩ := List.pairwise_cons.1 h
    obtain ⟨hca, hnames⟩ := List.forall_mem_cons.1 hname
    rw [insertByResult]
    split
    · rename_i hlt
      refine List.pairwise_cons.2 ⟨List.forall_mem_cons.2 ⟨.inl hlt, fun d hd => ?_⟩, h⟩
      obtain hcd | ⟨hcd, -⟩ := hc d hd
      · exact .inl (Nat.lt_trans hlt hcd)
      · exact .inl (hcd ▸ hlt)
    · rename_i hle
      refine List.pairwise_cons.2 ⟨fun d hd => ?_, ih has hnames⟩
      obtain rfl | hd := List.mem_cons.1 ((insertByResult_perm _ _).mem_iff.1 hd)
      · obtain hlt | heq := Nat.lt_or_eq_of_le (Nat.le_of_not_lt hle)
        · exact .inl hlt
        · exact .inr ⟨heq, hca⟩
      · exact hc d hd

/-- Arguments in the order of their names are sorted by result and name. -/
theorem pairwise_foldl_insertByResult {as sorted : List Argument}
    (has : as.Pairwise fun a c => a.param < c.param) (hs : sorted.Pairwise Precedes)
    (hname : ∀ c ∈ sorted, ∀ a ∈ as, c.param < a.param) :
    (as.foldl (fun sorted a => insertByResult a sorted) sorted).Pairwise Precedes := by
  induction as generalizing sorted with
  | nil => exact hs
  | cons a as ih =>
    obtain ⟨ha, has⟩ := List.pairwise_cons.1 has
    refine ih has (pairwise_insertByResult hs fun c hc => hname c hc a List.mem_cons_self) ?_
    intro c hc d hd
    obtain rfl | hc := List.mem_cons.1 ((insertByResult_perm _ _).mem_iff.1 hc)
    · exact ha d hd
    · exact hname c hc d (List.mem_cons_of_mem a hd)

/-- The settings for file arguments are in the order of their names. -/
theorem pairwise_fileSettings (ho : Entries.Ordered os) :
    ((foreign f os).filter fun (_, o) => o.output ≠ 0 && !o.flags.isEmpty).Pairwise
      fun e d => e.1 < d.1 :=
  List.Pairwise.filter _ (List.Pairwise.filter _ ho)

theorem pairwise_outputArguments (ho : Entries.Ordered os) :
    (outputArguments f os).Pairwise Precedes :=
  pairwise_foldl_insertByResult (List.pairwise_map.2 (pairwise_fileSettings ho)) .nil (by simp)

theorem nodup_params_ofSignature (hf : (f.params.map Param.name).Nodup)
    (ho : Entries.Ordered os) : ((ofSignature f os).arguments.map Argument.param).Nodup := by
  have hexposed : (f.exposed.map Param.name).Nodup :=
    hf.sublist (List.filter_sublist.map Param.name)
  have hfiles : ((outputArguments f os).map Argument.param).Nodup := by
    rw [outputArguments, ((sortByResult_perm _).map Argument.param).nodup_iff, List.map_map]
    exact List.pairwise_map.2 ((pairwise_fileSettings ho).imp fun h => String.ne_of_lt h)
  rw [ofSignature, List.map_append, List.map_map]
  refine List.nodup_append.2 ⟨hexposed, hfiles, ?_⟩
  rintro _ hp _ hc rfl
  obtain ⟨p, hm, hname⟩ := List.mem_map.1 hp
  obtain ⟨c, hc, hparam⟩ := List.mem_map.1 hc
  obtain ⟨e, -, hforeign, -, -, rfl⟩ := mem_outputArguments.1 hc
  have he : p.name = e.1 := hname.trans hparam.symm
  exact hforeign.1 (he ▸ List.mem_map_of_mem (List.mem_filter.1 hm).1)

/-! The table -/

theorem get?_spellings (as : List Argument) (param : String) :
    Entries.get? param (as.map fun a => (a.param, a.spelling)) =
      (as.find? fun a => a.param = param).map Argument.spelling := by
  rw [Entries.get?, List.find?_map, Option.map_map]
  rfl

theorem get?_flagTable_ofSignature (f : Signature) (os : Overrides) (param : String) :
    (ofSignature f os).flagTable.get? param =
      ((ofSignature f os).argument? param).map Argument.spelling := by
  rw [argument?, ← get?_spellings, FlagTable.get?]
  simp [ofSignature, FlagTable.ofArguments]

/-! The results -/

/-- The number of results is the largest that is named. -/
theorem foldl_max_output (es : Overrides) (m : Nat) :
    m ≤ es.foldl (fun n (_, o) => max n o.output) m ∧
      (∀ e ∈ es, e.2.output ≤ es.foldl (fun n (_, o) => max n o.output) m) ∧
      (es.foldl (fun n (_, o) => max n o.output) m = m ∨
        ∃ e ∈ es, e.2.output = es.foldl (fun n (_, o) => max n o.output) m) := by
  induction es generalizing m with
  | nil => simp
  | cons e es ih =>
    obtain ⟨name, o⟩ := e
    obtain ⟨hm, hle, hreached⟩ := ih (max m o.output)
    simp only [List.foldl_cons]
    refine ⟨Nat.le_trans (Nat.le_max_left m o.output) hm,
      List.forall_mem_cons.2 ⟨Nat.le_trans (Nat.le_max_right m o.output) hm, hle⟩, ?_⟩
    obtain heq | ⟨d, hd, hmax⟩ := hreached
    · obtain hmax | hmax : max m o.output = m ∨ max m o.output = o.output := by omega
      · exact .inl (heq.trans hmax)
      · exact .inr ⟨(name, o), List.mem_cons_self, (heq.trans hmax).symm⟩
    · exact .inr ⟨d, List.mem_cons_of_mem _ hd, hmax⟩

theorem isGreatest_resultCount (f : Signature) (os : Overrides) :
    IsGreatest (insert 1 {n | ∃ e ∈ os, IsForeign f e ∧ e.2.output = n}) (resultCount f os) := by
  obtain ⟨hone, hle, hreached⟩ := foldl_max_output (foreign f os) 1
  constructor
  · obtain heq | ⟨e, he, hmax⟩ := hreached
    · exact .inl heq
    · obtain ⟨hm, hf⟩ := mem_foreign.1 he
      exact .inr ⟨e, hm, hf, hmax⟩
  · rintro n (rfl | ⟨e, hm, hf, rfl⟩)
    · exact hone
    · exact hle e (mem_foreign.2 ⟨hm, hf⟩)

theorem length_foldl_set (as : List Argument) (slots : List (Option String)) :
    (as.foldl (fun slots a => slots.set (resultIndex a - 1) (some a.dest)) slots).length =
      slots.length := by
  induction as generalizing slots with
  | nil => rfl
  | cons a as ih => rw [List.foldl_cons, ih, List.length_set]

theorem length_outputDests (count : Nat) (as : List Argument) :
    (outputDests count as).length = count := by
  rw [outputDests, length_foldl_set, List.length_replicate]

/-- A slot holds the destination of an argument for it, or what it held before. -/
theorem getElem?_foldl_set (as : List Argument) {slots : List (Option String)} {k : Nat}
    (hk : k < slots.length) :
    (∃ a ∈ as, resultIndex a - 1 = k ∧ (as.foldl (fun slots a =>
        slots.set (resultIndex a - 1) (some a.dest)) slots)[k]? = some (some a.dest)) ∨
      (∀ a ∈ as, resultIndex a - 1 ≠ k) ∧ (as.foldl (fun slots a =>
        slots.set (resultIndex a - 1) (some a.dest)) slots)[k]? = slots[k]? := by
  -- The last argument for a slot counts, so the arguments behind the first decide before it.
  induction as generalizing slots with
  | nil => exact .inr ⟨by simp, rfl⟩
  | cons a as ih =>
    have hk' : k < (slots.set (resultIndex a - 1) (some a.dest)).length := by
      rwa [List.length_set]
    obtain ⟨c, hc, hi, hd⟩ | ⟨hne, hkeep⟩ := ih hk'
    · exact .inl ⟨c, List.mem_cons_of_mem a hc, hi, hd⟩
    · rw [List.foldl_cons, hkeep]
      by_cases hi : resultIndex a - 1 = k
      · exact .inl ⟨a, List.mem_cons_self, hi, by rw [hi, List.getElem?_set_self hk]⟩
      · exact .inr ⟨List.forall_mem_cons.2 ⟨hi, hne⟩, List.getElem?_set_ne hi⟩

/-- A file argument has the number of one of the results. -/
theorem role_of_fileArgument (h : a ∈ outputArguments f os) :
    ∃ k < resultCount f os, a.role = .output (k + 1) := by
  obtain ⟨e, hm, hf, ho, -, rfl⟩ := mem_outputArguments.1 h
  obtain ⟨k, hk⟩ := Nat.exists_eq_succ_of_ne_zero ho
  have hle := (isGreatest_resultCount f os).2 (.inr ⟨e, hm, hf, rfl⟩)
  exact ⟨k, by omega, congrArg Role.output hk⟩

/-- Each result goes to an argument for it, if there is one. -/
theorem getElem?_outputDests {k : Nat} (hk : k < resultCount f os) :
    (∃ a ∈ outputArguments f os, a.role = .output (k + 1) ∧
        (outputDests (resultCount f os) (outputArguments f os))[k]? = some (some a.dest)) ∨
      (∀ a ∈ outputArguments f os, a.role ≠ .output (k + 1)) ∧
        (outputDests (resultCount f os) (outputArguments f os))[k]? = some none := by
  have hrole : ∀ a ∈ outputArguments f os, resultIndex a - 1 = k ↔ a.role = .output (k + 1) := by
    intro a ha
    obtain ⟨j, -, hj⟩ := role_of_fileArgument ha
    simp [resultIndex, hj]
  have hslots : k < (List.replicate (resultCount f os) (none : Option String)).length := by
    rwa [List.length_replicate]
  obtain ⟨a, ha, hi, hd⟩ | ⟨hne, hkeep⟩ := getElem?_foldl_set (outputArguments f os) hslots
  · exact .inl ⟨a, ha, (hrole a ha).1 hi, hd⟩
  · refine .inr ⟨fun a ha hr => hne a ha ((hrole a ha).2 hr), hkeep.trans ?_⟩
    rw [List.getElem?_replicate, if_pos hk]

/-! No settings -/

/-- A parameter without settings is flagged just if it has a default that counts. -/
theorem inputArgument_none (doc : Docstring) (p : Param) :
    (inputArgument doc p none).param = p.name ∧ (inputArgument doc p none).dest = p.name ∧
      (inputArgument doc p none).flags =
        if p.kind = .keywordOnly ∧ p.default.isSome then ["--" ++ p.name] else [] := by
  by_cases hk : p.kind = .keywordOnly
  · cases hd : p.default <;> simp [inputArgument, inputFlags, hk, hd]
  · simp [inputArgument, inputFlags, hk]

theorem arguments_of_no_settings (f : Signature) :
    (ofSignature f []).arguments =
      f.exposed.map fun p => inputArgument (Docstring.read f.docstring) p none := by
  have hfiles : outputArguments f [] = [] := rfl
  simp [ofSignature, hfiles, Overrides.get?, Entries.get?]

end

/-- The arguments, the table of their flags and the destinations of the results agree. Without
settings, what is passed by keyword only and has a default is flagged with its name. -/
theorem ofSignature_views {f : Signature} {os : Overrides} (hf : (f.params.map Param.name).Nodup)
    (ho : Entries.Ordered os) :
    Views f os (ofSignature f os) ∧
      (ofSignature f []).arguments.map (fun a => (a.param, a.dest, a.flags)) =
        f.exposed.map (fun p => (p.name, p.name,
          if p.kind = .keywordOnly ∧ p.default.isSome then ["--" ++ p.name] else [])) ∧
      (ofSignature f []).outputs = [none] := by
  have hc := ofSignature_coherent f os
  have hd := nodup_params_ofSignature hf ho
  have hfiles := fileArguments_ofSignature f os
  have hlength : (ofSignature f os).outputs.length = resultCount f os :=
    length_outputDests _ _
  refine ⟨{ parts := ?_, inputs := ?_, files := ?_, sorted := ?_, distinct := hd
            tableInputs := (names_flagTable hc).1, tableOutputs := (names_flagTable hc).2
            spelled := get?_flagTable_ofSignature f os, positional := ?_, results := ?_
            within := ?_, slots := ?_ }, ?_, ?_⟩
  · rw [inputArguments_ofSignature, hfiles]
    rfl
  · rw [inputArguments_ofSignature, List.map_map]
    rfl
  · intro a
    rw [hfiles, mem_outputArguments]
  · rw [hfiles]
    exact pairwise_outputArguments ho
  · intro a ha
    rw [get?_flagTable hc hd ha, Option.some.injEq, a.spelling_eq_empty_iff]
  · rw [hlength]
    exact isGreatest_resultCount f os
  · rw [hlength, hfiles]
    exact fun a ha => role_of_fileArgument ha
  · rw [hlength, hfiles]
    exact fun k hk => getElem?_outputDests hk
  · rw [arguments_of_no_settings, List.map_map]
    refine List.map_congr_left fun p _ => ?_
    obtain ⟨hparam, hdest, hflags⟩ := inputArgument_none (Docstring.read f.docstring) p
    rw [Function.comp_apply, hparam, hdest, hflags]
  · rfl

/-- A function with parameters of each kind that takes an argument. -/
def sampledSignature : Signature :=
  ⟨"process", [⟨"table", .positional, none, none⟩, ⟨"others", .rest, none, none⟩,
    ⟨"label", .keywordOnly, none, none⟩, ⟨"limit", .keywordOnly, some "int", some (.int 3)⟩],
    none, none, "", "", 0⟩

/-- Two arguments for one result, one for an earlier result, a result without an argument, and
settings of a parameter and of `self`. -/
def sampledSettings : Overrides :=
  [("all", { Override.none with output := 2, flags := ["-a", "--all"] }),
    ("best", { Override.none with output := 1, flags := ["--best"], dest := some "top" }),
    ("count", { Override.none with output := 4 }),
    ("data", { Override.none with output := 2, flags := ["data"] }),
    ("limit", { Override.none with output := 7, flags := ["-l", "--limit"] }),
    ("self", { Override.none with output := 9, flags := ["--self"] })]

theorem ofSignature_views_sampled :
    (sampledSignature.params.map Param.name).Nodup ∧ Entries.Ordered sampledSettings ∧
      Views sampledSignature sampledSettings (ofSignature sampledSignature sampledSettings) ∧
      (ofSignature sampledSignature sampledSettings).outputs =
        [some "top", some "data", none, none] := by
  have hf : (sampledSignature.params.map Param.name).Nodup := by decide
  have ho : Entries.Ordered sampledSettings := by decide
  exact ⟨hf, ho, (ofSignature_views hf ho).1, by decide +kernel⟩

end Pipewright.Binding
