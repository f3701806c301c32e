import Mathlib.Data.List.Perm.Basic
import Mathlib.Data.List.Nodup
import Pipewright.Binding.Basic
import Pipewright.Proofs.Entries
import Pipewright.Proofs.Success

/-! The arguments of a binding and the table of their flags say the same. -/
namespace Pipewright

/-- The word that passes a reference to an argument. A flag that takes many words is attached. -/
def Argument.word (a : Argument) (reference : String) : String :=
  if a.spelling = "" then reference
  else if a.takesMany then trimmedEnd a.spelling ++ "=" ++ reference
  else a.spelling ++ reference

theorem Argument.spelling_eq_empty_iff (a : Argument) : a.spelling = "" ↔ a.isPositional := by
  cases hf : a.flags with
  | nil => simp [spelling, isPositional, hf]
  | cons f fs =>
    have hne : f ++ " " ≠ "" := by
      intro he
      have hl := congrArg String.toList he
      simp at hl
    simp [spelling, isPositional, hf, hne]

namespace Binding

/-- The table lists the inputs and the file arguments, each with its spelling. -/
def Coherent (b : Binding) : Prop :=
  b.flagTable = .ofArguments b.inputArguments b.fileArguments

theorem insertByResult_perm (a : Argument) (as : List Argument) :
    (insertByResult a as).Perm (a :: as) := by
  induction as with
  | nil => exact .refl _
  | cons c as ih =>
    rw [insertByResult]
    split
    · exact .refl _
    · exact (ih.cons c).trans (.swap a c as)

theorem foldl_insertByResult_perm (as sorted : List Argument) :
    (as.foldl (fun sorted a => insertByResult a sorted) sorted).Perm (as ++ sorted) := by
  induction as generalizing sorted with
  | nil => exact .refl _
  | cons a as ih =>
    exact (ih _).trans (((insertByResult_perm a sorted).append_left as).trans List.perm_middle)

theorem sortByResult_perm (as : List Argument) : (sortByResult as).Perm as := by
  simpa [sortByResult] using foldl_insertByResult_perm as []

theorem role_of_mem_outputArguments {f : Signature} {os : Overrides} {a : Argument}
    (h : a ∈ outputArguments f os) : a.role ≠ .input := by
  rw [outputArguments, (sortByResult_perm _).mem_iff] at h
  obtain ⟨⟨name, o⟩, -, rfl⟩ := List.mem_map.1 h
  simp [outputArgument]

theorem inputArguments_ofSignature (f : Signature) (os : Overrides) :
    (ofSignature f os).inputArguments = f.exposed.map fun p =>
      inputArgument (Docstring.read f.docstring) p (os.get? p.name) := by
  rw [inputArguments, ofSignature, List.filter_append, List.filter_eq_self.2 fun a ha => ?_,
    List.filter_eq_nil_iff.2 fun a ha => ?_, List.append_nil]
  · simpa using role_of_mem_outputArguments ha
  · obtain ⟨p, -, rfl⟩ := List.mem_map.1 ha
    rfl

theorem fileArguments_ofSignature (f : Signature) (os : Overrides) :
    (ofSignature f os).fileArguments = outputArguments f os := by
  rw [fileArguments, ofSignature, List.filter_append, List.filter_eq_nil_iff.2 fun a ha => ?_,
    List.filter_eq_self.2 fun a ha => ?_, List.nil_append]
  · simpa using role_of_mem_outputArguments ha
  · obtain ⟨p, -, rfl⟩ := List.mem_map.1 ha
    simp [inputArgument]

theorem ofSignature_coherent (f : Signature) (os : Overrides) : (ofSignature f os).Coherent := by
  rw [Coherent, inputArguments_ofSignature, fileArguments_ofSignature]
  rfl

/-- Every binding that is read from a module is coherent. -/
theorem ofModule_coherent {m : ScriptModule} {function : String} {os : Overrides}
    {r : Warned Binding} (h : ofModule m function os = .ok r) : r.1.Coherent := by
  obtain ⟨f, -, h⟩ := bind_ok h
  cases h
  exact ofSignature_coherent f os

section
variable {b : Binding} {a : Argument}

theorem argument?_of_mem (hd : (b.arguments.map Argument.param).Nodup) (ha : a ∈ b.arguments) :
    b.argument? a.param = some a := by
  rw [argument?, ← List.head?_filter, Entries.filter_key hd ha, List.head?_cons]

theorem inputArguments_append_perm (b : Binding) :
    (b.inputArguments ++ b.fileArguments).Perm b.arguments := by
  have h := List.filter_append_perm (fun a : Argument => decide (a.role = .input)) b.arguments
  simpa [inputArguments, fileArguments] using h

theorem names_flagTable (hc : b.Coherent) :
    b.flagTable.inputs.map Prod.fst = b.inputArguments.map Argument.param ∧
      b.flagTable.outputs.map Prod.fst = b.fileArguments.map Argument.param := by
  rw [hc]
  simp [FlagTable.ofArguments, Function.comp_def]

theorem eq_of_param_eq (hd : (b.arguments.map Argument.param).Nodup) {c : Argument}
    (ha : a ∈ b.arguments) (hc : c ∈ b.arguments) (h : c.param = a.param) : c = a :=
  List.inj_on_of_nodup_map hd hc ha h

theorem param_mem_filter (hd : (b.arguments.map Argument.param).Nodup) (ha : a ∈ b.arguments)
    (p : Argument → Bool) :
    a.param ∈ (b.arguments.filter p).map Argument.param ↔ p a = true := by
  rw [List.mem_map]
  constructor
  · rintro ⟨c, hm, he⟩
    obtain ⟨hm, hc⟩ := List.mem_filter.1 hm
    exact eq_of_param_eq hd ha hm he ▸ hc
  · exact fun hp => ⟨a, List.mem_filter.2 ⟨ha, hp⟩, rfl⟩

theorem param_mem_inputs (hc : b.Coherent) (hd : (b.arguments.map Argument.param).Nodup)
    (ha : a ∈ b.arguments) : a.param ∈ b.flagTable.inputs.map Prod.fst ↔ a.role = .input := by
  rw [(names_flagTable hc).1, inputArguments, param_mem_filter hd ha, decide_eq_true_eq]

theorem param_mem_outputs (hc : b.Coherent) (hd : (b.arguments.map Argument.param).Nodup)
    (ha : a ∈ b.arguments) : a.param ∈ b.flagTable.outputs.map Prod.fst ↔ a.role ≠ .input := by
  rw [(names_flagTable hc).2, fileArguments, param_mem_filter hd ha, decide_eq_true_eq]

/-- The names in the table are distinct if the parameters are. -/
theorem nodup_names_flagTable (hc : b.Coherent) (hd : (b.arguments.map Argument.param).Nodup) :
    (b.flagTable.inputs.map Prod.fst ++ b.flagTable.outputs.map Prod.fst).Nodup := by
  rw [(names_flagTable hc).1, (names_flagTable hc).2, ← List.map_append]
  exact ((inputArguments_append_perm b).map Argument.param).nodup_iff.2 hd

theorem get?_flagTable (hc : b.Coherent) (hd : (b.arguments.map Argument.param).Nodup)
    (ha : a ∈ b.arguments) : b.flagTable.get? a.param = some a.spelling := by
  have hm : (a.param, a.spelling) ∈ b.flagTable.inputs ++ b.flagTable.outputs := by
    rw [hc, FlagTable.ofArguments, ← List.map_append]
    exact List.mem_map_of_mem (f := fun a : Argument => (a.param, a.spelling))
      ((inputArguments_append_perm b).mem_iff.2 ha)
  refine Entries.get?_of_mem ?_ hm
  rw [List.map_append]
  exact nodup_names_flagTable hc hd

end

end Binding
end Pipewright
