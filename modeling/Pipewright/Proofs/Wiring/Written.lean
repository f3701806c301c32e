import Pipewright.Proofs.Binding.ReadBack
import Pipewright.Proofs.Wiring.Words

/-! The words that a process writes when each argument is passed one word are those of the command
line that its script reads back. -/
namespace Pipewright.Wiring

/-- What passes one word to each of some arguments, and words to the one that takes the rest. -/
def assigned (value : Argument → String) (order : List Argument) (rest : List String) :
    List (String × String) :=
  order.map (fun a => (a.param, value a)) ++ rest.map fun r => ("*", r)

variable {b : Binding} {value : Argument → String} {order : List Argument} {rest : List String}

theorem foldl_emit (b : Binding) (es : List (String × String)) (w : Wiring) :
    es.foldl (fun w e => emit b w e.1 e.2) w = add b w ⟨[], [], es, [], []⟩ := by
  induction es generalizing w with
  | nil => simp [add]
  | cons e es ih => rw [List.foldl_cons, ih, emit_eq_add, add_add]; rfl

section
variable (hc : b.Coherent) (hd : (b.arguments.map Argument.param).Nodup)
  (hs : ∀ a ∈ b.arguments, isStarred a.param = false) (ho : order.Perm b.arguments)

include hd hs ho in
theorem filter_assigned {a : Argument} (ha : a ∈ b.arguments) :
    (assigned value order rest).filter (binds a.param) = [(a.param, value a)] := by
  have hrest : (rest.map fun r => ("*", r)).filter (binds a.param) = [] := by
    refine List.filter_eq_nil_iff.2 fun e he => ?_
    obtain ⟨r, -, rfl⟩ := List.mem_map.1 he
    simp [binds, isStarred]
  have hkey : order.filter (binds a.param ∘ fun c => (c.param, value c)) =
      order.filter (fun c => c.param = a.param) := by
    refine List.filter_congr fun c hm => ?_
    have hn : isStarred c.param = false := hs c (ho.mem_iff.1 hm)
    simp [binds, hn]
  have hnodup : (order.map Argument.param).Nodup := (ho.map Argument.param).nodup_iff.2 hd
  rw [assigned, List.filter_append, hrest, List.append_nil, List.filter_map, hkey,
    Entries.filter_key hnodup (ho.mem_iff.2 ha)]
  rfl

include hc hd hs ho in
theorem positionalWords_assigned :
    (b.arguments.filterMap fun a =>
      Entries.get? a.param ((assigned value order rest).foldl (place b) [])) =
      b.positional.map value := by
  have hget : ∀ a ∈ b.arguments,
      Entries.get? a.param ((assigned value order rest).foldl (place b) []) =
        if a.isPositional then some (value a) else none := by
    intro a ha
    rw [get?_place_of_bound hc hd ha (filter_assigned hd hs ho ha)]
    exact if_congr a.spelling_eq_empty_iff rfl rfl
  rw [Binding.positional]
  generalize b.arguments = as at hget ⊢
  induction as with
  | nil => rfl
  | cons a as ih =>
    rw [List.filterMap_cons, hget a List.mem_cons_self, List.filter_cons,
      ih fun c hm => hget c (List.mem_cons_of_mem _ hm)]
    split <;> simp_all

include hc hd hs ho in
theorem flagWords_assigned (hf : ∀ a ∈ b.arguments, ∀ f ∈ a.flags, Argument.isFlag f) :
    ((assigned value order rest).flatMap (flagWords b)).map FlagWord.text =
      (order.filter fun a => !a.isPositional).map fun a => joined " " (a.passed (value a)) := by
  have hrest : (rest.map fun r => ("*", r)).flatMap (flagWords b) = [] := by
    refine List.flatMap_eq_nil_iff.2 fun e he => ?_
    obtain ⟨r, -, rfl⟩ := List.mem_map.1 he
    simp [flagWords, emit, empty, isStarred]
  have hword : ∀ a ∈ order, (flagWords b (a.param, value a)).map FlagWord.text =
      if a.isPositional then [] else [joined " " (a.passed (value a))] := by
    intro a ha
    have hm := ho.mem_iff.1 ha
    have hb : binds a.param (a.param, value a) := by simp [binds, hs a hm]
    rw [flagWords_argument hc hd hm hb, if_congr a.spelling_eq_empty_iff rfl rfl,
      ← Argument.word_eq_joined fun f h => hf a hm f (List.mem_of_mem_head? h)]
    split <;> rfl
  rw [assigned, List.flatMap_append, hrest, List.append_nil, List.flatMap_map]
  clear ho
  induction order with
  | nil => rfl
  | cons a as ih =>
    rw [List.flatMap_cons, List.map_append, hword a List.mem_cons_self, List.filter_cons,
      ih fun c hm => hword c (List.mem_cons_of_mem _ hm)]
    split <;> simp_all

include hc hd hs ho in
/-- Each argument's words stand in the command as they do on the composed command line: positional
ones in order, then the flags as they were passed, then the rest. -/
theorem words_assigned (hf : ∀ a ∈ b.arguments, ∀ f ∈ a.flags, Argument.isFlag f) :
    words b ((assigned value order rest).foldl (fun w e => emit b w e.1 e.2) empty) =
      b.positional.map value ++
        (order.filter fun a => !a.isPositional).map (fun a => joined " " (a.passed (value a))) ++
        rest := by
  have htrailing : ((assigned value order rest).filter fun e => isStarred e.1).map Prod.snd =
      rest := by
    have hplain : (order.map fun a => (a.param, value a)).filter (fun e => isStarred e.1) = [] := by
      refine List.filter_eq_nil_iff.2 fun e he => ?_
      obtain ⟨a, ha, rfl⟩ := List.mem_map.1 he
      simp [hs a (ho.mem_iff.1 ha)]
    have hstar : (rest.map fun r => ("*", r)).filter (fun e => isStarred e.1) =
        rest.map fun r => ("*", r) := by
      refine List.filter_eq_self.2 fun e he => ?_
      obtain ⟨r, -, rfl⟩ := List.mem_map.1 he
      simp [isStarred]
    rw [assigned, List.filter_append, hplain, hstar, List.nil_append, List.map_map]
    exact List.map_id' rest
  rw [foldl_emit, words, positionalWords]
  simp only [add, empty, List.nil_append, flagWords_assigned hc hd hs ho hf,
    positionalWords_assigned hc hd hs ho, htrailing]

end

end Pipewright.Wiring
