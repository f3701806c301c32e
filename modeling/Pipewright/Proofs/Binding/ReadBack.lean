import Mathlib.Data.List.Perm.Basic
import Pipewright.Proofs.Binding.Options
import Pipewright.Proofs.Binding.Table
import Pipewright.Proofs.Text.Trimming

/-! A script reads back the words that are written for its arguments. -/
namespace Pipewright
open CommandLine

namespace Argument

/-- The words that pass a word to an argument. -/
def passed (a : Argument) (word : String) : List String :=
  match a.flags with
  | [] => [word]
  | f :: _ => if a.takesMany then [f ++ "=" ++ word] else [f, word]

/-- The value that a word stands for. -/
def read (a : Argument) (word : String) : Literal :=
  if a.kind.isList then
    let kind := if a.kind = .list then .strList else a.kind
    .list ((pieces ',' word).map kind.convert)
  else a.kind.convert word

/-- Whether the words that pass a word are read as an option, also where the rest may start. -/
def readable (a : Argument) : Bool := !a.takesMany || a.leadsLong

variable {a : Argument} {f : String} {fs : List String}

theorem value_items (a : Argument) (w : String) : a.value (some (a.items w)) = a.read w := by
  cases hl : a.kind.isList <;> simp [value, items, read, hl]

theorem passed_ne_nil (a : Argument) (w : String) : a.passed w ≠ [] := by
  rw [passed]
  split
  · simp
  · split <;> simp

theorem passed_of_flags (hf : a.flags = f :: fs) (w : String) :
    a.passed w = if a.takesMany then [f ++ "=" ++ w] else [f, w] := by
  rw [passed, hf]

theorem isBlank_of_mem_isFlag (h : isFlag f) {c : Char} (hc : c ∈ f.toList) :
    Text.isBlank c = false := by
  obtain ⟨name, hn, hl⟩ := isFlag_cases h
  have hname : ∀ d ∈ name, Text.isBlank d = false := by
    intro d hd
    have hall := List.all_eq_true.1 ((Bool.and_eq_true_iff.1 hn).2) d hd
    simpa using (Bool.and_eq_true_iff.1 hall).2
  have hdash : Text.isBlank '-' = false := by decide
  rcases hl with hl | hl <;> rw [hl] at hc <;> simp only [List.mem_cons] at hc
  · rcases hc with rfl | rfl | hc
    · exact hdash
    · exact hdash
    · exact hname c hc
  · rcases hc with rfl | hc
    · exact hdash
    · exact hname c hc

/-- The text that a process writes for an argument is made of the words that pass it. -/
theorem word_eq_joined (hf : ∀ f ∈ a.flags.head?, isFlag f) (w : String) :
    a.word w = joined " " (a.passed w) := by
  cases hl : a.flags with
  | nil => simp [word, spelling, passed, hl, joined]
  | cons f fs =>
    have hflag : isFlag f := hf f (by simp [hl])
    have hs : a.spelling = f ++ " " := by simp [spelling, hl]
    have ht : trimmedEnd a.spelling = f := by
      have hlast : ∀ c ∈ f.toList.getLast?, Text.isBlank c = false := fun c hc =>
        isBlank_of_mem_isFlag hflag (List.mem_of_getLast? hc)
      have hblank : ∀ c ∈ " ".toList, Text.isBlank c := Text.forall_mem_of_all (by decide)
      rw [hs, trimmedEnd, String.toList_append, Text.trimEnd_blanks hblank,
        Text.trimEnd_eq_self hlast, String.ofList_toList]
    have hne : a.spelling ≠ "" := by
      intro he
      have := congrArg String.toList (hs.symm.trans he)
      simp at this
    rw [word, if_neg hne, passed_of_flags hl, ht]
    split
    · simp [joined]
    · simp [joined, hs, String.append_assoc]

end Argument

namespace Binding
variable {b : Binding} {a : Argument} {st : State} {n : Nat}

def entry (value : Argument → String) (a : Argument) : String × List String :=
  (a.dest, a.items (value a))

def positional (b : Binding) : List Argument := b.arguments.filter Argument.isPositional
def flagged (b : Binding) : List Argument := b.arguments.filter fun a => !a.isPositional

/-- The command line for a choice of words: positional ones, flags in some order, the rest. -/
def composed (b : Binding) (value : Argument → String) (order : List Argument)
    (rest : List String) : List String :=
  b.positional.map value ++ order.flatMap (fun a => a.passed (value a)) ++ rest

variable {value : Argument → String}

theorem map_fst_entry (as : List Argument) :
    (as.map (entry value)).map Prod.fst = as.map Argument.dest := by
  rw [List.map_map]
  rfl

theorem items_of_scalar (h : a.kind.isList = false) (w : String) : a.items w = [w] := by
  rw [Argument.items, h]
  rfl

theorem Clear.read_positional (hb : b.Clear) (hv : ∀ a ∈ b.arguments, isPlainWord (value a))
    {done todo : List Argument} (h : done ++ todo = b.positional) :
    (todo.map value).foldlM (step b.spec) (ready (done.map (entry value)) done.length) =
      .ok (ready (b.positional.map (entry value)) b.positional.length) := by
  -- The words of `done` are given, and as many positions are filled.
  induction todo generalizing done with
  | nil =>
    rw [List.append_nil] at h
    rw [h]
    rfl
  | cons a as ih =>
    have hmem : a ∈ b.positional := h ▸ List.mem_append_right _ List.mem_cons_self
    obtain ⟨ha, hp⟩ := List.mem_filter.1 hmem
    have hid : b.spec.positionals[done.length]? = some a.dest := by
      rw [hb.positionals_eq, ← positional, ← h]
      simp
    have hscalar : a.kind.isList = false :=
      hb.positional_scalar a ha (List.isEmpty_iff.1 hp)
    have hnodup : (b.positional.map Argument.dest).Nodup :=
      hb.dests_nodup.sublist (List.filter_sublist.map _)
    have hfresh : a.dest ∉ (done.map (entry value)).map Prod.fst := by
      rw [← h, List.map_append, List.map_cons] at hnodup
      rw [map_fst_entry]
      intro hd
      exact (List.nodup_append.1 hnodup).2.2 _ hd _ List.mem_cons_self rfl
    have hstep : step b.spec (ready (done.map (entry value)) done.length) (value a) =
        .ok (ready (addGiven a.dest [value a] (done.map (entry value))) (done.length + 1)) :=
      step_positional rfl (hv a ha) hid
    rw [addGiven_fresh hfresh] at hstep
    have hlast : done.map (entry value) ++ [(a.dest, [value a])] =
        (done ++ [a]).map (entry value) := by
      simp [entry, items_of_scalar hscalar]
    have hlen : done.length + 1 = (done ++ [a]).length := by simp
    rw [hlast, hlen] at hstep
    rw [List.map_cons, foldlM_cons_of_ok hstep]
    exact ih (by rw [List.append_assoc]; exact h)

/-- The words that pass a word to a readable argument give it to its option. -/
theorem Clear.read_passed (hb : b.Clear) (ha : a ∈ b.arguments) (hf : a.flags ≠ [])
    (hr : a.readable) {g : Given} (hg : a.dest ∉ g.map Prod.fst)
    (hs : settle st = .ok (ready g n)) {w : String} (hw : isPlainWord w) :
    ∃ t, (a.passed w).foldlM (step b.spec) st = .ok t ∧
      settle t = .ok (ready (g ++ [(a.dest, a.items w)]) n) := by
  obtain ⟨hacc, ht, hfill, -⟩ := frame_of_settle hs
  have htake : take (ready g n) a.opt [w] = .ok (ready (g ++ [(a.dest, a.items w)]) n) :=
    Argument.take_opt hg w
  cases hflags : a.flags with
  | nil => exact absurd hflags hf
  | cons f fs =>
    rw [Argument.passed_of_flags hflags]
    cases hm : a.takesMany with
    | true =>
      have hl : a.leadsLong := by
        rw [Argument.readable, hm] at hr
        exact hr
      have hsame : { st with accepts := false } = st := by rw [← hacc]
      have hstep : step b.spec st (f ++ "=" ++ w) =
          .ok (ready (g ++ [(a.dest, a.items w)]) n) := by
        rw [hb.step_attached ha hflags hl ht, complete, hsame, hs]
        exact htake
      rw [if_pos rfl, foldlM_cons_of_ok hstep]
      exact ⟨_, rfl, rfl⟩
    | false =>
      -- A list would go on to take the words of its neighbours.
      have hlist : a.opt.takesMany = false := by
        rw [Argument.opt_takesMany]
        cases hk : a.kind.isList with
        | false => rfl
        | true =>
          have := Argument.takesMany_of_list hk (hb.lists_many a ha hk)
          rw [hm] at this
          cases this
      have hflag : step b.spec st f = .ok (waiting g n a.opt) := by
        rw [hb.step_flag ha hflags ht, await_ok hs]
      rw [if_neg (by decide), foldlM_cons_of_ok hflag, foldlM_cons_of_ok (step_waiting hw a.opt)]
      exact ⟨_, rfl, (settle_holding hlist).trans htake⟩

theorem Clear.read_order (hb : b.Clear) (hv : ∀ a ∈ b.arguments, isPlainWord (value a))
    {done order : List Argument} (ho : ∀ a ∈ order, a ∈ b.flagged) (hr : ∀ a ∈ order, a.readable)
    (hd : ((done ++ order).map Argument.dest).Nodup)
    (hs : settle st = .ok (ready (done.map (entry value)) n)) :
    ∃ t, (order.flatMap fun a => a.passed (value a)).foldlM (step b.spec) st = .ok t ∧
      settle t = .ok (ready ((done ++ order).map (entry value)) n) := by
  -- Between two arguments the last word may still be pending: it is settled by what follows.
  induction order generalizing done st with
  | nil =>
    rw [List.append_nil]
    exact ⟨st, rfl, hs⟩
  | cons a as ih =>
    obtain ⟨ha, hp⟩ := List.mem_filter.1 (ho a List.mem_cons_self)
    have hf : a.flags ≠ [] := by
      intro he
      simp [Argument.isPositional, he] at hp
    have hfresh : a.dest ∉ (done.map (entry value)).map Prod.fst := by
      rw [map_fst_entry]
      intro hm
      rw [List.map_append, List.map_cons] at hd
      exact (List.nodup_append.1 hd).2.2 _ hm _ List.mem_cons_self rfl
    obtain ⟨t, hrun, ht⟩ :=
      hb.read_passed ha hf (hr a List.mem_cons_self) hfresh hs (hv a ha)
    have hnext : settle t = .ok (ready ((done ++ [a]).map (entry value)) n) := by
      rw [ht, List.map_append]
      rfl
    have happ : done ++ [a] ++ as = done ++ a :: as := List.append_assoc _ _ _
    obtain ⟨u, hrest, hu⟩ := ih (fun c hc => ho c (List.mem_cons_of_mem _ hc))
      (fun c hc => hr c (List.mem_cons_of_mem _ hc)) (happ ▸ hd) hnext
    refine ⟨u, ?_, happ ▸ hu⟩
    rw [List.flatMap_cons, List.foldlM_append, hrun]
    exact hrest

theorem mem_positional_or_flagged (ha : a ∈ b.arguments) : a ∈ b.positional ∨ a ∈ b.flagged := by
  cases hp : a.isPositional with
  | true => exact .inl (List.mem_filter.2 ⟨ha, hp⟩)
  | false => exact .inr (List.mem_filter.2 ⟨ha, by simp [hp]⟩)

variable {order : List Argument} {rest : List String}

theorem Clear.nodup_dests (hb : b.Clear) (ho : order.Perm b.flagged) :
    ((b.positional ++ order).map Argument.dest).Nodup := by
  have hperm : (b.positional ++ order).Perm b.arguments :=
    (ho.append_left b.positional).trans (List.filter_append_perm _ _)
  exact (hperm.map Argument.dest).nodup_iff.2 hb.dests_nodup

theorem Clear.read_kept (hb : b.Clear) (hv : ∀ a ∈ b.arguments, isPlainWord (value a))
    (ho : ∀ a ∈ order, a ∈ b.flagged) (hd : ((b.positional ++ order).map Argument.dest).Nodup)
    (hr : ∀ a ∈ order, a.readable) :
    ∃ t, (b.positional.map value ++ order.flatMap fun a => a.passed (value a)).foldlM
        (step b.spec) State.initial = .ok t ∧
      settle t = .ok (ready ((b.positional ++ order).map (entry value)) b.positional.length) := by
  have hpos : (b.positional.map value).foldlM (step b.spec) State.initial =
      .ok (ready (b.positional.map (entry value)) b.positional.length) :=
    hb.read_positional hv (List.nil_append b.positional)
  have hs : settle (ready (b.positional.map (entry value)) b.positional.length) =
      .ok (ready (b.positional.map (entry value)) b.positional.length) := rfl
  obtain ⟨t, hrun, ht⟩ := hb.read_order hv ho hr hd hs
  refine ⟨t, ?_, ht⟩
  rw [List.foldlM_append, hpos]
  exact hrun

/-- Where all positional words are given, an argument that is not readable starts the rest. -/
theorem Clear.step_lost (hb : b.Clear) {lost : List Argument} (ho : ∀ a ∈ lost, a ∈ b.flagged)
    (hl : ∀ a ∈ lost.head?, a.readable = false) (hw : ∀ w ∈ rest, isPlainWord w) {g : Given}
    (hs : settle st = .ok (ready g b.positional.length)) :
    ∀ w ∈ (lost.flatMap (fun a => a.passed (value a)) ++ rest).head?,
      step b.spec st w = plain b.spec st w := by
  intro w hm
  obtain ⟨-, ht, hfill, -⟩ := frame_of_settle hs
  cases lost with
  | nil => exact step_plain (hw w (List.mem_of_head? hm)) ht
  | cons a as =>
    obtain ⟨ha, hp⟩ := List.mem_filter.1 (ho a List.mem_cons_self)
    have hread := hl a rfl
    rw [Argument.readable, Bool.or_eq_false_iff] at hread
    obtain ⟨hmany, hlong⟩ := hread
    cases hf : a.flags with
    | nil => simp [Argument.isPositional, hf] at hp
    | cons f fs =>
      have hpassed : a.passed (value a) = [f ++ "=" ++ value a] := by
        rw [Argument.passed_of_flags hf, if_pos (by simpa using hmany)]
      rw [List.flatMap_cons, hpassed] at hm
      cases hm
      have hlen : b.spec.positionals.length ≤ st.filled := by
        rw [hfill, hb.positionals_eq, List.length_map]
        exact le_refl _
      exact hb.step_letter ha hf hlong ht hlen (value a)

theorem Clear.parse_kept (hb : b.Clear) (hv : ∀ a ∈ b.arguments, isPlainWord (value a))
    (hw : ∀ w ∈ rest, isPlainWord w) {kept lost : List Argument}
    (ho : (kept ++ lost).Perm b.flagged) (hr : ∀ a ∈ kept, a.readable)
    (hl : ∀ a ∈ lost.head?, a.readable = false) :
    ∃ u, CommandLine.parse b.spec (b.composed value (kept ++ lost) rest) = .ok u ∧
      u.given = (b.positional ++ kept).map (entry value) ∧
      u.rest = lost.flatMap (fun a => a.passed (value a)) ++ rest := by
  have hsub : (b.positional ++ kept).Sublist (b.positional ++ (kept ++ lost)) :=
    (List.sublist_append_left kept lost).append_left _
  have hnodup : ((b.positional ++ kept).map Argument.dest).Nodup :=
    (hb.nodup_dests ho).sublist (hsub.map _)
  have hlen : b.spec.positionals.length ≤ b.positional.length := by
    rw [hb.positionals_eq, List.length_map]
    exact le_refl _
  obtain ⟨t, hrun, ht⟩ := hb.read_kept hv
    (fun a ha => ho.mem_iff.1 (List.mem_append_left _ ha)) hnodup hr
  obtain ⟨u, hu, hgiven, hrest⟩ := read_rest rfl hlen ht
    (hb.step_lost (fun a ha => ho.mem_iff.1 (List.mem_append_right _ ha)) hl hw ht)
  have hwords : b.composed value (kept ++ lost) rest =
      (b.positional.map value ++ kept.flatMap fun a => a.passed (value a)) ++
        (lost.flatMap (fun a => a.passed (value a)) ++ rest) := by
    rw [composed, List.flatMap_append]
    simp only [List.append_assoc]
  refine ⟨u, ?_, hgiven, hrest⟩
  rw [CommandLine.parse, hwords, List.foldlM_append, hrun]
  exact hu

theorem Clear.peek_not_given (hb : b.Clear) {as : List Argument} (h : ∀ a ∈ as, a ∈ b.arguments) :
    Entries.get? "displayMax" (as.map (entry value)) = none := by
  rw [Entries.get?_eq_none_iff, map_fst_entry]
  intro hm
  obtain ⟨a, ha, hd⟩ := List.mem_map.1 hm
  exact hb.dests_free a (h a ha) (hd ▸ by decide)

theorem Clear.value_entry (hb : b.Clear) (ho : order.Perm b.flagged) (ha : a ∈ b.arguments) :
    a.value (Entries.get? a.dest ((b.positional ++ order).map (entry value))) =
      a.read (value a) := by
  have hmem : a ∈ b.positional ++ order :=
    List.mem_append.2 ((mem_positional_or_flagged ha).imp_right ho.mem_iff.2)
  have hnodup : (((b.positional ++ order).map (entry value)).map Prod.fst).Nodup := by
    rw [map_fst_entry]
    exact hb.nodup_dests ho
  have hget : Entries.get? a.dest ((b.positional ++ order).map (entry value)) =
      some (a.items (value a)) :=
    Entries.get?_of_mem hnodup (List.mem_map_of_mem hmem)
  rw [hget, a.value_items]

/-- The arguments before the first one that is not readable get their words; from there on all is
rest. -/
theorem parse_composed (hb : b.Clear) (ho : order.Perm b.flagged)
    (hv : ∀ a ∈ b.arguments, isPlainWord (value a)) (hw : ∀ w ∈ rest, isPlainWord w) :
    b.parse (b.composed value order rest) = .ok {
      values := b.arguments.map fun a => (a.dest, a.value (Entries.get? a.dest
        ((b.positional ++ order.takeWhile Argument.readable).map (entry value))))
      peek := none
      rest := (order.dropWhile Argument.readable).flatMap (fun a => a.passed (value a)) ++
        rest } := by
  have hsplit := List.takeWhile_append_dropWhile (p := Argument.readable) (l := order)
  have hhead := List.head?_dropWhile_not Argument.readable order
  have hread : ∀ a ∈ order.takeWhile Argument.readable, a.readable := fun a ha =>
    List.mem_takeWhile_imp ha
  have hlost : ∀ a ∈ (order.dropWhile Argument.readable).head?, a.readable = false := by
    intro a ha
    rw [Option.mem_def.1 ha] at hhead
    exact hhead
  obtain ⟨u, hparse, hgiven, hrest⟩ := hb.parse_kept hv hw (hsplit.symm ▸ ho) hread hlost
  rw [hsplit] at hparse
  have hargs : ∀ a ∈ b.positional ++ order.takeWhile Argument.readable, a ∈ b.arguments := by
    intro a ha
    rcases List.mem_append.1 ha with ha | ha
    · exact (List.mem_filter.1 ha).1
    · exact (List.mem_filter.1 (ho.mem_iff.1 ((List.takeWhile_sublist _).subset ha))).1
  rw [Binding.parse, hparse]
  simp only [State.values?, hgiven, hrest, hb.peek_not_given hargs]

/-- A script reads back the words of all arguments just if none of those that take many words is
called by a letter: an attached word makes that letter the start of the rest. -/
theorem parse_composed_iff (hb : b.Clear) (ho : order.Perm b.flagged)
    (hv : ∀ a ∈ b.arguments, isPlainWord (value a)) (hw : ∀ w ∈ rest, isPlainWord w) :
    b.parse (b.composed value order rest) =
        .ok ⟨b.arguments.map fun a => (a.dest, a.read (value a)), none, rest⟩ ↔
      ∀ a ∈ b.flagged, a.takesMany → a.leadsLong := by
  rw [parse_composed hb ho hv hw]
  constructor
  · intro h
    -- A word that is lost shows in the rest, which is then too long.
    simp only [Except.ok.injEq, BoundArguments.mk.injEq, true_and] at h
    have hnil := List.append_left_eq_self.1 h.2
    have hlost : order.dropWhile Argument.readable = [] := by
      refine List.eq_nil_iff_forall_not_mem.2 fun a ha => ?_
      exact a.passed_ne_nil (value a) (List.flatMap_eq_nil_iff.1 hnil a ha)
    intro a ha hm
    have hread := List.dropWhile_eq_nil_iff.1 hlost a (ho.mem_iff.2 ha)
    rw [Argument.readable, hm] at hread
    exact hread
  · intro h
    have hread : ∀ a ∈ order, a.readable := by
      intro a ha
      rw [Argument.readable]
      cases hm : a.takesMany with
      | false => rfl
      | true => exact h a (ho.mem_iff.1 ha) hm
    have hvalues : b.arguments.map (fun a => (a.dest, a.value (Entries.get? a.dest
        ((b.positional ++ order).map (entry value))))) =
        b.arguments.map fun a => (a.dest, a.read (value a)) :=
      List.map_congr_left fun a ha => by rw [hb.value_entry ho ha]
    rw [List.takeWhile_eq_self_iff.2 hread, List.dropWhile_eq_nil_iff.2 hread, hvalues]
    rfl

def tableArgument : Argument :=
  ⟨"table", "table", [], "", none, .str, none, .input, false⟩

def sizesArgument (flag : String) : Argument :=
  ⟨"sizes", "sizes", [flag], "", none, .strList, none, .input, false⟩

def sized (flag : String) : Binding :=
  ⟨"process", "", [tableArgument, sizesArgument flag],
    .ofArguments [tableArgument, sizesArgument flag] [], [none], none, "", none⟩

theorem letter_of_sized {flag : String} (h : flag = "--sizes" ∨ flag = "-s") :
    ∀ a ∈ (sized flag).arguments, ∀ c ∈ Argument.shortName a.flags, a.dest = "sizes" ∧ c = 's' := by
  intro a ha c hc
  rcases List.mem_cons.1 ha with rfl | ha
  · cases hc
  · cases List.mem_singleton.1 ha
    rcases h with rfl | rfl
    · cases hc
    · cases hc
      exact ⟨rfl, rfl⟩

theorem sized_clear {flag : String} (h : flag = "--sizes" ∨ flag = "-s") :
    (sized flag).Clear where
  dests_nodup := by rcases h with rfl | rfl <;> decide
  dests_free := by rcases h with rfl | rfl <;> decide
  longs_free := by rcases h with rfl | rfl <;> decide
  letters_free := by
    intro a ha c hc
    rw [(letter_of_sized h a ha c hc).2]
    decide
  longs_apart := by rcases h with rfl | rfl <;> decide
  letters_apart := by
    intro a ha d hd hne c hc he
    exact hne ((letter_of_sized h a ha c hc).1.trans (letter_of_sized h d hd c he).1.symm)
  flags_named := by rcases h with rfl | rfl <;> decide
  leads := by rcases h with rfl | rfl <;> decide
  positional_scalar := by rcases h with rfl | rfl <;> decide
  lists_many := by rcases h with rfl | rfl <;> decide

theorem parse_sized :
    (sized "--sizes").parse ["t.tsv", "--sizes=a,b", "c"] = .ok
        ⟨[("table", .str "t.tsv"), ("sizes", .list [.str "a", .str "b"])], none, ["c"]⟩ ∧
      (sized "-s").parse ["t.tsv", "-s=a,b", "c"] ≠ .ok
        ⟨[("table", .str "t.tsv"), ("sizes", .list [.str "a", .str "b"])], none, ["c"]⟩ := by
  have hv : ∀ flag, ∀ a ∈ (sized flag).arguments,
      isPlainWord (if a.param = "table" then "t.tsv" else "a,b") := by
    intro flag a _
    split <;> decide
  have hw : ∀ w ∈ ["c"], isPlainWord w := by decide
  have hlong := parse_composed_iff (sized_clear (.inl rfl)) (.refl (sized "--sizes").flagged)
    (hv "--sizes") hw
  have hletter := parse_composed_iff (sized_clear (.inr rfl)) (.refl (sized "-s").flagged)
    (hv "-s") hw
  refine ⟨hlong.2 (by decide), fun h => ?_⟩
  have hl := hletter.1 h
  exact absurd hl (by decide)

end Binding

end Pipewright
