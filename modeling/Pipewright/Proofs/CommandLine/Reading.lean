import Mathlib.Data.List.Basic
import Pipewright.CommandLine.Parser
import Pipewright.Proofs.Entries
import Pipewright.Proofs.Success

/-! What the words of a command line do to the state of its reader. -/
namespace Pipewright.CommandLine

/-- A word that no reader takes for an option. -/
def isPlainWord (w : String) : Bool :=
  match w.toList with
  | [] => false
  | c :: _ => c ≠ '-'

def isFlagName (cs : List Char) : Bool :=
  !cs.isEmpty && cs.head? ≠ some '-' && cs.all fun c => c ≠ '=' && !Text.isBlank c

/-- A state between two arguments: nothing is pending, and the rest has not started. -/
def ready (given : Given) (filled : Nat) : State := ⟨given, none, false, filled, false, []⟩

def waiting (given : Given) (filled : Nat) (o : Opt) : State :=
  ⟨given, some (o, []), true, filled, false, []⟩

def holding (given : Given) (filled : Nat) (o : Opt) (word : String) : State :=
  ⟨given, some (o, [word]), o.takesMany, filled, false, []⟩

def resting (given : Given) (filled : Nat) (rest : List String) : State :=
  ⟨given, none, false, filled, true, rest⟩

section
variable {spec : Spec} {st : State} {word : String} {given : Given} {n : Nat}

theorem exists_of_isPlainWord (h : isPlainWord word) : ∃ c r, word.toList = c :: r ∧ c ≠ '-' := by
  rw [isPlainWord] at h
  split at h
  · cases h
  · rename_i c r hw
    exact ⟨c, r, hw, of_decide_eq_true h⟩

theorem step_of_head (hw : word.toList.head? ≠ some '-') (ht : st.trailing = false) :
    step spec st word = plain spec st word := by
  rw [step, ht, if_neg (by decide)]
  split
  · rename_i he; rw [he] at hw; exact absurd rfl hw
  · rename_i he; rw [he] at hw; exact absurd rfl hw
  · rename_i he; rw [he] at hw; exact absurd rfl hw
  · rfl

theorem step_plain (hw : isPlainWord word) (ht : st.trailing = false) :
    step spec st word = plain spec st word := by
  obtain ⟨c, r, hl, hc⟩ := exists_of_isPlainWord hw
  refine step_of_head ?_ ht
  rw [hl, List.head?_cons]
  exact fun h => hc (Option.some.inj h)

/-- Letters are options, unless they may start the rest and one of them is none. -/
theorem step_cluster {c : Char} {r : List Char} (hc : c ≠ '-') (hw : word.toList = '-' :: c :: r)
    (ht : st.trailing = false)
    (h : (atRest spec st && (c :: r).any fun d => (spec.short? d).isNone) = false) :
    step spec st word = cluster spec st (c :: r) := by
  rw [step, ht, if_neg (by decide), hw]
  split
  · rename_i he; cases he; exact absurd rfl hc
  · rename_i he; cases he; exact absurd rfl hc
  · rename_i he; cases he; rw [h]; rfl
  · rename_i hno; exact absurd rfl (hno c r)

theorem addGiven_fresh {id : String} (h : id ∉ given.map Prod.fst) (vs : List String) :
    addGiven id vs given = given ++ [(id, vs)] := by
  rw [addGiven, Entries.get?_eq_none_iff.2 h]
  exact Entries.put_of_not_mem h _

/-- Taking the words of an option changes nothing but what is given. -/
theorem take_frame {o : Opt} {words : List String} {t : State} (h : take st o words = .ok t) :
    ∃ g, t = { st with given := g } := by
  rw [take] at h
  split at h
  · cases h
  · cases h
  · cases h; exact ⟨_, rfl⟩
  · split at h
    · cases h
    · split at h
      · cases h
      · split at h
        · cases h
        · cases h; exact ⟨_, rfl⟩
  · split at h
    · cases h
    · cases h; exact ⟨_, rfl⟩

/-- A state that settles to one between two arguments is at the same place itself. -/
theorem frame_of_settle (h : settle st = .ok (ready given n)) :
    st.accepts = false ∧ st.trailing = false ∧ st.filled = n ∧ st.rest = [] := by
  rw [settle] at h
  split at h
  · cases h
    exact ⟨rfl, rfl, rfl, rfl⟩
  · obtain ⟨g, hg⟩ := take_frame h
    simp only [ready, State.mk.injEq] at hg
    obtain ⟨-, -, ha, hf, ht, hr⟩ := hg
    exact ⟨ha.symm, ht.symm, hf.symm, hr.symm⟩

theorem step_positional {id : String} (hs : settle st = .ok (ready given n))
    (hw : isPlainWord word) (hid : spec.positionals[n]? = some id) :
    step spec st word = .ok (ready (addGiven id [word] given) (n + 1)) := by
  obtain ⟨ha, ht, hf, -⟩ := frame_of_settle hs
  have hp : plain spec st word = positional spec st word := by rw [plain, ha]
  rw [step_plain hw ht, hp]
  simp only [positional, hf, hid, hs]
  rfl

theorem await_ok (hs : settle st = .ok (ready given n)) (o : Opt) :
    await st o = .ok (waiting given n o) := by
  rw [await, hs]
  rfl

theorem step_waiting (hw : isPlainWord word) (o : Opt) :
    step spec (waiting given n o) word = .ok (holding given n o word) :=
  step_plain hw rfl

theorem settle_holding {o : Opt} (ho : o.takesMany = false) :
    settle (holding given n o word) = take (ready given n) o [word] := by
  rw [holding, ho]
  rfl

theorem plain_rest (hr : spec.hasRest = true) (hn : spec.positionals.length ≤ n)
    (hs : settle st = .ok (ready given n)) :
    plain spec st word = .ok (resting given n [word]) := by
  obtain ⟨ha, -, hf, -⟩ := frame_of_settle hs
  have hp : plain spec st word = positional spec st word := by rw [plain, ha]
  rw [hp]
  simp only [positional, hf, List.getElem?_eq_none hn, hr, if_true, hs]
  rfl

theorem foldlM_resting (hr : spec.hasRest = true) (hn : spec.positionals.length ≤ n)
    (rest words : List String) :
    words.foldlM (step spec) (resting given n rest) = .ok (resting given n (rest ++ words)) := by
  induction words generalizing rest with
  | nil => simp [pure, Except.pure]
  | cons w ws ih =>
    have hstep : step spec (resting given n rest) w = .ok (resting given n (rest ++ [w])) := by
      simp only [step, resting, if_true, positional, List.getElem?_eq_none hn, hr]
      rfl
    rw [foldlM_cons_of_ok hstep, ih, List.append_assoc]
    rfl

/-- All words are the rest from the first one that is read as a plain word. -/
theorem read_rest (hr : spec.hasRest = true) (hn : spec.positionals.length ≤ n)
    (hs : settle st = .ok (ready given n)) {words : List String}
    (hw : ∀ w ∈ words.head?, step spec st w = plain spec st w) :
    ∃ t, (words.foldlM (step spec) st >>= settle) = .ok t ∧ t.given = given ∧ t.rest = words := by
  cases words with
  | nil => exact ⟨ready given n, hs, rfl, rfl⟩
  | cons w ws =>
    have hstep : step spec st w = .ok (resting given n [w]) := by
      rw [hw w rfl, plain_rest hr hn hs]
    rw [foldlM_cons_of_ok hstep, foldlM_resting hr hn]
    exact ⟨resting given n ([w] ++ ws), rfl, rfl, rfl⟩

end

end Pipewright.CommandLine
