import Mathlib.Data.List.TakeWhile
import Pipewright.Source.Token

/-! How a string is scanned: what one step does to the frames, and where a scan ends. -/
namespace Pipewright.Source

/-- The quotes of the text that a frame is. -/
def Frame.quotes? : Frame → Option Quotes
  | .text q _ => some q
  | .field .. | .format => none

/-- What a step in a frame can do: another such frame in its place, a frame on top of it, the
frames below it, or the end of the string at its mark. -/
inductive Moves (frame : Frame) (below : List Frame) (c : Char) (cs : List Char) : Step → Prop where
  | fail : Moves frame below c cs .fail
  | stay {next : Frame} {more : Nat} (h : next.quotes? = frame.quotes?) :
      Moves frame below c cs (.go (next :: below) more)
  | enter {inner next : Frame} {more : Nat}
      (hinner : ∀ q ∈ inner.quotes?, isQuoteMark q.mark = true)
      (h : next.quotes? = frame.quotes?) :
      Moves frame below c cs (.go (inner :: next :: below) more)
  | leave (h : frame.quotes? = none) : Moves frame below c cs (.go (closeField below) 0)
  | pop {more : Nat} (hbelow : below ≠ []) : Moves frame below c cs (.go below more)
  | close {q : Quotes} (h : frame.quotes? = some q) (hc : c = q.mark) (hbelow : below = []) :
      Moves frame below c cs (.close 0)
  | closeTriple {q : Quotes} (h : frame.quotes? = some q) (hc : c = q.mark) (hbelow : below = [])
      (hcs : cs.take 2 = [c, c]) : Moves frame below c cs (.close 2)

theorem moves_text (q : Quotes) (fresh : Bool) (below : List Frame) (c : Char) (cs : List Char) :
    Moves (.text q fresh) below c cs (stepText q fresh below c cs) := by
  unfold stepText
  split
  · split
    · exact .stay rfl
    · exact .enter (by simp [Frame.quotes?]) rfl
  split
  · split
    · exact .stay rfl
    · exact .fail
  split
  · split <;> exact .stay rfl
  split
  next hc =>
    split
    · split
      next hcs =>
        split
        · exact .closeTriple rfl hc rfl hcs
        · exact .pop ‹_›
      · exact .stay rfl
    · split
      · exact .close rfl hc rfl
      · exact .pop ‹_›
  split
  · exact .fail
  · exact .stay rfl

theorem moves_field (depth : Nat) (word : List Char) (below : List Frame) (c : Char)
    (cs : List Char) : Moves (.field depth word) below c cs (stepField depth word below c cs) := by
  unfold stepField
  split
  · exact .stay rfl
  split
  next hc =>
    refine .enter (fun q hq => ?_) rfl
    rw [← Option.some.inj hq]
    exact hc
  split
  · exact .stay rfl
  split
  · exact .leave rfl
  split
  · exact .stay rfl
  split
  · exact .stay rfl
  · exact .stay rfl

theorem moves_format (below : List Frame) (c : Char) (cs : List Char) :
    Moves .format below c cs (stepFormat below c) := by
  unfold stepFormat
  split
  · exact .enter (by simp [Frame.quotes?]) rfl
  split
  · exact .leave rfl
  · exact .stay rfl

theorem moves (frame : Frame) (below : List Frame) (c : Char) (cs : List Char) :
    Moves frame below c cs (stepFrame (frame :: below) c cs) := by
  cases frame with
  | text q fresh => exact moves_text q fresh below c cs
  | field depth word => exact moves_field depth word below c cs
  | format => exact moves_format below c cs

/-- A scan that ends: characters passed unseen, steps, and the step that closes the string. -/
inductive Ends : Nat → List Frame → List Char → Nat → Prop where
  | pass {more n : Nat} {frames : List Frame} {c : Char} {cs : List Char} (hc : c ≠ '\x00')
      (h : Ends more frames cs n) : Ends (more + 1) frames (c :: cs) (n + 1)
  | step {more n : Nat} {frames next : List Frame} {c : Char} {cs : List Char} (hc : c ≠ '\x00')
      (hs : stepFrame frames c cs = .go next more) (h : Ends more next cs n) :
      Ends 0 frames (c :: cs) (n + 1)
  | close {more : Nat} {frames : List Frame} {c : Char} {cs : List Char} (hc : c ≠ '\x00')
      (hs : stepFrame frames c cs = .close more) (hcs : more ≤ cs.length) :
      Ends 0 frames (c :: cs) (more + 1)

section
variable {more n : Nat} {frames : List Frame} {cs : List Char}

theorem ends_of_stringLength (h : stringLength more frames cs = some n) :
    Ends more frames cs n := by
  induction cs generalizing more frames n with
  | nil => cases more <;> cases h
  | cons c cs ih =>
    cases more with
    | succ more =>
      rw [stringLength] at h
      split at h
      · cases h
      next hc =>
        obtain ⟨m, hm, rfl⟩ := Option.map_eq_some_iff.1 h
        exact .pass hc (ih hm)
    | zero =>
      rw [stringLength] at h
      split at h
      · cases h
      next hc =>
        split at h
        · cases h
        next more hs =>
          split at h
          next hcs =>
            cases h
            rw [Nat.add_comm]
            exact .close hc hs hcs
          · cases h
        next next more hs =>
          obtain ⟨m, hm, rfl⟩ := Option.map_eq_some_iff.1 h
          exact .step hc hs (ih hm)

theorem Ends.stringLength (h : Ends more frames cs n) : stringLength more frames cs = some n := by
  induction h with
  | pass hc _ ih => rw [Source.stringLength, if_neg hc, ih]; rfl
  | step hc hs _ ih => rw [Source.stringLength, if_neg hc, hs]; dsimp only; rw [ih]; rfl
  | @close more _ _ _ hc hs hcs =>
    rw [Source.stringLength, if_neg hc, hs, Nat.add_comm more]
    exact if_pos hcs

/-- What is passed unseen is part of the string. -/
theorem Ends.lt (h : Ends more frames cs n) : more < n := by
  induction h with
  | pass _ _ ih => exact Nat.succ_lt_succ ih
  | step => exact Nat.succ_pos _
  | close => exact Nat.succ_pos _

theorem Ends.le (h : Ends more frames cs n) : n ≤ cs.length := by
  induction h with
  | pass _ _ ih => exact Nat.succ_le_succ ih
  | step _ _ _ ih => exact Nat.succ_le_succ ih
  | close _ _ hcs => exact Nat.succ_le_succ hcs

end

/-! Where strings start -/

/-- Letters that may stand in front of a string. -/
def isLead (c : Char) : Bool := "fFrRbBuU".toList.contains c

theorem isLead_of_isQuoteMark {c : Char} (h : isQuoteMark c = true) : isLead c = false := by
  simp only [isQuoteMark, Bool.or_eq_true, decide_eq_true_eq] at h
  obtain (rfl | rfl) | rfl := h <;> decide

theorem drop_length_takeWhile (p : Char → Bool) (cs : List Char) :
    cs.drop (cs.takeWhile p).length = cs.dropWhile p := by
  induction cs with
  | nil => rfl
  | cons c cs ih => by_cases h : p c <;> simp [h, ih]

/-- What a mark behind letters starts: a string, or a stray of all the text if no quote closes it. -/
def stringFrom (word : List Char) (mark : Char) (r : List Char) : TokenKind × Nat :=
  (stringLength (openQuotes word mark r).2 [.text (openQuotes word mark r).1 true] r).elim
    (.stray, word.length + r.length) fun n => (.string, word.length + n)

section
variable {word r cs : List Char} {mark : Char}

theorem stringToken?_mark (hw : ∀ c ∈ word, isLead c = true) (hm : isQuoteMark mark = true)
    (r : List Char) : stringToken? (word ++ mark :: r) = some (stringFrom word mark r) := by
  have hword : (word ++ mark :: r).takeWhile isLead = word := by
    rw [List.takeWhile_append_of_pos hw,
      List.takeWhile_cons_of_neg (by simp [isLead_of_isQuoteMark hm]), List.append_nil]
  have hleads : (fun c => "fFrRbBuU".toList.contains c) = isLead := rfl
  have hlength : (word ++ mark :: r).length - 1 = word.length + r.length := by simp
  rw [stringToken?, hleads]
  dsimp only
  rw [hword, List.drop_left, stringFrom, hlength]
  dsimp only
  rw [if_pos hm]
  cases stringLength (openQuotes word mark r).2 [.text (openQuotes word mark r).1 true] r <;> rfl

theorem stringToken?_eq_none_iff :
    stringToken? cs = none ↔ ∀ c ∈ (cs.dropWhile isLead).head?, isQuoteMark c = false := by
  have hsplit := List.takeWhile_append_dropWhile (p := isLead) (l := cs)
  constructor
  · intro h mark hmark
    obtain ⟨r, hr⟩ := List.head?_eq_some_iff.1 hmark
    rw [← Bool.not_eq_true]
    intro hq
    rw [← hsplit, hr, stringToken?_mark (fun c hc => List.mem_takeWhile_imp hc) hq] at h
    cases h
  · intro h
    have hlead : (fun c => "fFrRbBuU".toList.contains c) = isLead := rfl
    rw [stringToken?, hlead]
    dsimp only
    rw [drop_length_takeWhile]
    cases hr : cs.dropWhile isLead with
    | nil => rfl
    | cons mark r =>
      rw [hr] at h
      simp [h mark rfl]

/-- A token at the start of a text is a string from letters and a mark on. -/
theorem exists_of_stringToken? {p : TokenKind × Nat} (h : stringToken? cs = some p) :
    ∃ word mark r, cs = word ++ mark :: r ∧ (∀ c ∈ word, isLead c = true) ∧
      isQuoteMark mark = true ∧ p = stringFrom word mark r := by
  have hnone : ¬∀ c ∈ (cs.dropWhile isLead).head?, isQuoteMark c = false := by
    rw [← stringToken?_eq_none_iff, h]
    exact Option.some_ne_none p
  simp only [not_forall, Bool.not_eq_false] at hnone
  obtain ⟨mark, hmark, hq⟩ := hnone
  obtain ⟨r, hr⟩ := List.head?_eq_some_iff.1 hmark
  have hword : ∀ c ∈ cs.takeWhile isLead, isLead c = true := fun c hc => List.mem_takeWhile_imp hc
  have hsplit : cs = cs.takeWhile isLead ++ mark :: r := by
    rw [← hr, List.takeWhile_append_dropWhile]
  rw [hsplit, stringToken?_mark hword hq, Option.some.injEq] at h
  exact ⟨_, mark, r, hsplit, hword, hq, h.symm⟩

theorem kind_stringFrom (word : List Char) (mark : Char) (r : List Char) :
    (stringFrom word mark r).1 = .string ∨ (stringFrom word mark r).1 = .stray := by
  rw [stringFrom]
  cases stringLength (openQuotes word mark r).2 [.text (openQuotes word mark r).1 true] r with
  | none => exact .inr rfl
  | some n => exact .inl rfl

theorem stringFrom_eq_string_iff {n : Nat} : stringFrom word mark r = (.string, n) ↔
    ∃ k, stringLength (openQuotes word mark r).2 [.text (openQuotes word mark r).1 true] r =
      some k ∧ n = word.length + k := by
  rw [stringFrom]
  cases stringLength (openQuotes word mark r).2 [.text (openQuotes word mark r).1 true] r with
  | none => simp
  | some k => simp [eq_comm]

theorem stringToken?_closed {q : Quotes} {skip n : Nat} (hw : ∀ c ∈ word, isLead c = true)
    (hm : isQuoteMark mark = true) (hopen : openQuotes word mark r = (q, skip))
    (hlength : stringLength skip [.text q true] r = some n) :
    stringToken? (word ++ mark :: r) = some (.string, word.length + n) := by
  rw [stringToken?_mark hw hm, stringFrom_eq_string_iff.2 ⟨n, by rw [hopen, hlength], rfl⟩]

theorem stringToken?_unled {q : Quotes} {skip n : Nat} (hm : isQuoteMark mark = true)
    (hopen : openQuotes [] mark r = (q, skip))
    (hlength : stringLength skip [.text q true] r = some n) :
    stringToken? (mark :: r) = some (.string, n) := by
  simpa using @stringToken?_closed [] r mark q skip n (by simp) hm hopen hlength

end

end Pipewright.Source
