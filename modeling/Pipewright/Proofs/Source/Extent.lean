import Pipewright.Proofs.Source.Glue
import Pipewright.Proofs.Source.Quotable

/-! How much of the text behind a string the string depends on. -/
namespace Pipewright.Source
open Pipewright.Text

theorem take_two_glue {c : Char} (hc : isGlue c = true) (cs : List Char) :
    (glue cs).take 2 = [c, c] ↔ cs.take 2 = [c, c] := by
  rcases cs with _ | ⟨d, _ | ⟨e, cs⟩⟩
  · rfl
  · cases hd : isGlue d with
    | true => rw [glue_cons hd]; rfl
    | false => simp [glue_of_not hd]
  · cases hd : isGlue d with
    | false =>
      rw [glue_of_not hd]
      refine iff_of_false (by simp) ?_
      rintro h
      obtain rfl : d = c := by simpa using (List.cons.inj h).1
      simp [hc] at hd
    | true =>
      rw [glue_cons hd]
      cases he : isGlue e with
      | true => rw [glue_cons he]; rfl
      | false =>
        rw [glue_of_not he]
        refine iff_of_false (by simp) ?_
        rintro h
        obtain ⟨-, h⟩ := List.cons.inj h
        obtain rfl : e = c := by simpa using h
        simp [hc] at he

section
variable {w X Y : List Char}

theorem head?_congr (hXY : glue X = glue Y) {c : Char} (hc : isGlue c = true) (w : List Char) :
    (w ++ Y).head? = some c ↔ (w ++ X).head? = some c := by
  rw [← head?_glue_eq_iff hc, ← glue_append_congr hXY, head?_glue_eq_iff hc]

theorem take_two_congr (hXY : glue X = glue Y) {c : Char} (hc : isGlue c = true) (w : List Char) :
    (w ++ Y).take 2 = [c, c] ↔ (w ++ X).take 2 = [c, c] := by
  rw [← take_two_glue hc, ← glue_append_congr hXY, take_two_glue hc]

theorem takeWhile_congr (hXY : glue X = glue Y) {p : Char → Bool}
    (hp : ∀ c, p c = true → isGlue c = true) (w : List Char) (n : Nat) :
    ((w ++ Y).take n).takeWhile p = ((w ++ X).take n).takeWhile p := by
  have htake : ∀ (n : Nat) (cs : List Char), (cs.take n).takeWhile p = (cs.takeWhile p).take n := by
    intro n cs
    induction cs generalizing n with
    | nil => simp
    | cons c cs ih =>
      cases n with
      | zero => simp
      | succ n =>
        rw [List.take_succ_cons, List.takeWhile_cons, List.takeWhile_cons, ih]
        split <;> simp
  rw [htake, htake, ← takeWhile_glue hp, ← glue_append_congr hXY, takeWhile_glue hp]

/-- The length of a character given by its name, after the opening brace. -/
def nameLength (r : List Char) : Nat :=
  if (r.takeWhile (· ≠ '}')).isEmpty || (r.takeWhile (· ≠ '}')).length = r.length then 0
  else (r.takeWhile (· ≠ '}')).length + 3

theorem nameLength_of_not_mem {r : List Char} (h : '}' ∉ r) : nameLength r = 0 := by
  have hall : r.takeWhile (· ≠ '}') = r := by
    refine List.takeWhile_eq_self_iff.2 fun c hc => ?_
    simp only [ne_eq, decide_eq_true_eq]
    rintro rfl
    exact h hc
  rw [nameLength, hall]
  simp

theorem nameLength_of_head {r : List Char} (h : r.head? = some '}') : nameLength r = 0 := by
  obtain ⟨s, rfl⟩ := List.head?_eq_some_iff.1 h
  simp [nameLength]

theorem nameLength_of_mem {r : List Char} (h : '}' ∈ r) (hhead : r.head? ≠ some '}') :
    nameLength r = (r.takeWhile (· ≠ '}')).length + 3 := by
  have hshort : (r.takeWhile (· ≠ '}')).length ≠ r.length := by
    intro hlen
    have hall := (List.takeWhile_prefix (p := (· ≠ '}')) (l := r)).eq_of_length hlen
    simpa using List.takeWhile_eq_self_iff.1 hall '}' h
  have hne : r.takeWhile (· ≠ '}') ≠ [] := by
    cases r with
    | nil => cases h
    | cons c r =>
      have hc : c ≠ '}' := fun hc => hhead (by rw [hc]; rfl)
      rw [List.takeWhile_cons_of_pos (by simpa using hc)]
      exact List.cons_ne_nil _ _
  rw [nameLength, if_neg]
  rw [Bool.or_eq_true, List.isEmpty_iff, decide_eq_true_eq]
  exact fun h => h.elim hne hshort

/-- A name that ends within a text is as long whatever is behind the text. -/
theorem nameLength_congr (hXY : glue X = glue Y) (hbrace : '}' ∈ Y → '}' ∈ X)
    (h : nameLength (w ++ X) < w.length + 3) : nameLength (w ++ Y) = nameLength (w ++ X) := by
  have hopen : ∀ {v : List Char}, '}' ∉ v → ∀ c ∈ v, decide (c ≠ '}') = true := by
    intro v hv c hc
    rw [decide_eq_true_eq]
    rintro rfl
    exact hv hc
  by_cases hw : '}' ∈ w
  · obtain ⟨name, rest, rfl, hname⟩ := List.eq_append_cons_of_mem hw
    have hstop : ∀ Z, (name ++ '}' :: rest ++ Z).takeWhile (· ≠ '}') = name := fun Z => by
      rw [List.append_assoc, List.takeWhile_append_of_pos (hopen hname)]
      simp
    rw [nameLength, nameLength, hstop, hstop]
    simp
  · by_cases hX : '}' ∈ X
    · -- The name would go on behind the text, so it is empty.
      by_cases hhead : (w ++ X).head? = some '}'
      · rw [nameLength_of_head hhead, nameLength_of_head ((head?_congr hXY (by decide) w).2 hhead)]
      · exfalso
        rw [nameLength_of_mem (List.mem_append_right w hX) hhead,
          List.takeWhile_append_of_pos (hopen hw), List.length_append] at h
        omega
    · rw [nameLength_of_not_mem fun h => (List.mem_append.1 h).elim hw hX,
        nameLength_of_not_mem fun h => (List.mem_append.1 h).elim hw fun hY => hX (hbrace hY)]

theorem escapeLength_named (r : List Char) : escapeLength ('N' :: '{' :: r) = nameLength r := by
  simp only [escapeLength, nameLength]
  rfl

theorem escapeLength_unbraced {cs : List Char} (h : cs.head? ≠ some '{') :
    escapeLength ('N' :: cs) = 0 := by
  cases cs with
  | nil => rfl
  | cons c cs =>
    have hc : c ≠ '{' := fun hc => h (by rw [hc]; rfl)
    simp [escapeLength, hc]
    decide

/-- An escape that ends within a text on one line is as long whatever is behind the text. -/
theorem escapeLength_congr (hXY : glue X = glue Y) (hbrace : '}' ∈ Y → '}' ∈ X)
    (hn : '\n' ∉ w) (hr : '\r' ∉ w) (h : escapeLength (w ++ X) < w.length) :
    escapeLength (w ++ Y) = escapeLength (w ++ X) := by
  cases w with
  | nil => simp at h
  | cons c w =>
    have hhex := fun n => congrArg List.length
      (takeWhile_congr hXY (fun c => isGlue_of_isHexDigit) w n)
    have hdigit := fun n => congrArg List.length
      (takeWhile_congr hXY (fun c => isGlue_of_isDigit) w n)
    have hcn : c ≠ '\n' := fun hc => hn (hc ▸ List.mem_cons_self)
    have hcr : c ≠ '\r' := fun hc => hr (hc ▸ List.mem_cons_self)
    rw [List.cons_append] at h ⊢
    rw [List.cons_append]
    by_cases hN : c = 'N'
    · subst hN
      by_cases hopen : (w ++ X).head? = some '{'
      · have hopen' := (head?_congr hXY (by decide) w).2 hopen
        cases w with
        | nil =>
          obtain ⟨r, rfl⟩ := List.head?_eq_some_iff.1 hopen
          obtain ⟨s, hs⟩ := List.head?_eq_some_iff.1 hopen'
          obtain rfl : Y = '{' :: s := hs
          rw [List.nil_append, escapeLength_named] at h ⊢
          rw [List.nil_append, escapeLength_named]
          rw [glue_cons (by decide), glue_cons (by decide)] at hXY
          refine @nameLength_congr [] r s (List.cons.inj hXY).2 (fun hm => ?_)
            (by simp at h ⊢; omega)
          simpa using hbrace (List.mem_cons_of_mem _ hm)
        | cons d w =>
          obtain rfl : d = '{' := by simpa using hopen
          rw [List.cons_append, escapeLength_named] at h ⊢
          rw [List.cons_append, escapeLength_named]
          exact nameLength_congr hXY hbrace (by simp at h; omega)
      · rw [escapeLength_unbraced hopen,
          escapeLength_unbraced fun h => hopen ((head?_congr hXY (by decide) w).1 h)]
    · simp only [escapeLength, hhex, hdigit, hcn, hcr, hN, if_false]

theorem rawEscapeLength_cons {mark c : Char} {cs : List Char} (hn : '\n' ∉ c :: cs)
    (hr : '\r' ∉ c :: cs) (h : c = mark ∨ c = '\\' → cs ≠ []) (X : List Char) :
    rawEscapeLength mark (c :: cs ++ X) = if c = mark || c = '\\' then 1 else 0 := by
  simp only [List.mem_cons, not_or] at hn hr
  by_cases hc : c = mark || c = '\\'
  · obtain ⟨d, ds, rfl⟩ := List.exists_cons_of_ne_nil (h (by simpa using hc))
    simp only [List.mem_cons, not_or] at hn hr
    have hdn : d ≠ '\n' := Ne.symm hn.2.1
    have hdr : d ≠ '\r' := Ne.symm hr.2.1
    simp [rawEscapeLength, hc, hdn, hdr]
  · have hcn : c ≠ '\n' := Ne.symm hn.1
    have hcr : c ≠ '\r' := Ne.symm hr.1
    simp [rawEscapeLength, hc, hcn, hcr]

theorem rawEscapeLength_congr {mark : Char} (hn : '\n' ∉ w) (hr : '\r' ∉ w)
    (h : rawEscapeLength mark (w ++ X) < w.length) :
    rawEscapeLength mark (w ++ Y) = rawEscapeLength mark (w ++ X) := by
  cases w with
  | nil => simp at h
  | cons c w =>
    have hroom : c = mark ∨ c = '\\' → w ≠ [] := by
      rintro hc rfl
      have hone : 1 ≤ rawEscapeLength mark (c :: X) := by
        have hc' : (c = mark || c = '\\') = true := by simpa using hc
        simp only [rawEscapeLength, hc', if_true]
        split <;> omega
      rw [List.singleton_append, List.length_singleton] at h
      omega
    rw [rawEscapeLength_cons hn hr hroom, rawEscapeLength_cons hn hr hroom]

theorem openQuotes_congr (hXY : glue X = glue Y) {mark : Char} (hm : isQuoteMark mark = true)
    (word w : List Char) : openQuotes word mark (w ++ Y) = openQuotes word mark (w ++ X) := by
  simp only [openQuotes, take_two_congr hXY (isGlue_of_isQuoteMark hm)]

/-- Frames of strings that quote marks enclose. -/
def AllQuoted (frames : List Frame) : Prop :=
  ∀ q fresh, Frame.text q fresh ∈ frames → isQuoteMark q.mark = true

/-- A step within a text depends on nothing behind the text, if what it takes ends within it. -/
theorem stepFrame_congr (hXY : glue X = glue Y) (hbrace : '}' ∈ Y → '}' ∈ X) (hn : '\n' ∉ w)
    (hr : '\r' ∉ w) {frames : List Frame} (hq : AllQuoted frames) {c : Char}
    (h : ∀ fs more, stepFrame frames c (w ++ X) = .go fs more → more < w.length) :
    stepFrame frames c (w ++ Y) = stepFrame frames c (w ++ X) := by
  cases frames with
  | nil => rfl
  | cons frame below =>
    cases frame with
    | format => rfl
    | field depth word =>
      simp only [stepFrame, stepField] at h ⊢
      split
      · rfl
      split
      next hc =>
        rw [openQuotes_congr hXY hc]
      · rfl
    | text q fresh =>
      have hmark := hq q fresh List.mem_cons_self
      simp only [stepFrame, stepText, head?_congr hXY (show isGlue '{' = true by decide),
        head?_congr hXY (show isGlue '}' = true by decide)] at h ⊢
      split
      next hopen => rfl
      next hopen =>
      rw [if_neg hopen] at h
      split
      next hclose => rfl
      next hclose =>
      rw [if_neg hclose] at h
      split
      next hesc =>
        rw [if_pos hesc] at h
        split
        next hraw =>
          rw [if_pos hraw] at h
          rw [rawEscapeLength_congr hn hr (h _ _ rfl)]
        next hraw =>
          rw [if_neg hraw] at h
          rw [escapeLength_congr hXY hbrace hn hr (h _ _ rfl)]
      next hesc =>
      by_cases hc : c = q.mark
      · subst hc
        simp only [take_two_congr hXY (isGlue_of_isQuoteMark hmark)]
      · simp only [hc, if_false]

theorem allQuoted_cons {frame : Frame} {below : List Frame} : AllQuoted (frame :: below) ↔
    (∀ q ∈ frame.quotes?, isQuoteMark q.mark = true) ∧ AllQuoted below := by
  constructor
  · refine fun h => ⟨fun q hq => ?_, fun q fresh hm => h q fresh (List.mem_cons_of_mem _ hm)⟩
    cases frame with
    | text r fresh =>
      obtain rfl : r = q := Option.some.inj hq
      exact h r fresh List.mem_cons_self
    | field => cases hq
    | format => cases hq
  · rintro ⟨hframe, h⟩ q fresh hm
    obtain rfl | hm := List.mem_cons.1 hm
    · exact hframe q rfl
    · exact h q fresh hm

theorem quoted_closeField {frames : List Frame} (h : AllQuoted frames) :
    AllQuoted (closeField frames) := by
  rcases frames with _ | ⟨_ | _ | _, below⟩
  · exact h
  · obtain ⟨hframe, hbelow⟩ := allQuoted_cons.1 h
    exact allQuoted_cons.2 ⟨hframe, hbelow⟩
  · exact h
  · exact h

theorem quoted_step {frames fs : List Frame} {c : Char} {cs : List Char} {more : Nat}
    (h : AllQuoted frames) (hs : stepFrame frames c cs = .go fs more) : AllQuoted fs := by
  cases frames with
  | nil => cases hs
  | cons frame below =>
    obtain ⟨hframe, hbelow⟩ := allQuoted_cons.1 h
    have hmoves := moves frame below c cs
    rw [hs] at hmoves
    cases hmoves with
    | stay hq => exact allQuoted_cons.2 ⟨hq ▸ hframe, hbelow⟩
    | enter hinner hq =>
      exact allQuoted_cons.2 ⟨hinner, allQuoted_cons.2 ⟨hq ▸ hframe, hbelow⟩⟩
    | leave => exact quoted_closeField hbelow
    | pop => exact hbelow

/-- A string on one line that ends within a text is as long whatever is behind the text. -/
theorem Ends.congr (hXY : glue X = glue Y) (hbrace : '}' ∈ Y → '}' ∈ X) {more : Nat}
    {frames : List Frame} (hq : AllQuoted frames) (hn : '\n' ∉ w) (hr : '\r' ∉ w)
    (h : Ends more frames (w ++ X) w.length) : Ends more frames (w ++ Y) w.length := by
  induction w generalizing more frames with
  | nil => exact absurd h.lt (Nat.not_lt_zero more)
  | cons c w ih =>
    simp only [List.mem_cons, not_or] at hn hr
    rw [List.cons_append, List.length_cons] at h ⊢
    cases h with
    | pass hc h => exact .pass hc (ih hq hn.2 hr.2 h)
    | step hc hs h =>
      refine .step hc ?_ (ih (quoted_step hq hs) hn.2 hr.2 h)
      rw [stepFrame_congr hXY hbrace hn.2 hr.2 hq, hs]
      intro fs more hs'
      rw [hs] at hs'
      cases hs'
      exact h.lt
    | close hc hs =>
      refine .close hc ?_ (by simp)
      rw [stepFrame_congr hXY hbrace hn.2 hr.2 hq, hs]
      intro fs more hs'
      rw [hs] at hs'
      cases hs'

/-- A string on one line depends on the glue behind it. -/
theorem munch_string_congr (hXY : glue X = glue Y) (hbrace : '}' ∈ Y → '}' ∈ X) {c : Char}
    (hn : '\n' ∉ w) (hr : '\r' ∉ w) (h : munch c (w ++ X) = (.string, w.length)) :
    munch c (w ++ Y) = (.string, w.length) := by
  obtain ⟨hs, ht⟩ := stringToken?_of_string h
  obtain ⟨word, mark, r, hsplit, hword, hmark, hfrom⟩ := exists_of_stringToken? ht
  obtain ⟨n, hlength, hw⟩ := stringFrom_eq_string_iff.1 hfrom.symm
  have hends := ends_of_stringLength hlength
  -- The letters and the mark are in front of what follows the string.
  obtain ⟨v, hv⟩ : word ++ [mark] <+: c :: w := by
    have hall : word ++ [mark] <+: c :: (w ++ X) := ⟨r, by rw [hsplit]; simp⟩
    refine List.prefix_of_prefix_length_le hall (List.prefix_append (c :: w) X) ?_
    have hpos := hends.lt
    rw [List.length_append, List.length_singleton, List.length_cons]
    omega
  obtain rfl : r = v ++ X := by
    rw [← List.cons_append, ← hv, List.append_assoc, List.append_assoc] at hsplit
    have hbehind : [mark] ++ (v ++ X) = [mark] ++ r := List.append_cancel_left hsplit
    exact (List.append_cancel_left hbehind).symm
  obtain rfl : n = v.length := by
    have hlen := congrArg List.length hv
    rw [List.length_append, List.length_append, List.length_singleton, List.length_cons] at hlen
    omega
  have hsuffix : v <:+ w := by
    cases word with
    | nil => exact (List.cons.inj hv).2 ▸ List.suffix_refl v
    | cons d word => exact ⟨word ++ [mark], (List.cons.inj hv).2⟩
  have hquoted : AllQuoted [.text (openQuotes word mark (v ++ X)).1 true] := by
    intro q fresh hm
    cases List.mem_singleton.1 hm
    exact hmark
  have hends' := hends.congr hXY hbrace hquoted (fun hm => hn (hsuffix.subset hm))
    fun hm => hr (hsuffix.subset hm)
  have hopen := openQuotes_congr hXY hmark word v
  have htext : c :: (w ++ Y) = word ++ mark :: (v ++ Y) := by
    rw [← List.cons_append, ← hv]
    simp
  rw [munch_eq hs, htext, stringToken?_closed hword hmark hopen hends'.stringLength, ← hw]

end

end Pipewright.Source
