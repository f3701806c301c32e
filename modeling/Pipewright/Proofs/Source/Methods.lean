import Pipewright.Proofs.Source.Headers
import Pipewright.Proofs.Text.Trimming

/-! The source of a method, from whose parameters the first one is cut. -/
namespace Pipewright.Source
open Pipewright.Text

/-! Tokens in the place of others -/

section
variable {start : Bool} {t u c : Token} {ts us as bs inside behind : List Token} {X Y : List Char}

theorem Token.steady_of_kind (hk : t.kind ≠ .stray) (hs : t.kind ≠ .string) : t.Steady :=
  ⟨hk, fun h => absurd h hs⟩

/-- Unless it is a string, a token has nothing but blank text in front of it. -/
theorem Taken.gap (h : Taken t X) (hk : t.kind ≠ .string) : ∀ g ∈ t.gap, isGap g = true := by
  cases h with
  | plain hgap _ _ => exact hgap
  | joined _ _ _ hs _ => exact absurd hs hk

/-- The text of a newline is all that starts with one. -/
theorem Taken.kind_of_newline (h : Taken t X) {w : List Char} (ht : t.spelling = '\n' :: w) :
    t.kind = .newline := by
  cases h with
  | @plain gap w' _ c kind hgap hc h =>
    cases gap with
    | nil =>
      obtain ⟨rfl, rfl⟩ := List.cons.inj ht
      have hmunch : munch '\n' (w' ++ X) = (.newline, 0) := rfl
      rw [hmunch, Prod.mk.injEq] at h
      exact h.1.symm
    | cons g gap =>
      obtain ⟨rfl, -⟩ := List.cons.inj ht
      exact absurd (hgap _ List.mem_cons_self) (by decide)
  | @joined gap w' _ c t hgap hc h hk ht' =>
    cases gap with
    | nil =>
      obtain ⟨rfl, -⟩ := List.cons.inj ht
      exact absurd ((start_of_trivia h).2.2 rfl) (by decide)
    | cons g gap =>
      obtain ⟨rfl, -⟩ := List.cons.inj ht
      exact absurd (hgap _ List.mem_cons_self) (by decide)

/-- Behind a comment stands a newline. -/
theorem Taken.newline_of_comment (h : Taken t (u.spelling ++ X)) (hu : Taken u X)
    (ht : t.kind = .comment) : u.kind = .newline := by
  obtain ⟨c, w, htext, hc⟩ := hu.text
  cases h with
  | @plain gap w' _ d kind _ _ hm =>
    obtain rfl : kind = .comment := ht
    obtain rfl := ((start_of_trivia hm).2.1 rfl).1
    obtain ⟨-, hend⟩ := munch_comment hm
    cases hspell : u.spelling with
    | nil => simp [Token.spelling, htext] at hspell
    | cons e v =>
      obtain rfl := hend e (by simp [hspell])
      exact hu.kind_of_newline hspell
  | joined _ _ _ hk _ => exact absurd (hk.symm.trans ht) (by decide)

/-- Comments and newlines in front of another token end in a newline. -/
theorem AllTaken.spacers (h : AllTaken (as ++ t :: bs) X)
    (has : ∀ a ∈ as, Literal.isSpacer a = true) (ht : Literal.isSpacer t = false) :
    ∀ a ∈ as.getLast?, a.kind = .newline := by
  induction as with
  | nil => simp
  | cons a as ih =>
    rw [List.forall_mem_cons] at has
    rw [List.cons_append] at h
    cases h with
    | cons ha _ h =>
      cases as with
      | nil =>
        have ha' := has.1
        rw [Literal.isSpacer, Bool.or_eq_true, decide_eq_true_eq, decide_eq_true_eq] at ha'
        intro b hb
        obtain rfl : a = b := by simpa using hb
        refine ha'.resolve_left fun hcomment => ?_
        cases h with
        | cons hu _ _ =>
          rw [List.nil_append, spell_cons, List.append_assoc] at ha
          have hnewline := ha.newline_of_comment hu hcomment
          simp [Literal.isSpacer, hnewline] at ht
      | cons b as =>
        rw [List.getLast?_cons_cons]
        exact ih h has.2

/-- Tokens of which the first one gets other text in front. -/
theorem AllTaken.respaced {gap : List Char} (h : AllTaken (t :: ts) X)
    (ht : Taken { t with gap := gap } (spell ts ++ X)) :
    AllTaken ({ t with gap := gap } :: ts) X ∧
      Relays true (t :: ts) ({ t with gap := gap } :: ts) := by
  cases h with
  | cons _ hj h => exact ⟨.cons ht hj h, .cons ⟨rfl, fun _ => rfl, by simp⟩ (.refl _ ts)⟩

end

/-! The list without its first item -/

section
variable {t : Token} {ts rest inside : List Token}

/-- The text of a list whose first item is cut: what stands behind that item moves to where it
stood, from the next item on if there is one. -/
theorem cutFirst_eq (hd : inside.dropWhile Literal.isSpacer = t :: ts) (rest : List Token) :
    ((behindItem t ts).dropWhile Token.isSpacing = [] →
      cutFirst inside rest = spell (inside.takeWhile Literal.isSpacer) ++
        (t.gap ++ (spell (behindItem t ts) ++ spell rest))) ∧
    ∀ u us, (behindItem t ts).dropWhile Token.isSpacing = u :: us →
      cutFirst inside rest = spell (inside.takeWhile Literal.isSpacer) ++
        (t.gap ++ (u.text ++ (spell us ++ spell rest))) := by
  have hspacer : (fun t : Token => decide (t.kind = .comment) || decide (t.kind = .newline)) =
      Literal.isSpacer := rfl
  have hspacing : (fun t : Token => decide (t.kind = .comment) || decide (t.kind = .newline) ||
      t.isMark ",") = Token.isSpacing := rfl
  have hcomma : (fun t : Token => t.isMark ",") = Token.isComma := rfl
  unfold cutFirst behindItem trail List.rtakeWhile
  simp only [hspacer, hspacing, hcomma, hd]
  rcases (splitAtTop Token.isComma 0 0 (t :: ts)).2 with _ | ⟨c, r⟩
  all_goals
    simp only [fromSplit]
    refine ⟨fun hnext => ?_, fun u us hnext => ?_⟩
  all_goals
    rw [hnext]
    simp

theorem behindItem_suffix (t : Token) (ts : List Token) : behindItem t ts <:+ t :: ts := by
  rw [behindItem]
  split
  · exact List.suffix_cons t ts
  · have htrail : trail (splitAtTop Token.isComma 0 0 (t :: ts)).1 <:+
        (splitAtTop Token.isComma 0 0 (t :: ts)).1 := List.rtakeWhile_suffix _ _
    obtain ⟨front, hfront⟩ := htrail
    have hjoin := splitAtTop_join Token.isComma 0 0 (t :: ts)
    exact ⟨front, by rw [← List.append_assoc, hfront, hjoin]⟩

theorem nextItems_suffix (ts : List Token) : nextItems ts <:+ ts := by
  rw [nextItems]
  split
  · exact List.suffix_rfl
  · exact List.dropWhile_suffix _

theorem steady_of_mark {c : Token} {m : String} (hc : c.isMark m = true) : c.Steady := by
  rw [Token.isMark, Bool.and_eq_true, decide_eq_true_eq] at hc
  exact c.steady_of_kind (by rw [hc.1]; decide) (by rw [hc.1]; decide)

theorem isBarrier_of_open {p : Token} (hp : p.isMark "(" = true) : p.isBarrier = true := by
  rw [Token.isBarrier, hp, Bool.true_or, Bool.true_or]

theorem isBarrier_of_close {c : Token} (hc : c.isMark ")" = true) : c.isBarrier = true := by
  rw [Token.isBarrier, hc, Bool.or_true, Bool.true_or]

/-- Text of tokens as it is when the first token gets other blank text in front. -/
theorem spell_respaced (gap : List Char) (t : Token) (ts : List Token) :
    spell ({ t with gap := gap } :: ts) = gap ++ (t.text ++ spell ts) := by
  rw [spell_cons, Token.spelling, List.append_assoc]

theorem nextItems_behindItem_suffix (t : Token) (ts : List Token) :
    nextItems (behindItem t ts) <:+ t :: ts :=
  (nextItems_suffix _).trans (behindItem_suffix t ts)

section
variable {c v : Token} {vs : List Token} {X Y gap : List Char}

/-- What stands behind the first item of a list that is closed is taken in front of other text
too. -/
theorem AllTaken.next (h : AllTaken (t :: (ts ++ [c])) X) (hsteady : ∀ u ∈ t :: ts, u.Steady)
    (hc : c.isMark ")" = true) (hbrace : '}' ∈ Y → '}' ∈ X) :
    AllTaken (nextItems (behindItem t ts) ++ [c]) Y := by
  have hsuffix := nextItems_behindItem_suffix t ts
  obtain ⟨front, hfront⟩ := hsuffix
  rw [← List.cons_append, ← hfront, List.append_assoc] at h
  refine (allTaken_append h).2.congr (fun u hu => ?_) ?_ hbrace
  · obtain hu | hu := List.mem_append.1 hu
    · exact hsteady u (hfront ▸ List.mem_append_right front hu)
    · rw [List.mem_singleton.1 hu]
      exact steady_of_mark hc
  · simpa using isBarrier_of_close hc

/-- The text of a list that is closed, when its first item is cut: what stands behind the item, with
other blank text in front of it. -/
theorem cutFirst_next (hd : inside.dropWhile Literal.isSpacer = t :: ts)
    (hgap : ∀ g ∈ t.gap, isGap g = true) (c : Token) (rest : List Token) :
    ∃ v vs gap, nextItems (behindItem t ts) ++ [c] = v :: vs ∧
      cutFirst inside (c :: rest) = spell (inside.takeWhile Literal.isSpacer) ++
        spell ({ v with gap := gap } :: vs) ++ spell rest ∧
      (∀ Z, Taken v Z → Taken { v with gap := gap } Z) ∧ ∀ d ∈ gap, d ∈ t.gap ∨ d ∈ v.gap := by
  obtain ⟨hnil, hcons⟩ := cutFirst_eq hd (c :: rest)
  cases hn : (behindItem t ts).dropWhile Token.isSpacing with
  | nil =>
    obtain ⟨v, vs, hv⟩ : ∃ v vs, behindItem t ts ++ [c] = v :: vs :=
      List.exists_cons_of_ne_nil (by simp)
    have hspell : spell (behindItem t ts) ++ spell (c :: rest) = spell (v :: vs) ++ spell rest := by
      rw [← hv, ← List.singleton_append (l := rest), spell_append, spell_append, List.append_assoc]
    refine ⟨v, vs, t.gap ++ v.gap, by rw [nextItems_of_nil hn, hv], ?_,
      fun Z hZ => hZ.widened hgap, fun d hd => List.mem_append.1 hd⟩
    rw [hnil hn, hspell, spell_respaced, spell_cons, Token.spelling]
    simp only [List.append_assoc]
  | cons u us =>
    have hv : nextItems (behindItem t ts) ++ [c] = u :: (us ++ [c]) := by
      rw [nextItems_of_ne_nil (by simp [hn]), hn, List.cons_append]
    refine ⟨u, us ++ [c], t.gap, hv, ?_, fun Z hZ => hZ.spaced hgap, fun d hd => .inl hd⟩
    rw [hcons u us hn, spell_respaced t.gap u, spell_append, ← List.singleton_append (l := rest),
      spell_append]
    simp only [List.append_assoc]

/-- Blank text that is taken over from the first item or from the next one brings no new
character. -/
theorem mem_of_mem_next (hv : nextItems (behindItem t ts) ++ [c] = v :: vs)
    (hsub : ∀ d ∈ gap, d ∈ t.gap ∨ d ∈ v.gap) :
    ∀ d ∈ spell ({ v with gap := gap } :: vs), d ∈ spell (t :: (ts ++ [c])) := by
  intro d hd
  have hfirst : d ∈ t.gap → d ∈ spell (t :: (ts ++ [c])) := fun hd => by
    rw [spell_cons, Token.spelling]
    exact List.mem_append_left _ (List.mem_append_left _ hd)
  have hlater : d ∈ spell (v :: vs) → d ∈ spell (t :: (ts ++ [c])) := fun hd => by
    obtain ⟨front, hfront⟩ := nextItems_behindItem_suffix t ts
    rw [← List.cons_append, ← hfront, List.append_assoc, hv, spell_append]
    exact List.mem_append_right _ hd
  rw [spell_cons, Token.spelling, List.mem_append, List.mem_append] at hlater
  rw [spell_respaced, List.mem_append, List.mem_append] at hd
  obtain hd | hd | hd := hd
  · obtain hd | hd := hsub d hd
    · exact hfirst hd
    · exact hlater (.inl (.inl hd))
  · exact hlater (.inl (.inr hd))
  · exact hlater (.inr hd)

/-- The tokens of a list that is closed, when its first item is cut. -/
theorem AllTaken.cut (h : AllTaken (inside ++ [c]) X) (hsteady : ∀ t ∈ inside, t.Steady)
    (hc : c.isMark ")" = true) (hd : inside.dropWhile Literal.isSpacer = t :: ts)
    (ht : t.kind ≠ .string) (hbrace : '}' ∈ Y → '}' ∈ X) (rest : List Token) :
    ∃ us, cutFirst inside (c :: rest) = spell us ++ spell rest ∧ AllTaken us Y ∧
      Relays true (cutItems inside ++ [c]) us ∧ ∀ d ∈ spell us, d ∈ spell (inside ++ [c]) := by
  have hinside : inside = inside.takeWhile Literal.isSpacer ++ t :: ts := by
    rw [← hd, List.takeWhile_append_dropWhile]
  have hcut : cutItems inside =
      inside.takeWhile Literal.isSpacer ++ nextItems (behindItem t ts) := by
    rw [cutItems, hd]
  have hspacers : ∀ a ∈ inside.takeWhile Literal.isSpacer, Literal.isSpacer a = true :=
    fun a ha => List.mem_takeWhile_imp ha
  have hstop : Literal.isSpacer t = false := by
    have hnot := List.head?_dropWhile_not Literal.isSpacer inside
    rwa [hd] at hnot
  have htext := cutFirst_next hd
  generalize inside.takeWhile Literal.isSpacer = spacers at hinside hcut hspacers htext
  rw [hinside, List.append_assoc, List.cons_append] at h
  have hnewline := h.spacers hspacers hstop
  obtain ⟨hfront, hrest⟩ := allTaken_append h
  have hgap : ∀ g ∈ t.gap, isGap g = true := by
    cases hrest with
    | cons htaken _ _ => exact htaken.gap ht
  obtain ⟨v, vs, gap, hv, htext, htaken, hsub⟩ := htext hgap c rest
  have hchars := mem_of_mem_next hv hsub
  have hnext : AllTaken (v :: vs) Y :=
    hv ▸ hrest.next (fun u hu => hsteady u (hinside ▸ List.mem_append_right spacers hu)) hc hbrace
  obtain ⟨hplaced, hrelays⟩ := hnext.respaced (htaken _ (by cases hnext; assumption))
  refine ⟨spacers ++ { v with gap := gap } :: vs, ?_, ?_, ?_, ?_⟩
  · rw [htext, spell_append]
  · refine AllTaken.append (hfront.congr ?_ ?_ ?_) hplaced ?_
    · exact fun a ha => hsteady a (by rw [hinside]; simp [ha])
    · exact fun a ha => by simp [Token.isBarrier, hnewline a ha]
    · intro hm
      obtain hm | hm := List.mem_append.1 hm
      · exact List.mem_append_left _ (hchars _ hm)
      · exact List.mem_append_right _ (hbrace hm)
    · exact fun a ha => by rw [hnewline a ha]; decide
  · rw [hcut, List.append_assoc, hv]
    refine Relays.append (.refl true spacers) ?_
    cases hlast : spacers.getLast? with
    | none => exact hrelays
    | some a =>
      rw [Option.elim_some, Token.breaks, hnewline a hlast]
      exact hrelays
  · rw [hinside, List.append_assoc, List.cons_append]
    simp only [spell_append, List.mem_append]
    exact fun d hd => hd.imp_right (hchars d)

end

end

end Pipewright.Source
