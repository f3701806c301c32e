import Pipewright.Proofs.Source.Taken
import Pipewright.Proofs.Text.Margins

/-! Texts with less blank text at the starts and ends of their lines, and the tokens in them. -/
namespace Pipewright.Source
open Pipewright.Text

/-- A text that loses blank characters at the starts of its lines, and carriage returns in front of
newlines. `start` says that it begins at the start of a line. -/
inductive Relaid : (start : Bool) → List Char → List Char → Prop where
  | nil (start : Bool) : Relaid start [] []
  | keep {start : Bool} {c : Char} {X Y : List Char} (h : Relaid (c = '\n') X Y) :
      Relaid start (c :: X) (c :: Y)
  | blank {c : Char} {X Y : List Char} (hc : isBlank c = true) (hn : c ≠ '\n')
      (h : Relaid true X Y) : Relaid true (c :: X) Y
  | ending {start : Bool} {X Y : List Char} (h : Relaid start ('\n' :: X) Y) :
      Relaid start ('\r' :: '\n' :: X) Y

/-! Removal of a margin -/

/-- Whether lines lose some of the blank characters at their starts. -/
def Loses (f : List Char → List Char) (ls : List (List Char)) : Prop :=
  ∀ m ∈ ls, ∃ k ≤ indentation m, f m = m.drop k

theorem of_lt_indentation {c : Char} {m : List Char} {k : Nat} (h : k < indentation (c :: m)) :
    isBlank c = true ∧ k ≤ indentation m := by
  have hb : isBlank c = true := by
    by_contra hb
    simp [indentation, hb] at h
  exact ⟨hb, by simpa [indentation, hb, Nat.lt_succ_iff] using h⟩

theorem behind_of_last {c : Char} {r : List Char} (h : ∀ d ∈ (c :: r).getLast?, d ≠ '\n') :
    (c = '\n' → r ≠ []) ∧ ∀ d ∈ r.getLast?, d ≠ '\n' := by
  refine ⟨?_, fun d hd => h d ?_⟩
  · rintro rfl rfl
    exact h '\n' rfl rfl
  · have hr : r ≠ [] := List.ne_nil_of_mem (List.mem_of_getLast? hd)
    rwa [List.getLast?_cons_of_ne_nil hr]

section
variable {f : List Char → List Char} {r : List Char}

/-- A newline is kept, and what follows it begins a line. -/
theorem Relaid.broken (hr : r ≠ []) (hf : Loses f (lines r))
    (h : ∀ {m ms}, lines r = m :: ms → Loses f ms →
      ∀ k ≤ indentation m, Relaid true r (joinWith ['\n'] (m.drop k :: ms.map f)))
    (start : Bool) : Relaid start ('\n' :: r) (joinWith ['\n'] ([] :: (lines r).map f)) := by
  obtain ⟨m, ms, hm⟩ := List.exists_cons_of_ne_nil (lines_ne_nil hr)
  rw [hm, Loses, List.forall_mem_cons] at hf
  obtain ⟨k, hk, hdrop⟩ := hf.1
  have hjoin : joinWith ['\n'] ([] :: f m :: ms.map f) =
      '\n' :: joinWith ['\n'] (f m :: ms.map f) := rfl
  rw [hm, List.map_cons, hjoin, hdrop]
  exact .keep (h hm hf.2 k hk)

/-- The first character of a line is kept, or is taken with others behind it. -/
theorem Relaid.first {c : Char} {m : List Char} {ls : List (List Char)} (hc : c ≠ '\n')
    (hkept : Relaid false r (joinWith ['\n'] (m :: ls)))
    (hdrop : ∀ k ≤ indentation m, Relaid true r (joinWith ['\n'] (m.drop k :: ls))) :
    Relaid false (c :: r) (joinWith ['\n'] ((c :: m) :: ls)) ∧
      ∀ k ≤ indentation (c :: m),
        Relaid true (c :: r) (joinWith ['\n'] ((c :: m).drop k :: ls)) := by
  have hjoin : joinWith ['\n'] ((c :: m) :: ls) = c :: joinWith ['\n'] (m :: ls) := by
    cases ls <;> rfl
  have hkeep : ∀ start, Relaid start (c :: r) (joinWith ['\n'] ((c :: m) :: ls)) := by
    intro start
    rw [hjoin]
    exact .keep (by rwa [decide_eq_false hc])
  refine ⟨hkeep _, fun k hk => ?_⟩
  cases k with
  | zero => exact hkeep _
  | succ k =>
    obtain ⟨hb, hk⟩ := of_lt_indentation hk
    exact .blank hb hc (hdrop k hk)

/-- Lines from each of which some of the blank characters at its start are taken; from the first
one the first `k`. -/
theorem relaid_lines {cs : List Char} (hlast : ∀ c ∈ cs.getLast?, c ≠ '\n') {l : List Char}
    {ls : List (List Char)} (hls : lines cs = l :: ls) (hf : Loses f ls) :
    Relaid false cs (joinWith ['\n'] (l :: ls.map f)) ∧
      ∀ k ≤ indentation l, Relaid true cs (joinWith ['\n'] (l.drop k :: ls.map f)) := by
  induction cs using lines.induct generalizing l ls with
  | case1 => cases hls
  | case2 r ih =>
    obtain ⟨rfl, rfl⟩ := List.cons.inj hls
    obtain ⟨hr, hlast⟩ := behind_of_last hlast
    have hall := Relaid.broken (hr rfl) hf fun hm hf => (ih hlast hm hf).2
    exact ⟨hall _, fun k _ => by rw [List.drop_nil]; exact hall _⟩
  | case3 r ih =>
    obtain ⟨rfl, rfl⟩ := List.cons.inj hls
    obtain ⟨hr, hlast⟩ := behind_of_last (behind_of_last hlast).2
    have hall := Relaid.broken (hr rfl) hf fun hm hf => (ih hlast hm hf).2
    exact ⟨.ending (hall _), fun k _ => by rw [List.drop_nil]; exact .ending (hall _)⟩
  | case4 c r hn hr hnil ih =>
    obtain rfl := lines_eq_nil_iff.1 hnil
    rw [lines_cons hn (by simp), hnil] at hls
    obtain ⟨rfl, rfl⟩ := List.cons.inj hls
    exact Relaid.first hn (.nil _) fun k _ => by rw [List.drop_nil]; exact .nil _
  | case5 c r hn hr m ms hm ih =>
    have hcr : c = '\r' → r.head? ≠ some '\n' := by
      rintro rfl hhead
      obtain ⟨r', rfl⟩ := List.head?_eq_some_iff.1 hhead
      exact hr r' rfl rfl
    rw [lines_cons hn hcr, hm] at hls
    obtain ⟨rfl, rfl⟩ := List.cons.inj hls
    obtain ⟨hkept, hdrop⟩ := ih (behind_of_last hlast).2 hm hf
    exact Relaid.first hn hkept hdrop

end

theorem relaid_dedent {cs : List Char} (hlast : ∀ c ∈ cs.getLast?, c ≠ '\n') :
    Relaid true cs (dedent cs) := by
  cases hls : lines cs with
  | nil =>
    rw [lines_eq_nil_iff.1 hls]
    exact .nil true
  | cons l ls =>
    have hf : Loses (fun m => if allBlank m then [] else m.drop (margin (l :: ls))) (l :: ls) := by
      intro m hm
      by_cases hblank : allBlank m = true
      · refine ⟨m.length, ?_, by simp [hblank]⟩
        rw [indentation, List.takeWhile_eq_self_iff.2 (allBlank_iff.1 hblank)]
      · exact ⟨_, margin_le hm (by simpa using hblank), by simp [hblank]⟩
    obtain ⟨k, hk, hl⟩ := hf l List.mem_cons_self
    have h := (relaid_lines hlast hls fun m hm => hf m (List.mem_cons_of_mem _ hm)).2 k hk
    rw [← hl] at h
    rw [dedent, hls, dedentLines, List.map_cons]
    exact h

/-! What is kept -/

section
variable {start : Bool} {c : Char} {X Y gap w : List Char}

theorem Relaid.subset (h : Relaid start X Y) {c : Char} (hc : c ∈ Y) : c ∈ X := by
  induction h with
  | nil => exact hc
  | keep _ ih =>
    obtain rfl | hc := List.mem_cons.1 hc
    · exact List.mem_cons_self
    · exact List.mem_cons_of_mem _ (ih hc)
  | blank _ _ _ ih => exact List.mem_cons_of_mem _ (ih hc)
  | ending _ ih => exact List.mem_cons_of_mem _ (ih hc)

theorem Relaid.newline (h : Relaid start ('\n' :: X) Y) : ∃ Z, Y = '\n' :: Z ∧ Relaid true X Z := by
  cases h with
  | keep h => exact ⟨_, rfl, h⟩
  | blank _ hn _ => exact absurd rfl hn

theorem Relaid.shown (h : Relaid start (c :: X) Y) (hc : isBlank c = false) :
    ∃ Z, Y = c :: Z ∧ Relaid false X Z := by
  cases h with
  | @keep _ _ _ Z h =>
    have hn : decide (c = '\n') = false := by
      rw [decide_eq_false_iff_not]
      rintro rfl
      exact absurd hc (by decide)
    exact ⟨Z, rfl, hn ▸ h⟩
  | blank hb _ _ => simp [hc] at hb
  | ending _ => exact absurd hc (by decide)

theorem Relaid.glue (h : Relaid false X Y) : glue X = glue Y := by
  generalize hs : false = start at h
  induction h with
  | nil => rfl
  | @keep _ c X Y h ih =>
    cases hc : isGlue c with
    | false => rw [glue_of_not hc, glue_of_not hc]
    | true =>
      have hn : decide (c = '\n') = false := by
        rw [decide_eq_false_iff_not]
        rintro rfl
        exact absurd hc (by decide)
      rw [glue_cons hc, glue_cons hc, ih hn.symm]
  | blank => cases hs
  | ending h _ =>
    obtain ⟨Z, rfl, -⟩ := h.newline
    rw [glue_of_not (by decide), glue_of_not (by decide)]

/-- Text on one line is kept if it does not begin a line. -/
theorem Relaid.solid (h : Relaid false (w ++ X) Y) (hn : '\n' ∉ w) (hr : '\r' ∉ w) :
    ∃ Z, Y = w ++ Z ∧ Relaid false X Z := by
  induction w generalizing Y with
  | nil => exact ⟨Y, rfl, h⟩
  | cons c w ih =>
    simp only [List.mem_cons, not_or] at hn hr
    rw [List.cons_append] at h
    generalize hv : w ++ X = V at h
    cases h with
    | keep h =>
      have hn' : decide (c = '\n') = false := decide_eq_false (Ne.symm hn.1)
      rw [hn', ← hv] at h
      obtain ⟨Z, rfl, hZ⟩ := ih h hn.2 hr.2
      exact ⟨Z, rfl, hZ⟩
    | ending h => exact absurd rfl hr.1

/-- The blank text in front of a character and the character. -/
theorem Relaid.spaced (h : Relaid start (gap ++ c :: X) Y) (hgap : ∀ g ∈ gap, isGap g = true)
    (hc : isGap c = false) : ∃ gap' Z, Y = gap' ++ c :: Z ∧ (∀ g ∈ gap', isGap g = true) ∧
      (start = false → c ≠ '\n' → gap' = gap) ∧ Relaid (c = '\n') X Z := by
  induction gap generalizing start Y with
  | nil =>
    rw [List.nil_append] at h
    by_cases hn : c = '\n'
    · subst hn
      obtain ⟨Z, rfl, hZ⟩ := h.newline
      exact ⟨[], Z, rfl, by simp, fun _ _ => rfl, hZ⟩
    · have hb : isBlank c = false := by
        rw [isGap] at hc
        simp only [Bool.or_eq_false_iff, Bool.and_eq_false_iff] at hc
        simpa [hn] using hc.1.1.1
      obtain ⟨Z, rfl, hZ⟩ := h.shown hb
      exact ⟨[], Z, rfl, by simp, fun _ _ => rfl, by rwa [decide_eq_false hn]⟩
  | cons g gap ih =>
    rw [List.forall_mem_cons] at hgap
    have hgn : g ≠ '\n' := by
      rintro rfl
      exact absurd hgap.1 (by decide)
    rw [List.cons_append] at h
    generalize hv : gap ++ c :: X = V at h
    cases h with
    | keep h =>
      rw [decide_eq_false hgn, ← hv] at h
      obtain ⟨gap', Z, rfl, hgap', hsame, hZ⟩ := ih h hgap.2
      exact ⟨g :: gap', Z, rfl, List.forall_mem_cons.2 ⟨hgap.1, hgap'⟩,
        fun _ hn => congrArg (g :: ·) (hsame rfl hn), hZ⟩
    | blank hb hn h =>
      rw [← hv] at h
      obtain ⟨gap', Z, rfl, hgap', -, hZ⟩ := ih h hgap.2
      exact ⟨gap', Z, rfl, hgap', by simp, hZ⟩
    | ending h =>
      cases gap with
      | nil =>
        obtain ⟨rfl, rfl⟩ := List.cons.inj hv
        obtain ⟨Z, rfl, hZ⟩ := h.newline
        exact ⟨[], Z, rfl, by simp, fun _ hn => absurd rfl hn, hZ⟩
      | cons g' gap =>
        obtain ⟨rfl, -⟩ := List.cons.inj hv
        exact absurd (hgap.2 _ List.mem_cons_self) (by decide)

/-- The text of a comment and the newline behind it. -/
theorem Relaid.comment (h : Relaid false (w ++ '\n' :: X) Y) (hw : '\n' ∉ w) :
    ∃ w' Z, Y = w' ++ Z ∧ '\n' ∉ w' ∧ (∀ c ∈ Z.head?, c = '\n') ∧ Relaid false ('\n' :: X) Z := by
  induction w generalizing Y with
  | nil =>
    obtain ⟨Z, rfl, hZ⟩ := Relaid.newline h
    exact ⟨[], _, rfl, by simp, by simp, .keep hZ⟩
  | cons c w ih =>
    simp only [List.mem_cons, not_or] at hw
    rw [List.cons_append] at h
    generalize hv : w ++ '\n' :: X = V at h
    cases h with
    | keep h =>
      rw [decide_eq_false (Ne.symm hw.1), ← hv] at h
      obtain ⟨w', Z, rfl, hw', hhead, hZ⟩ := ih h hw.2
      exact ⟨c :: w', Z, rfl, by simp [hw.1, hw'], hhead, hZ⟩
    | ending h =>
      cases w with
      | nil =>
        obtain ⟨-, rfl⟩ := List.cons.inj hv
        obtain ⟨Z, rfl, hZ⟩ := h.newline
        exact ⟨[], _, rfl, by simp, by simp, .keep hZ⟩
      | cons d w =>
        obtain ⟨rfl, -⟩ := List.cons.inj hv
        exact absurd List.mem_cons_self hw.2

/-- The line break of a joint. -/
theorem Relaid.joint (h : Relaid false (w ++ X) Y) (hw : w = ['\n'] ∨ w = ['\r', '\n']) :
    ∃ w' Z, Y = w' ++ Z ∧ (w' = ['\n'] ∨ w' = ['\r', '\n']) ∧ Relaid true X Z := by
  obtain rfl | rfl := hw
  · obtain ⟨Z, rfl, hZ⟩ := Relaid.newline h
    exact ⟨['\n'], Z, rfl, .inl rfl, hZ⟩
  · cases h with
    | keep h =>
      obtain ⟨Z, rfl, hZ⟩ := Relaid.newline h
      exact ⟨['\r', '\n'], Z, rfl, .inr rfl, hZ⟩
    | ending h =>
      obtain ⟨Z, rfl, hZ⟩ := Relaid.newline h
      exact ⟨['\n'], Z, rfl, .inl rfl, hZ⟩

end

/-! Tokens -/

/-- A token that carries the same syntax as another one. Unless it begins a line, is a newline or
has a joint in front of it, it has the same blank text in front of it. -/
structure Same (start : Bool) (t u : Token) : Prop where
  kind : u.kind = t.kind
  text : t.isTrivia = false → u.text = t.text
  gap : start = false → t.kind ≠ .newline → '\n' ∉ t.gap → u.gap = t.gap

/-- Whether what follows a token begins a line. -/
def Token.breaks (t : Token) : Bool := t.kind = .newline || t.kind = .joint

/-- Tokens that carry the same syntax as others. -/
inductive Relays : (start : Bool) → List Token → List Token → Prop where
  | nil (start : Bool) : Relays start [] []
  | cons {start : Bool} {t u : Token} {ts us : List Token} (ht : Same start t u)
      (h : Relays t.breaks ts us) : Relays start (t :: ts) (u :: us)

section
variable {start : Bool} {t : Token} {ts : List Token} {X Y : List Char}

/-- All of a token that is neither trivia nor a string is glue, or it is a round bracket. -/
theorem glue_of_munch {c : Char} {w : List Char} {kind : TokenKind}
    (h : munch c (w ++ X) = (kind, w.length)) (hk : kind.isSolid = true) :
    ∀ d ∈ w, isGlue d = true := by
  have hsolid : (munch c (w ++ X)).1.isSolid = true := by rw [h]; exact hk
  obtain hg | hp := isGlue_of_munch hsolid
  · have hle := munch_le c (glue (w ++ X))
    rw [munch_glue (startsText_of_munch hsolid) (stringToken?_of_munch hsolid) hg, h] at hle
    have hfront : w <+: glue (w ++ X) :=
      List.prefix_of_prefix_length_le (List.prefix_append w X) (List.takeWhile_prefix _) hle
    exact fun d hd => List.mem_takeWhile_imp (hfront.subset hd)
  · rw [munch_paren hp, Prod.mk.injEq] at h
    rw [List.length_eq_zero_iff.1 h.2.symm]
    simp

theorem ne_newline_of_startsText {c : Char} (h : startsText c = true) : c ≠ '\n' := by
  rintro rfl
  exact absurd h (by decide)

/-- Whether a text is a token with the text behind it, both laid out anew. -/
def LaidAnew (start : Bool) (t : Token) (X Y : List Char) : Prop :=
  ∃ u Z, Y = u.spelling ++ Z ∧ Taken u Z ∧ Same start t u ∧ Relaid t.breaks X Z

section
variable {gap gap' w V : List Char} {c : Char} {kind : TokenKind}
  (hgap : ∀ g ∈ gap', isGap g = true) (hsame : start = false → c ≠ '\n' → gap' = gap)
  (hV : Relaid (c = '\n') (w ++ X) V) (hc : isGap c = false)
  (h : munch c (w ++ X) = (kind, w.length))

include hgap hsame hV hc in
/-- A token on one line is kept as it is. -/
theorem laidAnew_line (hs : startsText c = true) (hn : '\n' ∉ w) (hr : '\r' ∉ w)
    (hmunch : ∀ Z, Relaid false X Z → munch c (w ++ Z) = (kind, w.length))
    (hk : kind ≠ .newline) (hj : kind ≠ .joint) :
    LaidAnew start ⟨gap, kind, c :: w⟩ X (gap' ++ c :: V) := by
  have hcn := ne_newline_of_startsText hs
  rw [decide_eq_false hcn] at hV
  obtain ⟨Z, rfl, hZ⟩ := hV.solid hn hr
  refine ⟨⟨gap', kind, c :: w⟩, Z, by simp [Token.spelling], .plain hgap hc (hmunch Z hZ),
    ⟨rfl, fun _ => rfl, fun hs _ _ => hsame hs hcn⟩, ?_⟩
  simpa [Token.breaks, hk, hj] using hZ

include hgap hsame hV hc h in
theorem laidAnew_solid (hk : kind.isSolid = true) :
    LaidAnew start ⟨gap, kind, c :: w⟩ X (gap' ++ c :: V) := by
  have hglue := glue_of_munch h hk
  have hs : startsText c = true := startsText_of_munch (by rw [h]; exact hk)
  have hn : '\n' ∉ w := fun hm => absurd (hglue _ hm) (by decide)
  have hr : '\r' ∉ w := fun hm => absurd (hglue _ hm) (by decide)
  refine laidAnew_line hgap hsame hV hc hs hn hr (fun Z hZ => munch_congr h hk hZ.glue) ?_ ?_ <;>
    rintro rfl <;> cases hk

include hgap hsame hV hc h in
/-- What carries no syntax may lose what is blank in it. -/
theorem laidAnew_trivia (hk : kind = .newline ∨ kind = .joint ∨ kind = .comment)
    (hX : kind ≠ .newline → X ≠ []) :
    LaidAnew start ⟨gap, kind, c :: w⟩ X (gap' ++ c :: V) := by
  obtain ⟨hnewline, hcomment, hjoint⟩ := start_of_trivia h
  obtain rfl | rfl | rfl := hk
  · obtain ⟨rfl, hw⟩ := hnewline rfl
    obtain rfl : w = [] := List.length_eq_zero_iff.1 hw
    exact ⟨⟨gap', .newline, ['\n']⟩, V, by simp [Token.spelling], .plain hgap hc rfl,
      ⟨rfl, fun _ => rfl, fun _ hk => absurd rfl hk⟩, hV⟩
  · obtain rfl := hjoint rfl
    obtain ⟨w', Z, rfl, hw', hZ⟩ := Relaid.joint hV (munch_joint h (hX (by decide)))
    exact ⟨⟨gap', .joint, '\\' :: w'⟩, Z, by simp [Token.spelling],
      .plain hgap hc (munch_of_joint hw' Z),
      ⟨rfl, by simp [Token.isTrivia], fun hs _ _ => hsame hs (by decide)⟩, hZ⟩
  · obtain ⟨rfl, -⟩ := hcomment rfl
    obtain ⟨hw, hend⟩ := munch_comment h
    obtain ⟨d, X, rfl⟩ := List.exists_cons_of_ne_nil (hX (by decide))
    obtain rfl := hend d rfl
    obtain ⟨w', Z, rfl, hw', hhead, hZ⟩ := Relaid.comment hV hw
    exact ⟨⟨gap', .comment, '#' :: w'⟩, Z, by simp [Token.spelling],
      .plain hgap hc (munch_of_comment hw' hhead),
      ⟨rfl, by simp [Token.isTrivia], fun hs _ _ => hsame hs (by decide)⟩, hZ⟩

end

/-- A token in a text that is laid out anew. -/
theorem Taken.relaid (h : Taken t X) (ht : t.Steady) (hX : t.isTrivia = true → X ≠ [])
    (hr : Relaid start (t.spelling ++ X) Y) : LaidAnew start t X Y := by
  induction h generalizing start Y with
  | @plain gap w X c kind hgap hc h =>
    rw [Token.spelling, List.append_assoc] at hr
    obtain ⟨gap', V, rfl, hgap', hsame, hV⟩ := hr.spaced hgap hc
    cases kind with
    | stray => exact absurd rfl ht.kind
    | string =>
      obtain ⟨hn, hr⟩ := ht.line rfl
      have hwn : '\n' ∉ w := fun hm => hn (List.mem_cons_of_mem _ hm)
      have hwr : '\r' ∉ w := fun hm => hr (List.mem_cons_of_mem _ hm)
      exact laidAnew_line hgap' hsame hV hc (stringToken?_of_string h).1 hwn hwr
        (fun Z hZ => munch_string_congr hZ.glue hZ.subset hwn hwr h) (by decide) (by decide)
    | newline => exact laidAnew_trivia hgap' hsame hV hc h (.inl rfl) (absurd rfl)
    | joint => exact laidAnew_trivia hgap' hsame hV hc h (.inr (.inl rfl)) fun _ => hX rfl
    | comment => exact laidAnew_trivia hgap' hsame hV hc h (.inr (.inr rfl)) fun _ => hX rfl
    | _ => exact laidAnew_solid hgap' hsame hV hc h rfl
  | @joined gap w X c t hgap hc h hk htaken ih =>
    obtain rfl := (start_of_trivia h).2.2 rfl
    obtain ⟨d, v, htext, -⟩ := htaken.text
    have hne : t.spelling ++ X ≠ [] := by simp [Token.spelling, htext]
    have hw := munch_joint h hne
    have hshape : Token.spelling { t with gap := gap ++ '\\' :: w ++ t.gap } ++ X =
        gap ++ '\\' :: (w ++ (t.spelling ++ X)) := by
      simp [Token.spelling]
    rw [hshape] at hr
    obtain ⟨gap', V, rfl, hgap', -, hV⟩ := hr.spaced hgap hc
    obtain ⟨w', V, rfl, hw', hV⟩ := Relaid.joint hV hw
    obtain ⟨u, Z, rfl, hu, hsame, hZ⟩ := ih ⟨ht.kind, ht.line⟩ hX hV
    have hukind : u.kind = .string := hsame.kind.trans hk
    refine ⟨{ u with gap := gap' ++ '\\' :: w' ++ u.gap }, Z, by simp [Token.spelling],
      .joined hgap' hc (munch_of_joint hw' _) hukind hu, ⟨hsame.kind, hsame.text, ?_⟩, hZ⟩
    intro _ _ hgn
    refine absurd ?_ hgn
    obtain rfl | rfl := hw <;> simp

/-- The first tokens of a text that is laid out anew. -/
theorem AllTaken.relaid (h : AllTaken ts X) (ht : ∀ t ∈ ts, t.Steady)
    (hlast : ∀ t ∈ ts.getLast?, t.isTrivia = false) (hr : Relaid start (spell ts ++ X) Y) :
    ∃ us Z, Y = spell us ++ Z ∧ AllTaken us Z ∧ Relays start ts us := by
  induction h generalizing start Y with
  | nil X => exact ⟨[], Y, rfl, .nil Y, .nil start⟩
  | @cons t ts X htaken hj h ih =>
    rw [List.forall_mem_cons] at ht
    have hbehind : t.isTrivia = true → spell ts ++ X ≠ [] := fun htrivia => by
      cases h with
      | nil => simp [hlast t rfl] at htrivia
      | cons hu _ _ =>
        obtain ⟨c, w, htext, -⟩ := hu.text
        simp [spell_cons, Token.spelling, htext]
    rw [spell_cons, List.append_assoc] at hr
    obtain ⟨u, V, rfl, hu, hsame, hV⟩ := htaken.relaid ht.1 hbehind hr
    have hlast' : ∀ s ∈ ts.getLast?, s.isTrivia = false := fun s hs => by
      cases ts with
      | nil => cases hs
      | cons v ts => exact hlast s (by rwa [List.getLast?_cons_cons])
    obtain ⟨us, Z, rfl, hus, hrelays⟩ := ih ht.2 hlast' hV
    refine ⟨u :: us, Z, by simp [spell_cons], .cons hu (fun hk s hs => ?_) hus, .cons hsame hrelays⟩
    cases hrelays with
    | nil => cases hs
    | cons hs' _ =>
      cases hs
      rw [hs'.kind]
      exact hj (hsame.kind.symm.trans hk) _ rfl

end
end Pipewright.Source
