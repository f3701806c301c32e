import Pipewright.Proofs.Source.Extent

/-! Tokens where they stand in a text. -/
namespace Pipewright.Source
open Pipewright.Text

/-- A token that is taken from the start of a text, in front of what is behind it. -/
inductive Taken : Token → List Char → Prop where
  | plain {gap w X : List Char} {c : Char} {kind : TokenKind}
      (hgap : ∀ g ∈ gap, isGap g = true) (hc : isGap c = false)
      (h : munch c (w ++ X) = (kind, w.length)) : Taken ⟨gap, kind, c :: w⟩ X
  | joined {gap w X : List Char} {c : Char} {t : Token} (hgap : ∀ g ∈ gap, isGap g = true)
      (hc : isGap c = false) (h : munch c (w ++ (t.spelling ++ X)) = (.joint, w.length))
      (hk : t.kind = .string) (ht : Taken t X) : Taken { t with gap := gap ++ c :: w ++ t.gap } X

/-- Tokens that are taken from a text one after the other. -/
inductive AllTaken : List Token → List Char → Prop where
  | nil (X : List Char) : AllTaken [] X
  | cons {t : Token} {ts : List Token} {X : List Char} (ht : Taken t (spell ts ++ X))
      (hj : t.kind = .joint → ∀ s ∈ ts.head?, s.kind ≠ .string) (h : AllTaken ts X) :
      AllTaken (t :: ts) X

theorem spell_cons (t : Token) (ts : List Token) : spell (t :: ts) = t.spelling ++ spell ts :=
  List.flatMap_cons

section
variable {t : Token} {ts us : List Token} {X Y gap cs : List Char}

/-! Reading -/

theorem lexFrom_gaps (h : ∀ g ∈ gap, isGap g = true) (before : List Char) :
    lexFrom before (gap ++ cs) = lexFrom (before ++ gap) cs := by
  induction gap generalizing before with
  | nil => simp
  | cons g gap ih =>
    rw [List.forall_mem_cons] at h
    rw [List.cons_append, lexFrom_gap h.1, ih h.2, List.append_assoc, List.singleton_append]

theorem lexFrom_munch {c : Char} {w : List Char} {kind : TokenKind} (hc : isGap c = false)
    (h : munch c (w ++ X) = (kind, w.length)) (gap : List Char) :
    lexFrom gap (c :: (w ++ X)) =
      (absorb ⟨gap, kind, c :: w⟩ (lexFrom [] X).1, (lexFrom [] X).2) := by
  rw [lexFrom.eq_def]
  simp only [hc, h, Bool.false_eq_true, if_false, List.drop_left, List.take_left]

theorem lexFrom_of_taken (h : Taken t X)
    (hj : t.kind = .joint → ∀ s ∈ (lexFrom [] X).1.head?, s.kind ≠ .string) :
    lexFrom [] (t.spelling ++ X) = (t :: (lexFrom [] X).1, (lexFrom [] X).2) := by
  induction h with
  | plain hgap hc h =>
    rw [Token.spelling, List.append_assoc, lexFrom_gaps hgap, List.cons_append,
      lexFrom_munch hc h, List.nil_append, absorb_eq_cons hj]
  | @joined gap w X c t hgap hc h hk ht ih =>
    have hshape : Token.spelling { t with gap := gap ++ c :: w ++ t.gap } ++ X =
        gap ++ c :: (w ++ (t.spelling ++ X)) := by
      simp [Token.spelling]
    have hstring : t.kind ≠ .joint := by rw [hk]; decide
    rw [hshape, lexFrom_gaps hgap, lexFrom_munch hc h, ih fun hj => absurd hj hstring]
    simp [absorb, hk]

/-- Tokens that are taken from a text are the first tokens of it. -/
theorem lexFrom_of_allTaken (h : AllTaken ts X) (hlast : ∀ t ∈ ts.getLast?, t.kind ≠ .joint) :
    lexFrom [] (spell ts ++ X) = (ts ++ (lexFrom [] X).1, (lexFrom [] X).2) := by
  induction h with
  | nil => rfl
  | @cons t ts X ht hj h ih =>
    rw [spell_cons, List.append_assoc]
    cases ts with
    | nil => exact lexFrom_of_taken ht fun hk => absurd hk (hlast t rfl)
    | cons u us =>
      have ih := ih fun s hs => hlast s (by rwa [List.getLast?_cons_cons])
      rw [lexFrom_of_taken ht, ih]
      · rfl
      · rw [ih]
        exact fun hk s hs => hj hk s (by simpa using hs)

/-! What a token takes is there -/

theorem plainNumber_le (cs : List Char) : (plainNumber cs).2 ≤ cs.length := by
  have hdigits := digitsLength_le cs
  have hadd : ∀ {count : List Char → Nat}, (∀ cs, count cs ≤ cs.length) → ∀ {n}, n ≤ cs.length →
      n + count (cs.drop n) ≤ cs.length := fun hle n hn => by
    have := hle (cs.drop n)
    rw [List.length_drop] at this
    omega
  rw [plainNumber_eq]
  split
  next h =>
    obtain ⟨r, hr⟩ := List.head?_eq_some_iff.1 h
    have hlen := congrArg List.length hr
    rw [List.length_drop, List.length_cons] at hlen
    have hwhole := hadd digitsLength_le (show digitsLength cs + 1 ≤ cs.length by omega)
    exact hadd (suffixLength_le _) (hadd exponentLength_le hwhole)
  next h =>
    dsimp only
    split
    · exact hadd (suffixLength_le _) hdigits
    · have hexp := hadd exponentLength_le hdigits
      have := hadd (suffixLength_le ['j', 'J']) hexp
      rwa [← List.drop_drop] at this

theorem numberLength_le (cs : List Char) : (numberLength cs).2 ≤ cs.length := by
  by_cases hten : ∀ b r, cs = '0' :: b :: r → baseDigit? b = none
  · rw [numberLength_ten hten]
    exact plainNumber_le cs
  · simp only [not_forall] at hten
    obtain ⟨b, r, rfl, hb⟩ := hten
    obtain ⟨digit, hdigit⟩ := Option.ne_none_iff_exists'.1 hb
    have hbased := basedLength_le digit r
    have hsuffix := suffixLength_le ['l', 'L'] (r.drop (basedLength digit r))
    rw [List.length_drop] at hsuffix
    rw [numberLength_based hdigit]
    split
    · exact plainNumber_le _
    · simp only [List.length_cons]
      omega

theorem markLength_le {c : Char} (cs : List Char) : markLength (c :: cs) ≤ cs.length := by
  rw [markLength]
  split
  next m hm =>
    have hfront : m <+: c :: cs := by
      have := List.find?_some hm
      simpa using this
    have hle := hfront.length_le
    rw [List.length_cons] at hle
    omega
  next => exact Nat.zero_le _

theorem stringToken?_le {c : Char} {cs : List Char} {p : TokenKind × Nat}
    (h : stringToken? (c :: cs) = some p) : p.2 ≤ cs.length := by
  obtain ⟨word, mark, r, hsplit, -, -, rfl⟩ := exists_of_stringToken? h
  have hlen := congrArg List.length hsplit
  rw [List.length_append, List.length_cons, List.length_cons] at hlen
  rw [stringFrom]
  cases hn : stringLength (openQuotes word mark r).2 [.text (openQuotes word mark r).1 true] r with
  | none =>
    simp only [Option.elim_none]
    omega
  | some n =>
    have hle := (ends_of_stringLength hn).le
    simp only [Option.elim_some]
    omega

theorem munch_le (c : Char) (cs : List Char) : (munch c cs).2 ≤ cs.length := by
  obtain hs | rfl | rfl | rfl := startsText_or c
  · rw [munch_eq hs]
    cases ht : stringToken? (c :: cs) with
    | some r => exact stringToken?_le ht
    | none =>
      dsimp only
      split
      · exact (List.takeWhile_sublist _).length_le
      split
      · have := numberLength_le (c :: cs)
        rw [List.length_cons] at this
        dsimp only
        omega
      split
      · exact markLength_le cs
      · exact Nat.zero_le _
  · exact Nat.zero_le _
  · exact (List.takeWhile_sublist _).length_le
  · simp only [munch, show '\\' ≠ '\n' by decide, show '\\' ≠ '#' by decide, if_false, if_true]
    split <;> simp

/-- The tokens of a text are taken from it one after the other. -/
theorem allTaken_of_lexFrom {tail : List Char} (hgap : ∀ g ∈ gap, isGap g = true)
    (h : lexFrom gap cs = (ts, tail)) : AllTaken ts tail := by
  induction gap, cs using lexFrom.induct generalizing ts tail with
  | case1 gap =>
    rw [lexFrom.eq_def] at h
    cases h
    exact .nil _
  | case2 gap c r hc ih =>
    rw [lexFrom_gap hc] at h
    exact ih (List.forall_mem_append.2 ⟨hgap, by simpa using hc⟩) h
  | case3 gap c r hc kind n hm us rest hrest ih =>
    have hle := munch_le c r
    rw [hm] at hle
    have hlen : (r.take n).length = n := List.length_take_of_le hle
    have hspell := spell_lexFrom [] (r.drop n)
    rw [hrest, List.nil_append] at hspell
    have htext : r.take n ++ (spell us ++ rest) = r := by rw [hspell, List.take_append_drop]
    have hmunch : munch c (r.take n ++ (spell us ++ rest)) = (kind, (r.take n).length) := by
      rw [htext, hm, hlen]
    have hc' : isGap c = false := by simpa using hc
    have htaken := ih (by simp) hrest
    rw [lexFrom.eq_def] at h
    simp only [hc', hm, hrest, Bool.false_eq_true, if_false, Prod.mk.injEq] at h
    obtain ⟨rfl, rfl⟩ := h
    obtain ⟨habsorb, hj⟩ | ⟨s, us', rfl, hj, hs, habsorb⟩ :=
      absorb_cases ⟨gap, kind, c :: r.take n⟩ us
    · rw [habsorb]
      exact .cons (.plain hgap hc' hmunch) hj htaken
    · rw [habsorb]
      obtain rfl : kind = .joint := hj
      rw [spell_cons, List.append_assoc] at hmunch
      cases htaken with
      | cons ht hj' h =>
        refine .cons (.joined hgap hc' hmunch hs ht) (fun hk => ?_) h
        exact absurd (hs.symm.trans hk) (by decide)

/-! Parts -/

theorem allTaken_append (h : AllTaken (ts ++ us) X) :
    AllTaken ts (spell us ++ X) ∧ AllTaken us X := by
  induction ts with
  | nil => exact ⟨.nil _, h⟩
  | cons t ts ih =>
    rw [List.cons_append] at h
    cases h with
    | cons ht hj h =>
      obtain ⟨hts, hus⟩ := ih h
      rw [spell_append, List.append_assoc] at ht
      refine ⟨.cons ht (fun hk s hs => hj hk s ?_) hts, hus⟩
      obtain ⟨r, rfl⟩ := List.head?_eq_some_iff.1 hs
      rfl

theorem AllTaken.append (hts : AllTaken ts (spell us ++ X)) (hus : AllTaken us X)
    (hlast : ∀ t ∈ ts.getLast?, t.kind ≠ .joint) : AllTaken (ts ++ us) X := by
  generalize hY : spell us ++ X = Y at hts
  induction hts with
  | nil => exact hus
  | @cons t ts Y ht hj h ih =>
    subst hY
    rw [List.cons_append]
    refine .cons (by rwa [spell_append, List.append_assoc]) (fun hk s hs => ?_) (ih ?_ rfl)
    · cases ts with
      | nil => exact absurd hk (hlast t rfl)
      | cons u ts => exact hj hk s (by simpa using hs)
    · intro s hs
      cases ts with
      | nil => cases hs
      | cons u ts => exact hlast s (by rwa [List.getLast?_cons_cons])

theorem Taken.text (h : Taken t X) : ∃ c w, t.text = c :: w ∧ isGap c = false := by
  induction h with
  | @plain gap w X c kind _ hc _ => exact ⟨c, w, rfl, hc⟩
  | joined _ _ _ _ _ ih => exact ih

/-- Other blank text in front of a token leaves the token as it is. -/
theorem Taken.spaced (h : Taken t X) (hgap : ∀ g ∈ gap, isGap g = true) :
    Taken { t with gap := gap } X := by
  induction h with
  | plain _ hc h => exact .plain hgap hc h
  | joined _ _ _ _ _ ih => exact ih

theorem Taken.widened (h : Taken t X) (hgap : ∀ g ∈ gap, isGap g = true) :
    Taken { t with gap := gap ++ t.gap } X := by
  cases h with
  | plain hg hc h => exact .plain (List.forall_mem_append.2 ⟨hgap, hg⟩) hc h
  | @joined g w X c t hg hc h hk ht =>
    have hwide := Taken.joined (List.forall_mem_append.2 ⟨hgap, hg⟩) hc h hk ht
    simpa using hwide

/-! Other text behind -/

theorem kind_of_startsText {c : Char} (hs : startsText c = true) (cs : List Char) :
    (munch c cs).1.isSolid = true ∨ (munch c cs).1 = .string ∨ (munch c cs).1 = .stray := by
  rw [munch_eq hs]
  cases ht : stringToken? (c :: cs) with
  | some p =>
    obtain ⟨word, mark, r, -, -, -, rfl⟩ := exists_of_stringToken? ht
    exact .inr (kind_stringFrom word mark r)
  | none =>
    dsimp only
    split
    · exact .inl rfl
    split
    · left
      have hkind : ∀ cs, (plainNumber cs).1.isSolid = true := fun cs => by
        rw [plainNumber_eq]
        split
        · rfl
        · dsimp only
          split <;> rfl
      by_cases hten : ∀ b r, c :: cs = '0' :: b :: r → baseDigit? b = none
      · rw [numberLength_ten hten]
        exact hkind _
      · simp only [not_forall] at hten
        obtain ⟨b, r, hr, hb⟩ := hten
        obtain ⟨digit, hdigit⟩ := Option.ne_none_iff_exists'.1 hb
        rw [hr, numberLength_based hdigit]
        split
        · exact hkind _
        · rfl
    split
    · exact .inl rfl
    · exact .inr (.inr rfl)

/-- What starts a token that carries no syntax. -/
theorem start_of_trivia {c : Char} {cs : List Char} {n : Nat} {kind : TokenKind}
    (h : munch c cs = (kind, n)) : (kind = .newline → c = '\n' ∧ n = 0) ∧
      (kind = .comment → c = '#' ∧ n = (cs.takeWhile (· ≠ '\n')).length) ∧
      (kind = .joint → c = '\\') := by
  obtain hs | rfl | rfl | rfl := startsText_or c
  · have hkind := kind_of_startsText hs cs
    rw [h] at hkind
    refine ⟨?_, ?_, ?_⟩ <;> rintro rfl <;> simp [TokenKind.isSolid] at hkind
  · cases h
    simp
  · cases h
    exact ⟨by simp, fun _ => ⟨rfl, rfl⟩, by simp⟩
  · obtain hk | hk := munch_backslash cs <;> rw [h] at hk <;> obtain rfl : kind = _ := hk <;> simp

/-- What a joint is in front of any text. -/
theorem munch_joint {w : List Char} (h : munch '\\' (w ++ X) = (.joint, w.length))
    (hX : X ≠ []) : w = ['\n'] ∨ w = ['\r', '\n'] := by
  simp only [munch, show '\\' ≠ '\n' by decide, show '\\' ≠ '#' by decide, if_false, if_true] at h
  split at h
  next he =>
    exact absurd (List.append_eq_nil_iff.1 he).2 hX
  next r he =>
    obtain ⟨c, rfl⟩ : ∃ c, w = [c] := List.length_eq_one_iff.1 (by simpa using h.symm)
    left
    simpa using (List.cons.inj he).1
  next r he =>
    obtain ⟨c, d, rfl⟩ : ∃ c d, w = [c, d] := by
      rcases w with _ | ⟨c, _ | ⟨d, _ | _⟩⟩ <;> simp at h
      exact ⟨c, d, rfl⟩
    right
    simp only [List.cons_append, List.nil_append, List.cons.injEq] at he
    rw [he.1, he.2.1]
  · cases h

theorem munch_of_joint {w : List Char} (h : w = ['\n'] ∨ w = ['\r', '\n']) (Y : List Char) :
    munch '\\' (w ++ Y) = (.joint, w.length) := by
  obtain rfl | rfl := h <;> rfl

/-- A comment goes to the end of its line. -/
theorem munch_comment {w : List Char} (h : munch '#' (w ++ X) = (.comment, w.length)) :
    '\n' ∉ w ∧ ∀ c ∈ X.head?, c = '\n' := by
  obtain ⟨-, hlen⟩ := (start_of_trivia h).2.1 rfl
  have hfront : (w ++ X).takeWhile (· ≠ '\n') <+: w ++ X := List.takeWhile_prefix _
  have hself : (w ++ X).takeWhile (· ≠ '\n') = w := by
    rw [List.prefix_iff_eq_take, ← hlen, List.take_left] at hfront
    exact hfront
  have hall : ∀ c ∈ w, decide (c ≠ '\n') = true := by
    intro c hc
    rw [← hself] at hc
    have hopen := List.mem_takeWhile_imp hc
    exact hopen
  refine ⟨fun hm => by simpa using hall _ hm, fun c hc => ?_⟩
  rw [List.takeWhile_append_of_pos hall] at hself
  obtain ⟨r, rfl⟩ := List.head?_eq_some_iff.1 hc
  by_contra hne
  have hlonger := congrArg List.length hself
  rw [List.takeWhile_cons_of_pos (by simpa using hne)] at hlonger
  simp at hlonger

theorem munch_of_comment {w : List Char} (hw : '\n' ∉ w) (hY : ∀ c ∈ Y.head?, c = '\n') :
    munch '#' (w ++ Y) = (.comment, w.length) := by
  have hall : ∀ c ∈ w, decide (c ≠ '\n') = true := by
    intro c hc
    rw [decide_eq_true_eq]
    rintro rfl
    exact hw hc
  have hstop : Y.takeWhile (· ≠ '\n') = [] := by
    cases Y with
    | nil => rfl
    | cons c Y => simp [hY c rfl]
  have hmunch : munch '#' (w ++ Y) = (.comment, ((w ++ Y).takeWhile (· ≠ '\n')).length) := rfl
  rw [hmunch, List.takeWhile_append_of_pos hall, hstop, List.append_nil]

/-- A token whose extent can be told from the text right behind it. -/
structure Token.Steady (t : Token) : Prop where
  kind : t.kind ≠ .stray
  line : t.kind = .string → '\n' ∉ t.text ∧ '\r' ∉ t.text

theorem Taken.congr (h : Taken t X) (ht : t.Steady) (hglue : glue X = glue Y)
    (hhead : t.kind = .comment → Y.head? = X.head?) (hX : X ≠ [])
    (hbrace : '}' ∈ Y → '}' ∈ X) : Taken t Y := by
  induction h with
  | @plain gap w X c kind hgap hc h =>
    refine .plain hgap hc ?_
    obtain ⟨hnewline, hcomment, hjoint⟩ := start_of_trivia h
    cases kind with
    | word => exact munch_congr h rfl hglue
    | whole => exact munch_congr h rfl hglue
    | decimal => exact munch_congr h rfl hglue
    | mark => exact munch_congr h rfl hglue
    | stray => exact absurd rfl ht.kind
    | string =>
      obtain ⟨hn, hr⟩ := ht.line rfl
      exact munch_string_congr hglue hbrace (fun hm => hn (List.mem_cons_of_mem _ hm))
        (fun hm => hr (List.mem_cons_of_mem _ hm)) h
    | newline =>
      obtain ⟨rfl, hw⟩ := hnewline rfl
      obtain rfl : w = [] := List.length_eq_zero_iff.1 hw
      rfl
    | joint =>
      obtain rfl := hjoint rfl
      exact munch_of_joint (munch_joint h hX) Y
    | comment =>
      obtain ⟨rfl, -⟩ := hcomment rfl
      obtain ⟨hw, hend⟩ := munch_comment h
      exact munch_of_comment hw fun d hd => hend d (hhead rfl ▸ hd)
  | @joined gap w X c t hgap hc h hk htaken ih =>
    obtain rfl := (start_of_trivia h).2.2 rfl
    have hne : t.spelling ++ X ≠ [] := by
      obtain ⟨d, v, htext⟩ := htaken.text
      simp [Token.spelling, htext]
    refine .joined hgap hc (munch_of_joint (munch_joint h hne) _) hk
      (ih ⟨ht.kind, ht.line⟩ hglue (fun hc => ?_) hX hbrace)
    exact absurd (hk.symm.trans hc) (by decide)

/-! Text behind a barrier -/

/-- A token that ends what stands in front of it: a round bracket or a newline. -/
def Token.isBarrier (t : Token) : Bool := t.isMark "(" || t.isMark ")" || t.kind = .newline

theorem Taken.barrier (h : Taken t X) (ht : t.isBarrier = true) :
    ∃ gap c, t.spelling = gap ++ [c] ∧ isGlue c = false ∧ ∀ Y, Taken t Y := by
  cases h with
  | joined _ _ _ hk _ =>
    simp [Token.isBarrier, Token.isMark, hk] at ht
  | @plain gap w _ c kind hgap hc h =>
    simp only [Token.isBarrier, Token.isMark, Bool.or_eq_true, Bool.and_eq_true,
      decide_eq_true_eq] at ht
    obtain hparen | rfl := ht
    · obtain ⟨rfl, hp, rfl⟩ : kind = .mark ∧ (c = '(' ∨ c = ')') ∧ w = [] := by
        obtain ⟨hk, ht⟩ | ⟨hk, ht⟩ := hparen
        · cases ht.trans (show "(".toList = ['('] from rfl)
          exact ⟨hk, .inl rfl, rfl⟩
        · cases ht.trans (show ")".toList = [')'] from rfl)
          exact ⟨hk, .inr rfl, rfl⟩
      have hglue : isGlue c = false := by obtain rfl | rfl := hp <;> decide
      exact ⟨gap, c, rfl, hglue, fun Y => .plain hgap hc (munch_paren hp Y)⟩
    · obtain ⟨rfl, hw⟩ := (start_of_trivia h).1 rfl
      obtain rfl : w = [] := List.length_eq_zero_iff.1 hw
      exact ⟨gap, '\n', rfl, by decide, fun Y => .plain hgap hc rfl⟩

theorem glue_barrier {c : Char} (hc : isGlue c = false) (w X Y : List Char) :
    glue (w ++ c :: X) = glue (w ++ c :: Y) := by
  refine glue_append_congr ?_ w
  rw [glue_of_not hc, glue_of_not hc]

theorem AllTaken.spell_last (h : AllTaken ts X) (hne : ts ≠ [])
    (hlast : ∀ t ∈ ts.getLast?, t.isBarrier = true) :
    ∃ w c, spell ts = w ++ [c] ∧ isGlue c = false := by
  obtain ⟨us, t, rfl⟩ : ∃ us t, ts = us ++ [t] :=
    ⟨ts.dropLast, ts.getLast hne, (List.dropLast_concat_getLast hne).symm⟩
  obtain ⟨-, h⟩ := allTaken_append h
  cases h with
  | cons ht _ _ =>
    obtain ⟨gap, c, hspell, hc, -⟩ := ht.barrier (hlast t (by simp))
    exact ⟨spell us ++ gap, c, by rw [spell_append, spell_cons, hspell]; simp [spell], hc⟩

/-- Tokens up to a barrier are taken in front of any text. -/
theorem AllTaken.congr (h : AllTaken ts X) (ht : ∀ t ∈ ts, t.Steady)
    (hlast : ∀ t ∈ ts.getLast?, t.isBarrier = true) (hbrace : '}' ∈ Y → '}' ∈ X) :
    AllTaken ts Y := by
  induction h with
  | nil => exact .nil _
  | @cons t ts X htaken hj h ih =>
    rw [List.forall_mem_cons] at ht
    cases ts with
    | nil =>
      obtain ⟨-, -, -, -, hany⟩ := htaken.barrier (hlast t rfl)
      exact .cons (hany _) hj (.nil _)
    | cons u us =>
      have hlast' : ∀ s ∈ (u :: us).getLast?, s.isBarrier = true := fun s hs =>
        hlast s (by rwa [List.getLast?_cons_cons])
      obtain ⟨w, c, hspell, hc⟩ := h.spell_last (List.cons_ne_nil u us) hlast'
      refine .cons (htaken.congr ht.1 ?_ (fun _ => ?_) ?_ fun hm => ?_) hj (ih ht.2 hlast' hbrace)
      · rw [hspell, List.append_assoc, List.append_assoc]
        exact glue_barrier hc w _ _
      · rw [hspell]
        cases w <;> rfl
      · rw [hspell]
        simp
      · exact List.mem_append.2 ((List.mem_append.1 hm).imp_right hbrace)

end
end Pipewright.Source
