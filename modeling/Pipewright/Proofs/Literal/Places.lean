import Pipewright.Proofs.Literal.Held
import Pipewright.Proofs.Literal.Steps

/-! Where the strings of a text stand, told from the strings that are read off it. -/
namespace Pipewright.Source
open Text

/-! Strings as tokens -/

/-- Whether a string ends a scan at last, whatever stands above it. -/
inductive Based : List Frame → Prop where
  | text {q : Quotes} (h : isQuoteMark q.mark = true) (fresh : Bool) : Based [.text q fresh]
  | above {frames : List Frame} (frame : Frame) (h : Based frames) : Based (frame :: frames)

theorem Based.replace {frame next : Frame} {below : List Frame} (h : Based (frame :: below))
    (hq : next.quotes? = frame.quotes?) : Based (next :: below) := by
  cases h with
  | text h fresh =>
    cases next with
    | text r fresh' =>
      cases hq
      exact .text h fresh'
    | field => cases hq
    | format => cases hq
  | above _ h => exact .above _ h

theorem Based.closeField {frames : List Frame} (h : Based frames) :
    Based (Source.closeField frames) := by
  rcases frames with _ | ⟨_ | _ | _, below⟩
  · exact h
  · exact h.replace rfl
  · exact h
  · exact h

theorem Based.tail {frame : Frame} {below : List Frame} (h : Based (frame :: below))
    (hbelow : below ≠ [] ∨ frame.quotes? = none) : Based below := by
  cases h with
  | text _ _ => exact hbelow.elim (absurd rfl) fun hq => by cases hq
  | above _ h => exact h

theorem Based.quoted {frame : Frame} {q : Quotes} (h : Based [frame])
    (hq : frame.quotes? = some q) : isQuoteMark q.mark = true := by
  cases h with
  | text h _ =>
    cases hq
    exact h
  | above _ h => cases h

theorem Based.step {frames next : List Frame} {c : Char} {cs : List Char} {more : Nat}
    (h : Based frames) (hs : stepFrame frames c cs = .go next more) : Based next := by
  cases frames with
  | nil => cases hs
  | cons frame below =>
    have hmoves := moves frame below c cs
    rw [hs] at hmoves
    cases hmoves with
    | stay hq => exact h.replace hq
    | enter _ hq => exact .above _ (h.replace hq)
    | leave hq => exact (h.tail (.inr hq)).closeField
    | pop hbelow => exact h.tail (.inl hbelow)

/-- A string closes at a mark, or at three of them. -/
theorem Based.closes {frames : List Frame} {c : Char} {cs : List Char} {more : Nat}
    (h : Based frames) (hs : stepFrame frames c cs = .close more) :
    isQuoteMark c = true ∧ (more = 0 ∨ more = 2 ∧ cs.take 2 = [c, c]) := by
  cases frames with
  | nil => cases hs
  | cons frame below =>
    have hmoves := moves frame below c cs
    rw [hs] at hmoves
    cases hmoves with
    | close hq hc hbelow =>
      subst hc hbelow
      exact ⟨h.quoted hq, .inl rfl⟩
    | closeTriple hq hc hbelow hcs =>
      subst hc hbelow
      exact ⟨h.quoted hq, .inr ⟨rfl, hcs⟩⟩

/-- A string ends with a quote. -/
theorem Ends.last {more n : Nat} {frames : List Frame} {cs : List Char} (h : Ends more frames cs n)
    (hb : Based frames) :
    ∃ body q rest, cs = body ++ q :: rest ∧ isQuoteMark q = true ∧ n = body.length + 1 := by
  induction h with
  | @pass _ _ _ c _ _ _ ih =>
    obtain ⟨body, q, rest, rfl, hq, rfl⟩ := ih hb
    exact ⟨c :: body, q, rest, rfl, hq, rfl⟩
  | @step _ _ _ _ c _ _ hs _ ih =>
    obtain ⟨body, q, rest, rfl, hq, rfl⟩ := ih (hb.step hs)
    exact ⟨c :: body, q, rest, rfl, hq, rfl⟩
  | @close _ _ c cs _ hs _ =>
    obtain ⟨hc, rfl | ⟨rfl, htake⟩⟩ := hb.closes hs
    · exact ⟨[], c, cs, rfl, hc, rfl⟩
    · refine ⟨[c, c], c, cs.drop 2, ?_, hc, rfl⟩
      conv_lhs => rw [← List.take_append_drop 2 cs, htake]
      rfl

/-- A string as it is written: letters, and text between quotes. -/
structure Quoted where
  lead : List Char
  mark : Char
  body : List Char
  closing : Char

namespace Quoted

def text (w : Quoted) : List Char := w.lead ++ w.mark :: (w.body ++ [w.closing])

structure WellFormed (w : Quoted) : Prop where
  lead : ∀ c ∈ w.lead, isLead c = true
  mark : isQuoteMark w.mark = true
  closing : isQuoteMark w.closing = true

end Quoted

theorem exists_of_munch {c : Char} {r : List Char} {n : Nat} (h : munch c r = (.string, n)) :
    ∃ (w : Quoted) (rest : List Char), w.WellFormed ∧ c :: r = w.text ++ rest ∧
      w.text.length = n + 1 := by
  obtain ⟨word, mark, r, hsplit, hword, hmark, hfrom⟩ :=
    exists_of_stringToken? (stringToken?_of_string h).2
  obtain ⟨m, hlength, rfl⟩ := stringFrom_eq_string_iff.1 hfrom.symm
  obtain ⟨body, q, rest, rfl, hq, rfl⟩ := (ends_of_stringLength hlength).last (.text hmark true)
  refine ⟨⟨word, mark, body, q⟩, rest, ⟨hword, hmark, hq⟩, ?_, ?_⟩
  · rw [hsplit, Quoted.text]
    simp
  · simp only [Quoted.text, List.length_append, List.length_cons, List.length_nil]
    omega

/-! Tokens where they stand -/

/-- A token of a text is the one that starts at its place, and the tokens behind it are those of
the text behind it. -/
theorem exists_of_lexFrom {gap cs : List Char} {us vs : List Token} {t : Token}
    (h : (lexFrom gap cs).1 = us ++ t :: vs) :
    ∃ front c r n, cs = front ++ c :: r ∧ munch c r = (t.kind, n) ∧ t.text = c :: r.take n ∧
      vs = (lexFrom [] (r.drop n)).1 := by
  induction gap, cs using lexFrom.induct generalizing us t vs with
  | case1 gap =>
    rw [lexFrom.eq_def] at h
    simp at h
  | case2 gap c r hgap ih =>
    rw [lexFrom_gap hgap] at h
    obtain ⟨front, d, r', n, rfl, hm⟩ := ih h
    exact ⟨c :: front, d, r', n, rfl, hm⟩
  | case3 gap c r hgap kind n hmunch ts tail hrest ih =>
    have hbehind : ∀ {us vs : List Token} {t : Token}, ts = us ++ t :: vs →
        ∃ front d r' m, c :: r = front ++ d :: r' ∧ munch d r' = (t.kind, m) ∧
          t.text = d :: r'.take m ∧ vs = (lexFrom [] (r'.drop m)).1 := by
      intro us vs t hts
      obtain ⟨front, d, r', m, hr, hm⟩ := ih (by rw [hrest]; exact hts)
      refine ⟨c :: (r.take n ++ front), d, r', m, ?_, hm⟩
      rw [List.cons_append, List.append_assoc, ← hr, List.take_append_drop]
    rw [lexFrom.eq_def] at h
    simp only [hgap, Bool.false_eq_true, if_false, hmunch, hrest] at h
    rcases absorb_cases ⟨gap, kind, c :: r.take n⟩ ts with
      ⟨habsorb, -⟩ | ⟨s, us', hts, -, -, habsorb⟩
    · rw [habsorb] at h
      cases us with
      | nil =>
        obtain ⟨rfl, rfl⟩ := List.cons.inj h
        exact ⟨[], c, r, n, rfl, hmunch, rfl, by rw [hrest]⟩
      | cons u us => exact hbehind (List.cons.inj h).2
    · rw [habsorb] at h
      cases us with
      | nil =>
        obtain ⟨rfl, rfl⟩ := List.cons.inj h
        exact @hbehind [] _ s hts
      | cons u us =>
        rw [(List.cons.inj h).2] at hts
        exact @hbehind (s :: us) _ _ hts

/-! Room from the first quote on -/

def Unquoted (cs : List Char) : Prop := ∀ c ∈ cs, isQuoteMark c = false

/-- A text from its first quote on. -/
def fromQuote (cs : List Char) : List Char := cs.dropWhile fun c => !isQuoteMark c

section
variable {c : Char} {front cs as bs : List Char}

theorem fromQuote_cons (h : isQuoteMark c = true) (cs : List Char) :
    fromQuote (c :: cs) = c :: cs :=
  List.dropWhile_cons_of_neg (by simp [h])

theorem fromQuote_append (h : Unquoted front) (cs : List Char) :
    fromQuote (front ++ cs) = fromQuote cs :=
  List.dropWhile_append_of_pos fun c hc => by simp [h c hc]

theorem Unquoted.fromQuote (h : Unquoted cs) : fromQuote cs = [] :=
  List.dropWhile_eq_nil_iff.2 fun c hc => by simp [h c hc]

theorem fromQuote_suffix (cs : List Char) : fromQuote cs <:+ cs := List.dropWhile_suffix _

theorem fromQuote_mono (h : as <:+ bs) : fromQuote as <:+ fromQuote bs := by
  obtain ⟨front, rfl⟩ := h
  rw [fromQuote, fromQuote, List.dropWhile_append]
  split
  · exact List.suffix_rfl
  · exact (List.dropWhile_suffix _).trans (List.suffix_append _ _)

theorem suffix_fromQuote (hc : isQuoteMark c = true) (h : c :: as <:+ bs) :
    c :: as <:+ fromQuote bs :=
  fromQuote_cons hc as ▸ fromQuote_mono h

end
end Pipewright.Source

namespace Pipewright.Literal
open Text Source

variable {gap cs rest : List Char} {gs vs : List Token} {t : Token} {s : List Char}

theorem isAsciiLetter_of_isQuoteMark {c : Char} (h : isQuoteMark c = true) :
    isAsciiLetter c = false := by
  simp only [isQuoteMark, Bool.or_eq_true, decide_eq_true_eq] at h
  obtain (rfl | rfl) | rfl := h <;> decide

theorem length_quoted {w : Quoted} (h : w.WellFormed) {v : List Char}
    (hv : stringChars? w.text = some v) : v.length ≤ w.body.length := by
  have hletter : ∀ c ∈ w.lead, isAsciiLetter c = true := by
    intro c hc
    have hall : ∀ c ∈ "fFrRbBuU".toList, isAsciiLetter c = true := forall_mem_of_all (by decide)
    exact hall c (by simpa [isLead] using h.lead c hc)
  have hmark := isAsciiLetter_of_isQuoteMark h.mark
  have hbody : w.text.dropWhile isAsciiLetter = w.mark :: (w.body ++ [w.closing]) := by
    rw [Quoted.text, List.dropWhile_append_of_pos hletter,
      List.dropWhile_cons_of_neg (by simp [hmark])]
  have hle := (length_stringChars? hv).trans (length_splitString w.text)
  simpa [hbody] using hle

/-- A string of a text, with the tokens behind it. -/
theorem exists_place (hk : t.kind = .string) (h : (t :: vs).Sublist (lexFrom gap cs).1) :
    ∃ (front : List Char) (w : Quoted) (rest : List Char), w.WellFormed ∧
      cs = front ++ (w.text ++ rest) ∧ t.text = w.text ∧ vs.Sublist (lexFrom [] rest).1 ∧
      (w.lead = [] → munch w.mark (w.body ++ w.closing :: rest) =
        (.string, w.body.length + 1)) := by
  obtain ⟨as, bs, hab, hmem, hbs⟩ := List.cons_sublist_iff.1 h
  obtain ⟨us, ws, rfl⟩ := List.append_of_mem hmem
  rw [List.append_assoc, List.cons_append] at hab
  obtain ⟨front, c, r, n, rfl, hm, ht, hvs⟩ := exists_of_lexFrom hab
  rw [hk] at hm
  obtain ⟨w, rest, hw, hr, hn⟩ := exists_of_munch hm
  have htake : c :: r.take n = w.text := by
    rw [← List.take_succ_cons, hr, ← hn, List.take_left]
  have hdrop : r.drop n = rest := by
    rw [← List.drop_succ_cons (a := c), hr, ← hn, List.drop_left]
  rw [hdrop] at hvs
  refine ⟨front, w, rest, hw, by rw [hr], ht.trans htake,
    hbs.trans (hvs ▸ List.sublist_append_right ws bs), fun hlead => ?_⟩
  rw [Quoted.text, hlead, List.nil_append] at hr hn
  rw [List.cons_append, List.append_assoc] at hr
  obtain ⟨rfl, rfl⟩ := List.cons.inj hr
  have hlength : n = w.body.length + 1 := by simpa using hn.symm
  rwa [hlength] at hm

/-- Whether the quotes from the first one of a text on are one string, of the characters `s`. -/
def Opens (cs s rest : List Char) : Prop :=
  ∃ w : Quoted, w.WellFormed ∧ w.lead ++ fromQuote cs <:+ cs ∧
    fromQuote cs = w.mark :: (w.body ++ w.closing :: rest) ∧ w.body.length = s.length ∧
    stringChars? w.text = some s ∧
    (w.lead = [] → munch w.mark (w.body ++ w.closing :: rest) = (.string, w.body.length + 1))

/-- Strings that are read as one text end at a quote and need room for the text and two quotes. If
there is just so much room, they are one string. -/
structure Spans (cs s rest : List Char) : Prop where
  ends : ∃ front q, cs = front ++ q :: rest ∧ isQuoteMark q = true
  room : rest.length + s.length + 2 ≤ (fromQuote cs).length
  opens : rest.length + s.length + 2 = (fromQuote cs).length → Opens cs s rest

theorem spans_one (hk : t.kind = .string) (h : (t :: vs).Sublist (lexFrom gap cs).1)
    (hv : stringChars? t.text = some s) :
    ∃ rest, vs.Sublist (lexFrom [] rest).1 ∧ Spans cs s rest := by
  obtain ⟨front, w, rest, hw, rfl, ht, hvs, hm⟩ := exists_place hk h
  rw [ht] at hv
  have hle := length_quoted hw hv
  have hsuffix : w.mark :: (w.body ++ w.closing :: rest) <:+ front ++ (w.text ++ rest) :=
    ⟨front ++ w.lead, by simp [Quoted.text]⟩
  have hfrom := suffix_fromQuote hw.mark hsuffix
  have hroom := hfrom.length_le
  simp only [List.length_cons, List.length_append] at hroom
  refine ⟨rest, hvs, ⟨front ++ w.lead ++ w.mark :: w.body, w.closing, by simp [Quoted.text],
    hw.closing⟩, by omega, fun htight => ?_⟩
  have heq := hfrom.eq_of_length (by simp only [List.length_cons, List.length_append]; omega)
  refine ⟨w, hw, ?_, heq.symm, by omega, hv, hm⟩
  rw [← heq]
  exact ⟨front, by simp [Quoted.text]⟩

theorem spans {parts : List (List Char)} (hne : gs ≠ []) (hk : ∀ t ∈ gs, t.kind = .string)
    (hj : gs.mapM (fun t => stringChars? t.text) = some parts)
    (h : (gs ++ vs).Sublist (lexFrom gap cs).1) :
    ∃ rest, vs.Sublist (lexFrom [] rest).1 ∧ Spans cs parts.flatten rest := by
  induction gs generalizing gap cs parts with
  | nil => exact absurd rfl hne
  | cons t gs ih =>
    obtain ⟨ht, hgs⟩ := List.forall_mem_cons.1 hk
    simp only [List.mapM_cons, Option.bind_eq_bind, Option.bind_eq_some_iff, Option.pure_def,
      Option.some.injEq] at hj
    obtain ⟨v, hv, us, hus, rfl⟩ := hj
    obtain ⟨rest, hrest, hspan⟩ := spans_one ht h hv
    by_cases hnil : gs = []
    · subst hnil
      cases hus
      exact ⟨rest, hrest, by simpa using hspan⟩
    · obtain ⟨rest', hrest', hspan'⟩ := ih hnil hgs hus hrest
      obtain ⟨front, q, hcs, -⟩ := hspan.ends
      obtain ⟨front', q', hrest, hq'⟩ := hspan'.ends
      have hfirst := hspan.room
      have hbehind := hspan'.room.trans (fromQuote_suffix rest).length_le
      rw [List.flatten_cons]
      -- Two strings have four quotes.
      refine ⟨rest', hrest', ⟨front ++ q :: front', q', by simp [hcs, hrest], hq'⟩, ?_,
        fun htight => ?_⟩
      · rw [List.length_append]
        omega
      · rw [List.length_append] at htight
        omega

/-! Strings of a text that has strings in single quotes only -/

/-- Strings that are read as one text. -/
structure Joined (gs : List Token) (s : List Char) : Prop where
  ne_nil : gs ≠ []
  kind : ∀ t ∈ gs, t.kind = .string
  value : joinStrings? gs = some (.str (String.ofList s))

theorem Joined.spans (hj : Joined gs s) (h : (gs ++ vs).Sublist (lexFrom gap cs).1) :
    ∃ rest, vs.Sublist (lexFrom [] rest).1 ∧ Spans cs s rest := by
  obtain ⟨parts, hparts, heq⟩ := Option.map_eq_some_iff.1 hj.value
  rw [Literal.str.injEq, String.ofList_inj] at heq
  exact heq ▸ Literal.spans hj.ne_nil hj.kind hparts h

/-- Texts with strings in single quotes as they are, each in front of what follows it. -/
inductive Laid : List Char → List (List Char × List Char) → Prop where
  | plain {cs : List Char} (h : Unquoted cs) : Laid cs []
  | string {front s rest : List Char} {ps : List (List Char × List Char)} (hf : Unquoted front)
      (hl : ∀ c ∈ front.getLast?, isLead c = false) (hr : Parted rest) (h : Laid rest ps) :
      Laid (front ++ (bare s ++ rest)) ((s, rest) :: ps)

theorem Laid.cons {c : Char} {ps : List (List Char × List Char)} (hq : isQuoteMark c = false)
    (hl : isLead c = false) (h : Laid cs ps) : Laid (c :: cs) ps := by
  cases h with
  | plain h => exact .plain (List.forall_mem_cons.2 ⟨hq, h⟩)
  | @string front s rest ps hf hlast hr h =>
    refine @Laid.string (c :: front) s rest ps (List.forall_mem_cons.2 ⟨hq, hf⟩) ?_ hr h
    cases front with
    | nil => simpa using hl
    | cons e front => simpa using hlast

theorem Laid.append {ps : List (List Char × List Char)} (hs : Unquoted s) (hr : Parted rest)
    (h : Laid rest ps) : Laid (s ++ rest) ps := by
  cases h with
  | plain h => exact .plain (List.forall_mem_append.2 ⟨hs, h⟩)
  | @string front t rest ps hf hlast hp h =>
    rw [← List.append_assoc]
    refine .string (List.forall_mem_append.2 ⟨hs, hf⟩) ?_ hp h
    -- A quote does not part the text, so there is text in front of it.
    cases front with
    | nil => exact absurd (hr '\'' rfl) (by decide)
    | cons e front => simpa using hlast

/-- A string that takes all of the room between two quotes is held by them. -/
theorem Opens.held {front : List Char} (h : Opens cs s rest)
    (hcs : cs <:+ front ++ (bare s ++ rest)) (hq : fromQuote cs = bare s ++ rest)
    (hl : ∀ c ∈ front.getLast?, isLead c = false) (hr : Parted rest) : Held rest s := by
  obtain ⟨w, hw, hlead, hfrom, hlength, hv, hm⟩ := h
  have hnone : w.lead = [] := by
    obtain ⟨before, hbefore⟩ := hlead.trans hcs
    rw [hq, ← List.append_assoc, List.append_cancel_right_eq] at hbefore
    obtain hnil | ⟨lead, c, hc⟩ := List.eq_nil_or_concat w.lead
    · exact hnil
    · have hlast := hl c (by simp [← hbefore, hc])
      rw [hw.lead c (by simp [hc])] at hlast
      cases hlast
  rw [hq, bare, List.cons_append, List.append_assoc, List.singleton_append] at hfrom
  obtain ⟨hmark, hbody⟩ := List.cons.inj hfrom
  obtain ⟨rfl, hclosing⟩ := List.append_inj hbody hlength.symm
  obtain ⟨hclosing, -⟩ := List.cons.inj hclosing
  rw [Quoted.text, hnone, ← hmark, ← hclosing] at hv
  rw [← hmark, ← hclosing] at hm
  exact held_of_munch hr (hm hnone) hv

/-- Strings that are read off such a text in their order are held by the quotes around them. -/
theorem Laid.held {text : List Char} {ps : List (List Char × List Char)} (h : Laid text ps)
    {gss : List (List Token)} (hcs : cs <:+ text)
    (hgs : List.Forall₂ (fun gs p => Joined gs p.1) gss ps)
    (hsub : gss.flatten.Sublist (lexFrom gap cs).1) :
    fromQuote cs = fromQuote text ∧ ∀ p ∈ ps, Held p.2 p.1 := by
  induction h generalizing cs gap gss with
  | @plain text h =>
    have hcs' : Unquoted cs := fun c hc => h c (hcs.subset hc)
    rw [h.fromQuote, hcs'.fromQuote]
    simp
  | @string front s rest ps hf hl hr _ ih =>
    cases hgs with
    | @cons gs _ gss _ hj hgs =>
      obtain ⟨rest', hrest', hspan⟩ : ∃ rest', gss.flatten.Sublist (lexFrom [] rest').1 ∧
          Spans cs s rest' := hj.spans hsub
      have hfront : fromQuote (front ++ (bare s ++ rest)) = bare s ++ rest := by
        rw [fromQuote_append hf]
        exact fromQuote_cons rfl _
      have hle := hfront ▸ (fromQuote_mono hcs).length_le
      have hroom := hspan.room
      obtain ⟨before, q, hends, hq⟩ := hspan.ends
      have hcount : (bare s ++ rest).length = rest.length + s.length + 2 := by
        simp only [bare, List.length_cons, List.length_append, List.length_nil]
        omega
      have hquote : q :: rest' <:+ front ++ (bare s ++ rest) := .trans ⟨before, hends.symm⟩ hcs
      have hwhole : rest <:+ front ++ (bare s ++ rest) := ⟨front ++ bare s, by simp⟩
      have hsuffix : rest' <:+ rest :=
        List.suffix_of_suffix_length_le ((List.suffix_cons q rest').trans hquote) hwhole (by omega)
      obtain ⟨hfrom, hheld⟩ := ih hsuffix hgs hrest'
      -- The quote in front of the rest that is left is no quote of the rest.
      obtain rfl : rest' = rest := by
        refine hsuffix.eq_of_length (by_contra fun hne => ?_)
        have hshort : (q :: rest').length ≤ rest.length :=
          lt_of_le_of_ne hsuffix.length_le hne
        have hinner := suffix_fromQuote hq (List.suffix_of_suffix_length_le hquote hwhole hshort)
        exact absurd (hinner.length_le.trans (hfrom ▸ (fromQuote_suffix rest').length_le))
          (Nat.not_succ_le_self _)
      have hcs' : fromQuote cs = bare s ++ rest' :=
        (hfront ▸ fromQuote_mono hcs).eq_of_length (by omega)
      exact ⟨hcs'.trans hfront.symm, List.forall_mem_cons.2
        ⟨(hspan.opens (by omega)).held hcs hcs' hl hr, hheld⟩⟩

end Pipewright.Literal
