import Pipewright.Proofs.Source.Embedded
import Pipewright.Proofs.Source.Lookup
import Pipewright.Proofs.Text.Rows

/-! The rows of a source on which logical lines, definitions and their bodies stand. -/
namespace Pipewright.Source
open Text

/-! Definitions -/

/-- Whether a line holds the header of a function or a class. -/
def Line.isHeader (l : Line) : Bool :=
  match l.significant with
  | [] => false
  | t :: r =>
    t.isWord "def" || t.isWord "class" || (t.isWord "async" && r.head?.any (·.isWord "def"))

/-- Whether a definition starts on a line, with its header or with a decorator. -/
def Line.opensDefinition (l : Line) : Bool :=
  l.isHeader || l.significant.head?.any fun t => t.kind = .mark && t.text.head? = some '@'

/-- Whether a token starts a definition by itself: a decorator, or one of two words. -/
def Token.leadsDefinition (t : Token) : Bool :=
  t.isWord "def" || t.isWord "class" || (t.kind = .mark && t.text.head? = some '@')

/-- Whether a definition outside of any block starts on a line. -/
def Line.isTopDefinition (l : Line) : Bool := l.level = 0 && l.opensDefinition

/-- The text in front of a line. -/
def frontOf (before : List Line) (l : Line) : List Char :=
  before.flatMap Line.spelling ++ spell l.lead

/-- The text in front of the first token with syntax on a line. -/
def startOf (before : List Line) (l : Line) : List Char :=
  frontOf before l ++ spell (l.tokens.takeWhile Token.isTrivia)

/-- Whether a logical line starts on a row. -/
def StartsLine (cs : List Char) (i : Nat) : Prop :=
  ∃ before l after, linesOf cs = before ++ l :: after ∧ i = rowBehind (frontOf before l)

/-- The first token of a definition, with the text in front of it and behind it. -/
structure Opening where
  front : List Char
  token : Token
  behind : List Char
  deriving Repr

/-- The row that the definition starts on. -/
def Opening.row (o : Opening) : Nat := rowBehind o.front

/-- The start of the first definition outside of any block. -/
def opening? (cs : List Char) : Option Opening := do
  let d ← (linesOf cs).find? Line.isTopDefinition
  let t ← d.significant.head?
  let front := startOf ((linesOf cs).takeWhile fun l => !l.isTopDefinition) d
  some ⟨front, t, cs.drop (front ++ t.spelling).length⟩

/-- Whether a definition starts its row with a decorator, or with `def` or `class` and a space. -/
def Opening.IsPlain (o : Opening) : Prop :=
  o.token.gap = [] ∧
    (o.token.text.head? = some '@' ∨ o.token.isWord "async" = false ∧ o.behind.head? = some ' ')

/-- The tokens of a header up to its colon, and those behind it. -/
def Line.atColon (l : Line) : List Token × List Token :=
  match splitAtTop (·.isMark ":") 0 0 l.tokens with
  | (a, some (c, r)) => (a ++ [c], r)
  | (a, none) => (a, [])

/-- The text in front of the body of a definition: what stands behind the colon, or the block. -/
def bodyFront? (before : List Line) (l : Line) (block : List Line) : Option (List Char) :=
  match l.atColon.2.find? fun t => !t.isTrivia with
  | some t =>
    some (frontOf before l ++ spell l.atColon.1 ++ spell (l.atColon.2.takeWhile Token.isTrivia) ++
      t.gap)
  | none => block.head?.map fun m => frontOf (before ++ [l]) m

/-- Whether a row belongs to the body of the definition with its header on a line. -/
def BodyRow (cs : List Char) (l : Line) (i : Nat) : Prop :=
  ∃ before after block, linesOf cs = before ++ l :: after ∧ l.isHeader = true ∧
    block = after.takeWhile (fun m => l.level < m.level) ∧
    ∃ front ∈ bodyFront? before l block,
      rowBehind front ≤ i ∧ i ≤ rowBehind ((before ++ l :: block).flatMap Line.spelling)

/-! Lines where they stand -/

section
variable {cs X p : List Char} {t u : Token} {ts us : List Token} {l : Line}
  {before after : List Line} {i : Nat} {o : Opening}

theorem Taken.spelling_ne_nil (h : Taken t X) : t.spelling ≠ [] := by
  obtain ⟨c, w, htext, -⟩ := h.text
  simp [Token.spelling, htext]

/-- Trivia end with a row, but for a comment in front of a newline. -/
theorem Taken.endsRow (h : Taken t (u.spelling ++ X)) (hu : Taken u X) (ht : t.isTrivia = true)
    (hnewline : u.kind ≠ .newline) : EndsRow t.spelling := by
  have hcomment : t.kind ≠ .comment := fun hk => hnewline (h.newline_of_comment hu hk)
  cases h with
  | @plain gap w _ c kind hgap hc hm =>
    simp only [Token.isTrivia, Bool.or_eq_true, decide_eq_true_eq] at ht
    obtain (hk | rfl) | rfl := ht
    · exact absurd hk hcomment
    · obtain ⟨rfl, hw⟩ := (start_of_trivia hm).1 rfl
      obtain rfl : w = [] := List.length_eq_zero_iff.1 hw
      exact endsRow_append_newline gap
    · obtain rfl := (start_of_trivia hm).2.2 rfl
      have hw := munch_joint hm (by simp [hu.spelling_ne_nil])
      have hend : EndsRow ('\\' :: w) := by obtain rfl | rfl := hw <;> simp [EndsRow]
      exact hend.append_left (List.cons_ne_nil _ w) gap
  | joined _ _ _ hk _ => simp [Token.isTrivia, hk] at ht

theorem AllTaken.spell_ne_nil (h : AllTaken ts X) (hne : ts ≠ []) : spell ts ≠ [] := by
  cases h with
  | nil => exact absurd rfl hne
  | cons ht _ _ =>
    rw [spell_cons]
    exact List.append_ne_nil_of_left_ne_nil ht.spelling_ne_nil _

/-- Only the last of some trivia matters, with the token behind it. -/
theorem AllTaken.endsRow (h : AllTaken (ts ++ t :: us) X) (hts : ∀ u ∈ ts, u.isTrivia = true)
    (ht : t.kind ≠ .newline) : EndsRow (spell ts) := by
  induction ts with
  | nil => simp [EndsRow, spell]
  | cons u ts ih =>
    rw [List.forall_mem_cons] at hts
    cases h with
    | cons hu _ h =>
      rw [spell_cons]
      cases ts with
      | nil =>
        cases h with
        | cons htaken _ _ =>
          have hu : Taken u (spell (t :: us) ++ X) := hu
          rw [spell_cons, List.append_assoc] at hu
          simpa [spell] using hu.endsRow htaken hts.1 ht
      | cons v ts =>
        have hne := (allTaken_append h).1.spell_ne_nil (List.cons_ne_nil v ts)
        exact (ih h hts.2).append_left hne _

/-- A line in the text around it. -/
theorem exists_behind (h : linesOf cs = before ++ l :: after) :
    ∃ X, cs = frontOf before l ++ (spell l.tokens ++ X) ∧ AllTaken (l.lead ++ l.tokens) X := by
  obtain ⟨-, rest, hlex⟩ := settled_linesOf cs
  have htaken : AllTaken (lex cs) (lexFrom [] cs).2 := allTaken_of_lexFrom (by simp) rfl
  have hspell : spell (lex cs) ++ (lexFrom [] cs).2 = cs := spell_lexFrom [] cs
  have hshape : lex cs = before.flatMap Line.all ++
      ((l.lead ++ l.tokens) ++ (after.flatMap Line.all ++ rest)) := by
    rw [hlex, h]
    simp [Line.all]
  rw [hshape] at htaken
  refine ⟨spell (after.flatMap Line.all ++ rest) ++ (lexFrom [] cs).2, ?_,
    (allTaken_append (allTaken_append htaken).2).1⟩
  rw [hshape, spell_append, spell_all, spell_append, spell_append] at hspell
  simpa only [frontOf, List.append_assoc] using hspell.symm

/-- In front of a line, and of a token behind trivia on it, a row ends. -/
theorem endsRow_front (h : linesOf cs = before ++ l :: after) (hl : l.tokens = ts ++ t :: us)
    (hts : ∀ u ∈ ts, u.isTrivia = true) (ht : t.kind ≠ .newline) :
    EndsRow (frontOf before l ++ spell ts) := by
  obtain ⟨hsettled, -⟩ := settled_linesOf cs
  obtain ⟨X, -, htaken⟩ := exists_behind h
  have hlead : ∀ u ∈ l.lead, u.isTrivia = true := fun u hu =>
    trivia_of_newline (hsettled.leads l (by simp [h]) u hu)
  rw [hl, ← List.append_assoc] at htaken
  have hends := htaken.endsRow (List.forall_mem_append.2 ⟨hlead, hts⟩) ht
  rw [frontOf, List.append_assoc, ← spell_append]
  by_cases hne : l.lead ++ ts = []
  · -- Only the first line of a source has no newline in front.
    have hbefore : before = [] := by_contra fun hb => by
      have hchain := (h ▸ hsettled).chain
      obtain ⟨k, hk⟩ := Option.ne_none_iff_exists'.1 (mt List.getLast?_eq_none_iff.1 hb)
      exact ((List.isChain_append.1 hchain).2.2 k hk l rfl).lead (List.append_eq_nil_iff.1 hne).1
    rw [hbefore, hne]
    simp [EndsRow, spell]
  · exact hends.append_left ((allTaken_append htaken).1.spell_ne_nil hne) _

theorem endsRow_frontOf (h : linesOf cs = before ++ l :: after) : EndsRow (frontOf before l) := by
  obtain ⟨hne, hholds⟩ := (settled_linesOf cs).1.each l (by simp [h])
  obtain ⟨t, us, hl⟩ := List.exists_cons_of_ne_nil hne
  rw [hl, Holds] at hholds
  have hnewline : t.kind ≠ .newline := fun hk => by simpa using hholds.1 hk
  have hends := @endsRow_front cs t [] us l before after h hl (by simp) hnewline
  rwa [spell, List.flatMap_nil, List.append_nil] at hends

/-! The first definition -/

theorem Line.split_significant (h : l.significant.head? = some t) : t.isTrivia = false ∧
    ∃ r, l.tokens = l.tokens.takeWhile Token.isTrivia ++ t :: r ∧
      spell l.tokens = spell (l.tokens.takeWhile Token.isTrivia) ++ (t.spelling ++ spell r) := by
  rw [significant, List.head?_filter, List.find?_eq_some_iff_append] at h
  obtain ⟨ht, front, r, hl, hfront⟩ := h
  have ht : t.isTrivia = false := by simpa using ht
  have htake : l.tokens.takeWhile Token.isTrivia = front := by
    rw [hl, List.takeWhile_append_of_pos fun u hu => by simpa using hfront u hu,
      List.takeWhile_cons_of_neg (by simp [ht]), List.append_nil]
  refine ⟨ht, r, by rw [htake, hl], ?_⟩
  rw [htake, hl, spell_append, spell_cons]

theorem Line.opensDefinition_token (h : l.opensDefinition = true) :
    ∃ t, l.significant.head? = some t ∧ (t.leadsDefinition = true ∨ t.isWord "async" = true) := by
  cases hs : l.significant with
  | nil => simp [opensDefinition, isHeader, hs] at h
  | cons t r =>
    refine ⟨t, rfl, ?_⟩
    simp only [opensDefinition, isHeader, hs, List.head?_cons, Option.any_some, Bool.or_eq_true,
      Bool.and_eq_true] at h
    simp only [Token.leadsDefinition, Bool.or_eq_true, Bool.and_eq_true]
    tauto

theorem Line.opensDefinition_of_leads (h : l.significant.head? = some t)
    (ht : t.leadsDefinition = true) : l.opensDefinition = true := by
  obtain ⟨r, hr⟩ := List.head?_eq_some_iff.1 h
  simp only [Token.leadsDefinition, Bool.or_eq_true] at ht
  simp only [opensDefinition, isHeader, hr, List.head?_cons, Option.any_some, Bool.or_eq_true]
  tauto

theorem Token.shown_of_leads (h : t.leadsDefinition = true) : t.isTrivia = false := by
  simp only [leadsDefinition, Bool.or_eq_true, Bool.and_eq_true, decide_eq_true_eq] at h
  obtain (hword | hword) | ⟨hkind, -⟩ := h
  · exact shown_of_word hword
  · exact shown_of_word hword
  · simp [isTrivia, hkind]

/-- The start of the first definition in the text around it. -/
structure Opening.Stands (o : Opening) (cs : List Char) : Prop where
  source : cs = o.front ++ (o.token.spelling ++ o.behind)
  row : EndsRow o.front
  taken : Taken o.token o.behind
  token : o.token.leadsDefinition = true ∨ o.token.isWord "async" = true
  /-- No line with such a definition starts further up. -/
  first : ∀ before l after, linesOf cs = before ++ l :: after → l.isTopDefinition = true →
    o.front <+: startOf before l

theorem startOf_isPrefix (before : List Line) (l : Line) (between : List Line) (m : Line) :
    startOf before l <+: frontOf (before ++ l :: between) m := by
  obtain ⟨ts, hts⟩ := List.takeWhile_prefix Token.isTrivia (l := l.tokens)
  have hspell : spell l.tokens = spell (l.tokens.takeWhile Token.isTrivia) ++ spell ts := by
    rw [← spell_append, hts]
  refine ⟨spell ts ++ between.flatMap Line.spelling ++ spell m.lead, ?_⟩
  simp only [startOf, frontOf, List.flatMap_append, List.flatMap_cons, Line.spelling, hspell,
    List.append_assoc]

/-- A place in a list is another one or behind it, unless its entry is in front of that one. -/
theorem eq_or_between {α : Type} {as bs cs ds : List α} {a b : α}
    (h : as ++ a :: bs = cs ++ b :: ds) (hb : b ∉ as) :
    (cs = as ∧ b = a) ∨ ∃ between, cs = as ++ a :: between := by
  obtain ⟨between, rfl, hrest⟩ | ⟨between, rfl, hrest⟩ := List.append_eq_append_iff.1 h
  · cases between with
    | nil => exact .inl ⟨List.append_nil as, (List.cons.inj hrest).1.symm⟩
    | cons c between =>
      obtain rfl : a = c := (List.cons.inj hrest).1
      exact .inr ⟨between, rfl⟩
  · cases between with
    | nil => exact .inl ⟨(List.append_nil cs).symm, (List.cons.inj hrest).1⟩
    | cons c between =>
      obtain rfl : b = c := (List.cons.inj hrest).1
      exact absurd (List.mem_append_right cs List.mem_cons_self) hb

theorem exists_opening (h : ∃ l ∈ linesOf cs, l.isTopDefinition = true) :
    ∃ o ∈ opening? cs, o.Stands cs := by
  obtain ⟨d, hd⟩ := Option.isSome_iff_exists.1 (List.find?_isSome.2 h)
  obtain ⟨htop, before, after, hlines, hbefore⟩ := List.find?_eq_some_iff_append.1 hd
  have hopens : d.opensDefinition = true := by
    rw [Line.isTopDefinition, Bool.and_eq_true] at htop
    exact htop.2
  obtain ⟨t, ht, htoken⟩ := d.opensDefinition_token hopens
  obtain ⟨hshown, r, htokens, hspell⟩ := d.split_significant ht
  have htake : (linesOf cs).takeWhile (fun l => !l.isTopDefinition) = before := by
    rw [hlines, List.takeWhile_append_of_pos hbefore, List.takeWhile_cons_of_neg (by simp [htop]),
      List.append_nil]
  have hopening : opening? cs = some ⟨startOf before d, t,
      cs.drop (startOf before d ++ t.spelling).length⟩ := by
    simp [opening?, hd, ht, htake]
  obtain ⟨X, hcs, htaken⟩ := exists_behind hlines
  have hsource : cs = startOf before d ++ t.spelling ++ (spell r ++ X) := by
    rw [hcs, startOf, hspell]
    simp only [List.append_assoc]
  have hbehind : cs.drop (startOf before d ++ t.spelling).length = spell r ++ X := by
    rw [hsource, List.drop_left]
  rw [hbehind] at hopening
  have hfront : ∀ u ∈ d.tokens.takeWhile Token.isTrivia, u.isTrivia = true :=
    fun u hu => List.mem_takeWhile_imp hu
  have hnewline : t.kind ≠ .newline := fun hk => by
    rw [trivia_of_newline hk] at hshown
    cases hshown
  refine ⟨_, hopening, hsource.trans (List.append_assoc _ _ _),
    endsRow_front hlines htokens hfront hnewline, ?_, htoken, ?_⟩
  · rw [htokens, ← List.append_assoc] at htaken
    cases (allTaken_append htaken).2 with
    | cons ht _ _ => exact ht
  · intro before' l after' hlines' hl
    obtain ⟨rfl, rfl⟩ | ⟨between, rfl⟩ := eq_or_between (hlines.symm.trans hlines') fun hmem => by
      simpa [hl] using hbefore l hmem
    · exact List.prefix_rfl
    · exact (startOf_isPrefix before d between l).trans (List.prefix_append _ _)

theorem stands_of_mem_opening (ho : o ∈ opening? cs) : o.Stands cs := by
  have htop : ∃ l ∈ linesOf cs, l.isTopDefinition = true := by
    rw [Option.mem_def, opening?] at ho
    obtain ⟨d, hd, -⟩ := Option.bind_eq_some_iff.1 ho
    exact ⟨d, List.mem_of_find?_eq_some hd, List.find?_some hd⟩
  obtain ⟨o', ho', hstands⟩ := exists_opening htop
  exact Option.mem_unique ho ho' ▸ hstands

/-! Rows that start like a definition -/

/-- What the row of a definition can start with. -/
def definitionLeads : List (List Char) := ["def ".toList, "class ".toList, "@".toList]

/-- No blank text is in front of a token whose text starts with a character of it. -/
theorem gap_eq_nil {c d : Char} {gap w : List Char} (hgap : ∀ g ∈ gap, isGap g = true)
    (hc : isGap c = false) (h : c :: p <+: gap ++ d :: w) : gap = [] ∧ c = d ∧ p <+: w := by
  cases gap with
  | nil => exact ⟨rfl, List.cons_prefix_cons.1 h⟩
  | cons g gap =>
    obtain rfl := (List.cons_prefix_cons.1 h).1
    exact absurd (hgap c List.mem_cons_self) (by simp [hc])

theorem Taken.munch_head {c : Char} (h : Taken t X) (hc : isGap c = false) (hjoint : c ≠ '\\')
    (hX : c :: p <+: t.spelling ++ X) :
    t.gap = [] ∧ ∃ w, t.text = c :: w ∧ munch c (w ++ X) = (t.kind, w.length) ∧ p <+: w ++ X := by
  cases h with
  | @plain gap w _ d kind hgap hd hm =>
    rw [Token.spelling, List.append_assoc] at hX
    obtain ⟨rfl, rfl, hp⟩ := gap_eq_nil hgap hc hX
    exact ⟨rfl, w, rfl, hm, hp⟩
  | @joined gap w _ d t hgap hd hm hk ht =>
    simp only [Token.spelling, List.append_assoc, List.cons_append] at hX
    obtain ⟨-, rfl, -⟩ := gap_eq_nil hgap hc hX
    exact absurd ((start_of_trivia hm).2.2 rfl) hjoint

/-- The word at the start of a text that starts with it and a blank. -/
theorem Taken.word_of_lead (h : Taken t X) (c : Char) (cs : List Char)
    (hc : isWordStart c = true ∧ isGap c = false ∧ c ≠ '\\') (hcs : ∀ d ∈ cs, isWordChar d = true)
    (hX : c :: (cs ++ [' ']) <+: t.spelling ++ X) :
    t.gap = [] ∧ t.kind = .word ∧ t.text = c :: cs := by
  obtain ⟨hgap, w, htext, hmunch, Y, hY⟩ := h.munch_head hc.2.1 hc.2.2 hX
  rw [List.append_assoc, List.singleton_append] at hY
  have hword := munch_word hc.1 hcs (parted_cons (show isParting ' ' = true by decide) Y)
  rw [hY, hmunch, Prod.mk.injEq] at hword
  refine ⟨hgap, hword.1, ?_⟩
  rw [htext, (List.append_inj hY.symm hword.2).1]

theorem munch_at (cs : List Char) : (munch '@' cs).1 = .mark := by
  have hnone : stringToken? ('@' :: cs) = none :=
    stringToken?_eq_none_iff.2 (by simp [show isLead '@' = false by decide, isQuoteMark])
  rw [munch_eq (by decide), hnone]
  rfl

/-- The token at the start of a text that starts like a definition. -/
theorem Taken.leads (h : Taken t X) (hp : p ∈ definitionLeads) (hX : p <+: t.spelling ++ X) :
    t.gap = [] ∧ t.leadsDefinition = true := by
  simp only [definitionLeads, List.mem_cons, List.not_mem_nil, or_false] at hp
  obtain rfl | rfl | rfl := hp
  · obtain ⟨hgap, hkind, htext⟩ := h.word_of_lead 'd' ['e', 'f'] (by decide)
      (forall_mem_of_all (by decide)) hX
    exact ⟨hgap, by simp [Token.leadsDefinition, Token.isWord, hkind, htext]⟩
  · obtain ⟨hgap, hkind, htext⟩ := h.word_of_lead 'c' ['l', 'a', 's', 's'] (by decide)
      (forall_mem_of_all (by decide)) hX
    exact ⟨hgap, by simp [Token.leadsDefinition, Token.isWord, hkind, htext]⟩
  · have hX : '@' :: [] <+: t.spelling ++ X := hX
    obtain ⟨hgap, w, htext, hmunch, -⟩ := h.munch_head (by decide) (by decide) hX
    have hkind : t.kind = .mark := by rw [← munch_at (w ++ X), hmunch]
    exact ⟨hgap, by simp [Token.leadsDefinition, hkind, htext]⟩

/-- A text starts like a definition behind one of the two words if a space follows the word. -/
theorem leads_word_iff {s : String} (hs : s = "def" ∨ s = "class") (behind : List Char) :
    (∃ p ∈ definitionLeads, p <+: s.toList ++ behind) ↔ behind.head? = some ' ' := by
  have hspace : [' '] <+: behind ↔ behind.head? = some ' ' := by
    rw [List.head?_eq_some_iff]
    exact exists_congr fun r => eq_comm
  rw [← hspace]
  obtain rfl | rfl := hs <;> simp [definitionLeads]

/-- When the row of the first definition starts like one. -/
theorem Opening.Stands.leads_iff (h : o.Stands cs) :
    (∃ p ∈ definitionLeads, p <+: o.token.spelling ++ o.behind) ↔ o.IsPlain := by
  by_cases hgap : o.token.gap = []
  · have hword : ∀ {s : String}, o.token.isWord s = true → o.token.text = s.toList := fun hs => by
      rw [Token.isWord, Bool.and_eq_true, decide_eq_true_eq, decide_eq_true_eq] at hs
      exact hs.2
    have htoken := h.token
    simp only [Token.leadsDefinition, Bool.or_eq_true, Bool.and_eq_true, decide_eq_true_eq]
      at htoken
    rw [IsPlain, Token.spelling, hgap, List.nil_append]
    obtain ((hs | hs) | ⟨-, hmark⟩) | hs := htoken
    · rw [not_isWord hs (by decide), hword hs, leads_word_iff (.inl rfl)]
      simp
    · rw [not_isWord hs (by decide), hword hs, leads_word_iff (.inr rfl)]
      simp
    · obtain ⟨r, hr⟩ := List.head?_eq_some_iff.1 hmark
      rw [hr]
      simp [definitionLeads]
    · -- No definition is told by the word that an asynchronous function starts with.
      rw [hs, hword hs]
      simp [definitionLeads]
  · refine iff_of_false ?_ fun hplain => hgap hplain.1
    rintro ⟨p, hp, hX⟩
    exact hgap (h.taken.leads hp hX).1

/-- A line at the margin is in no block. -/
theorem level_eq_zero (h : linesOf cs = before ++ l :: after) (hl : l.tokens = t :: ts)
    (hgap : t.gap = []) (ht : t.isTrivia = false) : l.level = 0 := by
  obtain ⟨stack, opened, ls, hpos, hplace⟩ := place_append (by simp) h
  simp only [Token.isTrivia, Bool.or_eq_false_iff, decide_eq_false_iff_not] at ht
  have hshown : l.isComment = false := by simp [Line.isComment, hl, ht.1.1]
  refine Nat.eq_zero_of_not_pos fun hlevel => ?_
  have hcolumn := column_pos hpos hplace hshown hlevel
  rw [Line.column, hl] at hcolumn
  exact gap_ne_nil ht.2 hcolumn hgap

/-- A logical line that starts like a definition is not further up than the first one. -/
theorem opening_le_of_line (h : linesOf cs = before ++ l :: after) (hp : p ∈ definitionLeads)
    (hX : cs = frontOf before l ++ X) (hpX : p <+: X) :
    ∃ o ∈ opening? cs, o.row ≤ rowBehind (frontOf before l) := by
  obtain ⟨Y, hY, htaken⟩ := exists_behind h
  obtain ⟨hsettled, -⟩ := settled_linesOf cs
  obtain ⟨t, ts, htokens⟩ := List.exists_cons_of_ne_nil (hsettled.each l (by simp [h])).1
  rw [htokens] at hY htaken
  obtain rfl : X = t.spelling ++ (spell ts ++ Y) := by
    rw [spell_cons, List.append_assoc] at hY
    exact List.append_cancel_left (hX.symm.trans hY)
  obtain ⟨hgap, hleads⟩ : t.gap = [] ∧ t.leadsDefinition = true := by
    cases (allTaken_append htaken).2 with
    | cons ht _ _ => exact ht.leads hp hpX
  have hshown : t.isTrivia = false := Token.shown_of_leads hleads
  have hhead : l.significant.head? = some t := by
    rw [Line.significant, htokens, List.filter_cons_of_pos (by simp [hshown])]
    rfl
  have htop : l.isTopDefinition = true := by
    rw [Line.isTopDefinition, level_eq_zero h htokens hgap hshown,
      l.opensDefinition_of_leads hhead hleads]
    rfl
  have hmem : l ∈ linesOf cs := by simp [h]
  obtain ⟨o, ho, hstands⟩ := exists_opening ⟨l, hmem, htop⟩
  have hfirst := hstands.first before l after h htop
  rw [startOf, htokens, List.takeWhile_cons_of_neg (by simp [hshown])] at hfirst
  rw [spell, List.flatMap_nil, List.append_nil] at hfirst
  exact ⟨o, ho, rowBehind_le hfirst⟩

theorem takeWhile_append_stop {ts us : List Token} (ht : t.isTrivia = false) :
    (ts ++ t :: us).takeWhile Token.isTrivia = ts.takeWhile Token.isTrivia := by
  rw [List.takeWhile_append]
  split
  next h =>
    rw [List.takeWhile_cons_of_neg (by simp [ht]), List.append_nil]
    exact ((List.takeWhile_prefix _).eq_of_length h).symm
  · rfl

/-- A header starts in front of its colon, and so in front of its body. -/
theorem startOf_isPrefix_bodyFront {block : List Line} {front : List Char}
    (h : front ∈ bodyFront? before l block) : startOf before l <+: front := by
  rw [bodyFront?] at h
  split at h
  next u hu =>
    obtain rfl := Option.some.inj h
    obtain ⟨a, r, hsplit⟩ : ∃ a r, splitAtTop (·.isMark ":") 0 0 l.tokens = (a, r) := ⟨_, _, rfl⟩
    cases r with
    | none => simp [Line.atColon, hsplit] at hu
    | some q =>
      obtain ⟨c, r⟩ := q
      have hjoin := splitAtTop_join (·.isMark ":") 0 0 l.tokens
      have hcolon : c.isMark ":" = true := splitAtTop_marked (congrArg Prod.snd hsplit)
      rw [hsplit] at hjoin
      have htrivia : l.tokens.takeWhile Token.isTrivia = a.takeWhile Token.isTrivia := by
        rw [← hjoin]
        exact takeWhile_append_stop (shown_of_mark hcolon)
      have hfront : l.atColon.1 = a ++ [c] := by rw [Line.atColon, hsplit]
      obtain ⟨more, hmore⟩ := List.takeWhile_prefix Token.isTrivia (l := a)
      rw [startOf, htrivia, hfront]
      nth_rewrite 2 [← hmore]
      simp only [spell_append, List.append_assoc, List.prefix_append_right_inj]
      exact List.prefix_append _ _
  next =>
    obtain ⟨m, -, rfl⟩ := Option.map_eq_some_iff.1 h
    exact startOf_isPrefix before l [] m

/-- The body of a definition outside of any block is not further up than the first one. -/
theorem opening_le_of_body (h : BodyRow cs l i) (hl : l.level = 0) :
    ∃ o ∈ opening? cs, o.row ≤ i := by
  obtain ⟨before, after, block, hlines, hheader, -, front, hfront, hle, -⟩ := h
  have htop : l.isTopDefinition = true := by
    simp [Line.isTopDefinition, Line.opensDefinition, hl, hheader]
  have hmem : l ∈ linesOf cs := by simp [hlines]
  obtain ⟨o, ho, hstands⟩ := exists_opening ⟨l, hmem, htop⟩
  have hstart : startOf before l <+: front := startOf_isPrefix_bodyFront hfront
  exact ⟨o, ho, (rowBehind_le ((hstands.first before l after hlines htop).trans hstart)).trans hle⟩

end
end Pipewright.Source
