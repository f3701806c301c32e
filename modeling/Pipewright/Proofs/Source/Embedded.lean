import Pipewright.Proofs.Source.Methods

/-! What the source of a method says when it is read again. -/
namespace Pipewright.Source
open Pipewright.Text

/-! Lines from their first token on -/

/-- Lines with nothing in front of the first token of the first line that is no joint. -/
def fromFirst : List Line → List Line
  | [] => []
  | l :: ls => ⟨[], Literal.skipJoints l.tokens, l.level⟩ :: ls

section
variable {depth : Nat} {dangling : Bool} {ts : List Token} {ls : List Line}

theorem spell_all (ls : List Line) : spell (ls.flatMap Line.all) = ls.flatMap Line.spelling := by
  rw [spell, List.flatMap_assoc]
  congr 1
  funext l
  exact spell_append l.lead l.tokens

theorem fromFirst_suffix (ls : List Line) :
    (fromFirst ls).flatMap Line.all <:+ ls.flatMap Line.all := by
  cases ls with
  | nil => exact List.suffix_rfl
  | cons l ls =>
    have hskip : Literal.skipJoints l.tokens <:+ l.tokens := List.dropWhile_suffix _
    obtain ⟨joints, hjoints⟩ := hskip
    refine ⟨l.lead ++ joints, ?_⟩
    rw [fromFirst, List.flatMap_cons, List.flatMap_cons, Line.all, Line.all, List.nil_append,
      ← List.append_assoc, List.append_assoc l.lead, hjoints]

/-- Joints in front of tokens do not matter for where a line ends. -/
theorem behind_skipJoints (ts : List Token) :
    (Holds depth dangling ts → Holds depth dangling (Literal.skipJoints ts)) ∧
      depthBehind depth (Literal.skipJoints ts) = depthBehind depth ts ∧
      danglesBehind dangling (Literal.skipJoints ts) = danglesBehind dangling ts := by
  induction ts with
  | nil => exact ⟨id, rfl, rfl⟩
  | cons t ts ih =>
    by_cases hj : t.kind = .joint
    · have htrivia : t.isTrivia = true := by simp [Token.isTrivia, hj]
      have hskip : Literal.skipJoints (t :: ts) = Literal.skipJoints ts :=
        List.dropWhile_cons_of_pos (by simpa using hj)
      have hdepth : depthBehind depth (t :: ts) = depthBehind depth ts :=
        congrArg (depthBehind · ts) (depthAfter_of_trivia htrivia depth)
      have hdangles : danglesBehind dangling (t :: ts) = danglesBehind dangling ts :=
        congrArg (danglesBehind · ts) (by rw [danglesAfter, if_pos htrivia])
      rw [hskip, hdepth, hdangles]
      refine ⟨fun h => ih.1 ?_, ih.2⟩
      rw [Holds, depthAfter_of_trivia htrivia, danglesAfter, if_pos htrivia] at h
      exact h.2
    · have hskip : Literal.skipJoints (t :: ts) = t :: ts :=
        List.dropWhile_cons_of_neg (by simpa using hj)
      rw [hskip]
      exact ⟨id, rfl, rfl⟩

theorem Settled.fromFirst (h : Settled ls)
    (hne : ∀ l ∈ ls.head?, Literal.skipJoints l.tokens ≠ []) : Settled (fromFirst ls) := by
  cases ls with
  | nil => exact h
  | cons l ls =>
    obtain ⟨hleads, heach, hchain⟩ := h
    rw [List.forall_mem_cons] at hleads heach
    obtain ⟨hholds, hdepth, hdangles⟩ := @behind_skipJoints 0 false l.tokens
    refine ⟨List.forall_mem_cons.2 ⟨by simp, hleads.2⟩,
      List.forall_mem_cons.2 ⟨⟨hne l rfl, hholds heach.1.2⟩, heach.2⟩, ?_⟩
    rw [List.isChain_cons] at hchain
    rw [Source.fromFirst, List.isChain_cons]
    refine ⟨fun m hm => ?_, hchain.2⟩
    have hf := hchain.1 m hm
    exact ⟨hdepth.trans hf.depth, hdangles.trans hf.dangling, hf.lead⟩

end

/-! The source of a definition -/

namespace Definition
variable {d : Definition}

/-- The parameters that the header lists. -/
def listed (d : Definition) : List Param := paramsOf false (paramPieces d.header.inside)

theorem listed_eq (d : Definition) : d.listed = listParams false d.header.inside := rfl

/-- Whether the first of the parameters is the object that a method belongs to. -/
def isMethod (d : Definition) : Bool := d.listed.head?.any fun p => p.name = "self"

theorem params_of_isMethod (h : d.isMethod = true) : d.signature.params = d.listed.tail := by
  have hparams : d.signature.params = if d.isMethod then d.listed.tail else d.listed := rfl
  rw [hparams, if_pos h]

/-- The lines of a definition, with other tokens behind the bracket that opens its parameters. -/
def relisted (d : Definition) (ts : List Token) : List Line :=
  d.decorators ++ [{ d.line with tokens := d.header.front ++ ts }]

/-- The tokens up to the bracket that opens the parameters, those in front of the lines included. -/
def before (d : Definition) : List Token :=
  d.decorators.flatMap Line.all ++ d.line.lead ++ d.header.front

theorem toList_source (h : d.isMethod = true) (hfront : Front d.header.front) {us rest : List Token}
    (hcut : cutFirst d.header.inside d.header.behind = spell us ++ spell rest) :
    d.signature.source.toList =
      dedent (trimEnd (spell ((fromFirst (d.relisted us)).flatMap Line.all) ++
        (spell rest ++ d.body.flatMap Line.spelling))) := by
  have hmethod : ((paramsOf false (paramPieces d.header.inside)).head?.any
      fun p => p.name = "self") = true := h
  obtain ⟨decorators, line, header, body⟩ := d
  dsimp only at hcut hfront ⊢
  have hskip := (hfront.skipJoints).2 us
  unfold signature signatureOf
  simp only [hmethod, if_true, String.toList_ofList, hcut]
  cases decorators with
  | nil =>
    simp only [List.isEmpty_nil, if_true, relisted, List.nil_append, fromFirst, hskip,
      List.flatMap_singleton, Line.all, spell_append, List.append_assoc]
  | cons k ks =>
    simp only [List.isEmpty_cons, relisted, fromFirst, List.cons_append, List.flatMap_cons,
      List.flatMap_append, List.flatMap_nil, List.append_nil, Line.all, spell_all, spell_append,
      List.append_assoc, Bool.false_eq_true, if_false]
    rfl

/-- A definition whose parameters are closed by a round bracket, with tokens up to there whose
extent can be told from the text right behind them, and with no item that is broken between lines
other than a literal. -/
structure Clear (d : Definition) : Prop where
  closed : ∃ c rest, d.header.behind = c :: rest ∧ c.isMark ")" = true
  decorators : ∀ l ∈ d.decorators, ∀ t ∈ l.tokens, t.Steady
  front : ∀ t ∈ d.header.front, t.Steady
  inside : ∀ t ∈ d.header.inside, t.Steady
  first : ∀ t ∈ (d.header.inside.dropWhile Literal.isSpacer).head?, t.kind ≠ .string
  plain : ∀ i ∈ items d.header.inside, Plain i

end Definition

section
variable {cs : List Char} {d : Definition} {us : List Token}

/-- The lines of a definition where they stand in a source. -/
theorem taken_of_mem (h : d ∈ definitionsOf [] (linesOf cs)) :
    Settled (d.decorators ++ [d.line]) ∧
      ∃ X, AllTaken ((d.decorators ++ [d.line]).flatMap Line.all) X ∧
        ∀ c ∈ d.body.flatMap Line.spelling, c ∈ X := by
  obtain ⟨⟨before, after, hlines, hbody⟩, -, -, -⟩ := stands_of_mem decorates_nil h
  rw [List.nil_append] at hlines
  obtain ⟨hsettled, rest, hlex⟩ := settled_linesOf cs
  have htaken : AllTaken (lex cs) (lexFrom [] cs).2 := allTaken_of_lexFrom (by simp) rfl
  have hshape : before ++ d.decorators ++ d.line :: after =
      before ++ ((d.decorators ++ [d.line]) ++ after) := by simp
  rw [hlines, hshape] at hsettled hlex
  refine ⟨hsettled.append_right.append_left, ?_⟩
  rw [hlex, List.flatMap_append, List.flatMap_append, List.append_assoc,
    List.append_assoc] at htaken
  refine ⟨_, (allTaken_append (allTaken_append htaken).2).1, fun c hc => ?_⟩
  rw [hbody] at hc
  obtain ⟨l, hl, hc⟩ := List.mem_flatMap.1 hc
  rw [spell_append, spell_all]
  exact List.mem_append_left _ (List.mem_append_left _
    (List.mem_flatMap.2 ⟨l, List.takeWhile_subset _ hl, hc⟩))

theorem depthBehind_open {ts : List Token} {p : Token} (hp : p.isMark "(" = true) (depth : Nat) :
    depthBehind depth (ts ++ [p]) ≠ 0 := by
  have hopens : p.opens = true := by simp [Token.opens, hp]
  rw [depthBehind, List.foldl_append, List.foldl_cons, List.foldl_nil, depthAfter, if_pos hopens]
  omega

theorem closes_of_mark {c : Token} (h : c.isMark ")" = true) : c.closes = true := by
  simp [Token.closes, h]

/-- The lines of a definition with other parameters. -/
theorem Settled.relisted (h : Settled (d.decorators ++ [d.line])) (hfront : Front d.header.front)
    {r inside : List Token} {c : Token} (hline : d.line.tokens = d.header.front ++ r)
    (hinside : Enclosed 0 inside) (hc : c.isMark ")" = true)
    (hus : Relays true (inside ++ [c]) us) : Settled (d.relisted us) := by
  have hholds := (h.each d.line (by simp)).2
  rw [hline, holds_append] at hholds
  obtain ⟨a, p, hlast, hp⟩ := hfront.last
  have hopen : depthBehind 0 d.header.front ≠ 0 := by
    rw [hlast]
    exact depthBehind_open hp 0
  refine h.replace_last (by simp [hlast]) (holds_append.2 ⟨hholds.1, hus.holds ?_⟩)
  rw [holds_append]
  refine ⟨(hinside.holds hopen).1, fun hk => ?_, trivial⟩
  have hshown := shown_of_mark hc
  rw [trivia_of_newline hk] at hshown
  cases hshown

theorem filter_skipJoints (ts : List Token) :
    ((Literal.skipJoints ts).filter fun t => !t.isTrivia) = ts.filter fun t => !t.isTrivia := by
  induction ts with
  | nil => rfl
  | cons t ts ih =>
    by_cases hj : t.kind = .joint
    · have htrivia : t.isTrivia = true := by simp [Token.isTrivia, hj]
      rw [Literal.skipJoints, List.dropWhile_cons_of_pos (by simpa using hj),
        List.filter_cons_of_neg (by simp [htrivia])]
      exact ih
    · rw [Literal.skipJoints, List.dropWhile_cons_of_neg (by simpa using hj)]

/-- A definition does not start with joints alone. -/
theorem relisted_shown (hdec : Decorates d.decorators) (hfront : Front d.header.front)
    (us : List Token) : ∀ l ∈ (d.relisted us).head?, Literal.skipJoints l.tokens ≠ [] := by
  intro l hl hnil
  have hnone := filter_skipJoints l.tokens
  rw [hnil, List.filter_nil] at hnone
  rw [Definition.relisted] at hl
  cases hd : d.decorators with
  | nil =>
    rw [hd, List.nil_append] at hl
    obtain rfl := Option.some.inj hl
    obtain ⟨t, ht, -⟩ := hfront.head us
    simp [← hnone] at ht
  | cons k ks =>
    rw [hd, List.cons_append] at hl
    obtain rfl := Option.some.inj hl
    have hcomment := hdec.head k (by rw [hd]; rfl)
    have hdecorator := (hdec.each k (by simp [hd])).resolve_left (by simp [hcomment])
    rw [isDecorator, Line.significant, ← hnone] at hdecorator
    cases hdecorator

/-- The lines of a definition from its first token on: the last of them has the header, and no
other one defines anything. -/
theorem fromFirst_relisted (hdec : Decorates d.decorators) (hfront : Front d.header.front)
    (us : List Token) : ∃ ls l front, fromFirst (d.relisted us) = ls ++ [l] ∧ Front front ∧
      l.tokens = front ++ us ∧
      ∀ k ∈ ls, ∀ t ∈ (k.tokens.filter fun t => !t.isTrivia).head?, t.kind ≠ .word := by
  obtain ⟨hskipped, hskip⟩ := hfront.skipJoints
  have heach := fun k hk => not_word_of_decorates (hdec.each k hk)
  rw [Definition.relisted]
  cases hd : d.decorators with
  | nil => exact ⟨[], _, _, rfl, hskipped, hskip us, by simp⟩
  | cons k ks =>
    rw [hd, List.forall_mem_cons] at heach
    refine ⟨⟨[], Literal.skipJoints k.tokens, k.level⟩ :: ks, _, d.header.front, rfl, hfront, rfl,
      List.forall_mem_cons.2 ⟨?_, heach.2⟩⟩
    rw [filter_skipJoints]
    exact heach.1

theorem tokens_linesOf (cs : List Char) :
    (linesOf cs).map Line.tokens = (splitLines 0 none [] [] (lex cs)).map Line.tokens := by
  have hmap := congrArg (List.map Line.tokens)
    (unplaced_place [] false (splitLines 0 none [] [] (lex cs)))
  rwa [List.map_map, List.map_map] at hmap

/-- What is read from lines that define one function, when they are laid out anew. -/
theorem Settled.reread {ls : List Line} {l : Line} {front inside vs more : List Token} {c : Token}
    (h : Settled (ls ++ [l])) (hl : l.tokens = front ++ us) (hfront : Front front)
    (hls : ∀ k ∈ ls, ∀ t ∈ (k.tokens.filter fun t => !t.isTrivia).head?, t.kind ≠ .word)
    (hus : Relays true (inside ++ [c]) us) (hinside : Enclosed 0 inside) (hc : c.closes = true)
    (hvs : Relays true ((ls ++ [l]).flatMap Line.all) vs) (hlex : lex cs = vs ++ more) :
    ∃ e ∈ (definitionsOf [] (linesOf cs)).head?, Relays true inside e.header.inside := by
  obtain ⟨ls', lead', us', more', rest, hsplit, hls', hus'⟩ := @Settled.relaid [] vs l ls h hvs more
  rw [hl] at hus'
  obtain ⟨front', us', rfl, hfront', hus'⟩ := hus'.append_left
  obtain ⟨inside', us', rfl, hinside', hus'⟩ := (hus.trans hus').append_left
  obtain ⟨c', us', rfl, hc', hus'⟩ := hus'.cons_left
  rw [hus'.eq_nil] at hsplit
  obtain ⟨e, he, -, hread, -⟩ := (hfront.relays hfront').header? (inside' ++ c' :: more')
  rw [bracketed_of_enclosed (hinside'.enclosed hinside) (hc'.closes.trans hc)] at hread
  -- The lines in front of the header define nothing.
  have hnone : (ls'.map Line.tokens).filterMap header? = [] := by
    rw [List.filterMap_eq_nil_iff, List.forall_mem_map]
    intro k' hk'
    obtain ⟨k, hk, hrelays⟩ := hls' k' hk'
    refine header?_eq_none fun u hu => ?_
    obtain ⟨t, ht, hsame⟩ := hrelays.head?_shown u hu
    rw [hsame.kind]
    exact hls k hk t ht
  have hheaders := header_definitionsOf [] (linesOf cs)
  have hshape : front' ++ (inside' ++ [c']) ++ more' = front' ++ (inside' ++ c' :: more') := by simp
  rw [tokens_linesOf, hlex, hsplit, List.map_append, List.filterMap_append, hnone, List.map_cons,
    List.nil_append, hshape, List.filterMap_cons_some he] at hheaders
  cases hdefs : definitionsOf [] (linesOf cs) with
  | nil => simp [hdefs] at hheaders
  | cons f fs =>
    rw [hdefs, List.map_cons] at hheaders
    refine ⟨f, rfl, ?_⟩
    rw [(List.cons.inj hheaders).1, hread]
    exact hinside'

theorem Definition.relisted_all (d : Definition) (us : List Token) :
    (d.relisted us).flatMap Line.all = d.before ++ us := by
  rw [relisted, List.flatMap_append, List.flatMap_singleton, Line.all, before]
  simp only [List.append_assoc]

theorem Definition.lines_all {r : List Token} (hline : d.line.tokens = d.header.front ++ r) :
    (d.decorators ++ [d.line]).flatMap Line.all = d.before ++ r := by
  rw [List.flatMap_append, List.flatMap_singleton, Line.all, hline, before]
  simp only [List.append_assoc]

theorem Definition.getLast?_before (hfront : Front d.header.front) :
    ∀ t ∈ d.before.getLast?, t.isMark "(" = true := by
  obtain ⟨a, p, hopen, hp⟩ := hfront.last
  intro t ht
  rw [before, hopen, ← List.append_assoc, List.getLast?_concat, Option.mem_some_iff] at ht
  exact ht ▸ hp

theorem mem_of_mem_cutItems {t : Token} {inside : List Token} (h : t ∈ cutItems inside) :
    t ∈ inside := by
  rw [cutItems] at h
  cases hd : inside.dropWhile Literal.isSpacer with
  | nil => rwa [hd] at h
  | cons u us =>
    rw [hd] at h
    obtain h | h := List.mem_append.1 h
    · exact List.takeWhile_subset _ h
    · have hu := (behindItem_suffix u us).subset ((nextItems_suffix _).subset h)
      rw [← hd] at hu
      exact List.dropWhile_subset _ hu

theorem Definition.exists_first (h : d.isMethod = true) :
    ∃ t ts, d.header.inside.dropWhile Literal.isSpacer = t :: ts := by
  cases hd : d.header.inside.dropWhile Literal.isSpacer with
  | cons t ts => exact ⟨t, ts, rfl⟩
  | nil =>
    have hall : ∀ t ∈ d.header.inside, t.isTrivia = true := fun t ht =>
      t.trivia_of_spacer (List.dropWhile_eq_nil_iff.1 hd t ht)
    have hitems := @items_append [] _ hall
    rw [List.append_nil] at hitems
    rw [isMethod, listed_eq, listParams_items, hitems] at h
    cases h

theorem Definition.Clear.enclosed (h : d.Clear) (hheader : header? d.line.tokens = some d.header) :
    Enclosed 0 d.header.inside := by
  obtain ⟨-, r, -, hin, hbehind⟩ := header?_some hheader
  obtain ⟨c, rest, hclosed, -⟩ := h.closed
  rw [hin]
  exact (enclosed_bracketed (hbehind.symm.trans hclosed)).1

/-- The header of a clear definition: its front, its parameters, and the bracket behind them. -/
theorem Definition.Clear.header_tokens (h : d.Clear)
    (hheader : header? d.line.tokens = some d.header) :
    ∃ c rest, c.isMark ")" = true ∧ d.header.behind = c :: rest ∧
      d.line.tokens = d.header.front ++ (d.header.inside ++ [c] ++ rest) := by
  obtain ⟨-, r, hline, hin, hbehind⟩ := header?_some hheader
  obtain ⟨c, rest, hclosed, hc⟩ := h.closed
  have hr : d.header.inside ++ d.header.behind = r := by rw [hin, hbehind, bracketed_join]
  refine ⟨c, rest, hc, hclosed, ?_⟩
  rw [hline, ← hr, hclosed, List.append_assoc, List.singleton_append]

theorem Definition.Clear.before_steady (h : d.Clear)
    (hsettled : Settled (d.decorators ++ [d.line])) : ∀ t ∈ d.before, t.Steady := by
  have hleads : ∀ l ∈ d.decorators ++ [d.line], ∀ t ∈ l.lead, t.Steady := fun l hl t ht => by
    have hk := hsettled.leads l hl t ht
    exact t.steady_of_kind (by rw [hk]; decide) (by rw [hk]; decide)
  refine List.forall_mem_append.2 ⟨List.forall_mem_append.2 ⟨fun t ht => ?_, ?_⟩, h.front⟩
  · obtain ⟨l, hl, ht⟩ := List.mem_flatMap.1 ht
    exact (List.mem_append.1 ht).elim (hleads l (by simp [hl]) t) (h.decorators l hl t)
  · exact hleads d.line (by simp)

theorem Definition.Clear.relisted_steady (h : d.Clear)
    (hsettled : Settled (d.decorators ++ [d.line])) {c : Token} (hc : c.isMark ")" = true)
    (hus : Relays true (cutItems d.header.inside ++ [c]) us) :
    ∀ t ∈ (d.relisted us).flatMap Line.all, t.Steady := by
  rw [d.relisted_all, List.forall_mem_append]
  refine ⟨h.before_steady hsettled, hus.steady (List.forall_mem_append.2 ⟨fun t ht => ?_, ?_⟩)⟩
  · exact h.inside t (mem_of_mem_cutItems ht)
  · simpa using steady_of_mark hc

/-- The tokens of a definition from whose parameters the first is cut, in its source before the
margin is taken off. -/
theorem Definition.Clear.taken (h : d.Clear) (hd : d ∈ definitionsOf [] (linesOf cs))
    (hmethod : d.isMethod = true) : ∃ c us rest, c.isMark ")" = true ∧
      cutFirst d.header.inside d.header.behind = spell us ++ spell rest ∧
      AllTaken ((fromFirst (d.relisted us)).flatMap Line.all)
        (trimEnd (spell rest ++ d.body.flatMap Line.spelling)) ∧
      (∀ t ∈ (fromFirst (d.relisted us)).flatMap Line.all, t.Steady) ∧
      Relays true (cutItems d.header.inside ++ [c]) us ∧
      Settled (fromFirst (d.relisted us)) := by
  have hstands := stands_of_mem decorates_nil hd
  have hfront : Front d.header.front := (header?_some hstands.header).1
  obtain ⟨c, rest, hc, hclosed, hline⟩ := h.header_tokens hstands.header
  obtain ⟨hsettled, X, htaken, hbody⟩ := taken_of_mem hd
  rw [Definition.lines_all hline] at htaken
  obtain ⟨hbefore, hlist⟩ := allTaken_append htaken
  -- What is left of the text behind the parameters stood behind them before.
  have hsub : ∀ x ∈ trimEnd (spell rest ++ d.body.flatMap Line.spelling), x ∈ spell rest ++ X :=
    fun x hx => (List.mem_append.1 ((trimEnd_isPrefix _).subset hx)).elim
      (List.mem_append_left _) fun hx => List.mem_append_right _ (hbody x hx)
  obtain ⟨t, ts, hfirst⟩ := Definition.exists_first hmethod
  obtain ⟨us, hcut, hus, hrelays, hchars⟩ := (allTaken_append hlist).1.cut h.inside hc hfirst
    (h.first t (by rw [hfirst]; rfl)) (hsub '}') rest
  have hbrace : '}' ∈ spell us ++ trimEnd (spell rest ++ d.body.flatMap Line.spelling) →
      '}' ∈ spell (d.header.inside ++ [c] ++ rest) ++ X := by
    rw [spell_append _ rest, List.append_assoc]
    intro hm
    exact (List.mem_append.1 hm).elim (fun hm => List.mem_append_left _ (hchars _ hm))
      fun hm => List.mem_append_right _ (hsub _ hm)
  have hlast := Definition.getLast?_before hfront
  have hall := (hbefore.congr (h.before_steady hsettled)
    (fun t ht => isBarrier_of_open (hlast t ht)) hbrace).append hus
    fun t ht => not_joint_of_mark (hlast t ht)
  rw [← d.relisted_all] at hall
  have hsteady := h.relisted_steady hsettled hc hrelays
  obtain ⟨front, hsuffix⟩ := fromFirst_suffix (d.relisted us)
  rw [← hsuffix] at hall hsteady
  refine ⟨c, us, rest, hc, hclosed ▸ hcut, (allTaken_append hall).2,
    fun t ht => hsteady t (List.mem_append_right _ ht), hrelays, ?_⟩
  exact (hsettled.relisted hfront hline (h.enclosed hstands.header).cutItems hc hrelays).fromFirst
    (relisted_shown hstands.decorates hfront us)

theorem text_of_mark {c : Token} {m : Char} (h : c.isMark (String.singleton m) = true) :
    c.text = [m] := by
  rw [Token.isMark, Bool.and_eq_true, decide_eq_true_eq, decide_eq_true_eq] at h
  simpa using h.2

/-- Tokens up to a bracket are read again where the blanks at the end of the text and its margin
are taken off. -/
theorem AllTaken.lex_dedent {ts : List Token} {c : Token} {X : List Char}
    (h : AllTaken (ts ++ [c]) (trimEnd X)) (hsteady : ∀ t ∈ ts ++ [c], t.Steady)
    (hc : c.isMark ")" = true) : ∃ vs more,
      lex (dedent (trimEnd (spell (ts ++ [c]) ++ X))) = vs ++ more ∧ Relays true (ts ++ [c]) vs := by
  have hspell : spell (ts ++ [c]) = spell ts ++ c.gap ++ [')'] := by
    have htext : c.text = [')'] := text_of_mark (m := ')') hc
    rw [spell_append, spell_cons, Token.spelling, htext]
    simp [spell]
  have htrim : trimEnd (spell (ts ++ [c]) ++ X) = spell (ts ++ [c]) ++ trimEnd X := by
    rw [hspell, List.append_assoc, List.append_assoc (spell ts ++ c.gap)]
    exact trimEnd_shown (by decide) _ _
  have hlast : ∀ t ∈ (ts ++ [c]).getLast?, t.isTrivia = false := by
    simpa using shown_of_mark hc
  have hrelaid := @relaid_dedent (trimEnd (spell (ts ++ [c]) ++ X)) fun x hx hn => by
    have hblank := getLast?_trimEnd _ x hx
    rw [hn] at hblank
    exact absurd hblank (by decide)
  rw [htrim] at hrelaid ⊢
  obtain ⟨vs, Z, hY, hvs, hkept⟩ := h.relaid hsteady hlast hrelaid
  have hlex := lexFrom_of_allTaken hvs fun t ht hk => by
    have hshown := hkept.getLast? hlast t ht
    simp [Token.isTrivia, hk] at hshown
  rw [← hY] at hlex
  exact ⟨vs, _, congrArg Prod.fst hlex, hkept⟩

/-- The definition that the source of a method holds: its parameters are the tokens that are left
of the method's ones. -/
theorem Definition.Clear.reread (h : d.Clear) (hd : d ∈ definitionsOf [] (linesOf cs))
    (hmethod : d.isMethod = true) :
    ∃ e ∈ (definitionsOf [] (linesOf d.signature.source.toList)).head?,
      Relays true (cutItems d.header.inside) e.header.inside := by
  have hstands := stands_of_mem decorates_nil hd
  obtain ⟨hfront, -⟩ := header?_some hstands.header
  obtain ⟨c, us, rest, hc, hcut, htaken, hsteady, hrelays, hsettled⟩ := h.taken hd hmethod
  rw [d.toList_source hmethod hfront hcut]
  obtain ⟨ls, l, front, hshape, hfront', hl, hls⟩ := fromFirst_relisted hstands.decorates hfront us
  obtain ⟨us', vs, hus, -, hvs⟩ := hrelays.append_left
  obtain ⟨c', vs, rfl, hc', hvs⟩ := hvs.cons_left
  rw [hvs.eq_nil] at hus
  -- The bracket that closes the parameters is the last of the tokens.
  obtain ⟨ts, hts⟩ : ∃ ts, (fromFirst (d.relisted us)).flatMap Line.all = ts ++ [c'] := by
    rw [hshape, List.flatMap_append, List.flatMap_singleton, Line.all, hl, hus]
    exact ⟨ls.flatMap Line.all ++ (l.lead ++ (front ++ us')), by simp⟩
  rw [hts] at htaken hsteady ⊢
  obtain ⟨vs, more, hlex, hkept⟩ := htaken.lex_dedent hsteady ((hc'.isMark ")").trans hc)
  rw [hshape] at hsettled hts
  exact hsettled.reread hl hfront' hls hrelays (h.enclosed hstands.header).cutItems
    (closes_of_mark hc) (hts ▸ hkept) hlex

end

/-! The parameters that are read again -/

theorem mem_of_mem_later {ts : List Token} {i : List Token} (h : i ∈ laterItems ts) :
    i ∈ items ts := by
  rw [items_eq]
  exact List.mem_append_right _ h

theorem mem_items_of_cut {inside : List Token} {i : List Token} (h : i ∈ items (cutItems inside)) :
    i ∈ items inside := by
  cases hd : inside.dropWhile Literal.isSpacer with
  | nil => rwa [cutItems, hd] at h
  | cons t ts =>
    rw [items_inside hd]
    rw [items_cutItems hd] at h
    by_cases hjoint : t.kind = .joint
    · rw [behindItem, if_pos hjoint] at h
      rwa [items_trivia (by simp [Token.isTrivia, hjoint])]
    · rw [items_behindItem hjoint] at h
      exact mem_of_mem_later h

/-- The source of a method can be read again. It lists the parameters of the method, and starts the
list as parameters do, just if the list of the method is one that cuts well. -/
theorem reread_iff {source : String} {d : Definition}
    (hd : d ∈ definitionsOf [] (linesOf source.toList)) (hmethod : d.isMethod = true)
    (hexposed : ∀ p ∈ d.listed.head?, p.isExposed = true) (hclear : d.Clear) :
    ∃ e ∈ (definitionsOf [] (linesOf d.signature.source.toList)).head?,
      (Starts e.header.inside ∧ e.listed = d.signature.params ↔ CutsWell d.header.inside) := by
  obtain ⟨e, he, hrelays⟩ := hclear.reread hd hmethod
  obtain ⟨p, hp⟩ : ∃ p, p ∈ d.listed.head? := by
    cases hl : d.listed.head? with
    | none => simp [Definition.isMethod, hl] at hmethod
    | some p => exact ⟨p, rfl⟩
  have hlisted : e.listed = listParams false (cutItems d.header.inside) :=
    hrelays.listParams (fun i hi => hclear.plain i (mem_items_of_cut hi)) false
  refine ⟨e, he, ?_⟩
  rw [hrelays.starts_iff, hlisted, Definition.params_of_isMethod hmethod]
  exact cutItems_iff hp (hexposed p hp)

/-- A method whose only parameter has a comma behind it. -/
def trailingSource : String := "class Node:\n    def run(self,):\n        return 1\n"

theorem method_trailingSource : ∃ d ∈ definitionsOf [] (linesOf trailingSource.toList),
    d.isMethod = true ∧ (∀ p ∈ d.listed.head?, p.isExposed = true) ∧ d.Clear ∧
      ¬CutsWell d.header.inside := by
  have htext : trailingSource.toList = _ := String.toList_ofList
  simp only [linesOf, lex_eq_lexWithin, htext]
  refine ⟨_, List.mem_singleton_self _, rfl, ?_, ⟨⟨_, _, rfl, rfl⟩, ?_, ?_, ?_, ?_, ?_⟩, ?_⟩
  · rintro p hp
    cases hp
    rfl
  · exact List.forall_mem_nil _
  · exact List.forall_mem_cons.2 ⟨Token.steady_of_kind (by decide) (by decide),
      List.forall_mem_cons.2 ⟨Token.steady_of_kind (by decide) (by decide),
        List.forall_mem_singleton.2 (Token.steady_of_kind (by decide) (by decide))⟩⟩
  · exact List.forall_mem_cons.2 ⟨Token.steady_of_kind (by decide) (by decide),
      List.forall_mem_singleton.2 (Token.steady_of_kind (by decide) (by decide))⟩
  · rintro t ht
    cases ht
    decide
  · exact List.forall_mem_singleton.2 ⟨⟨List.forall_mem_singleton.2 rfl, List.forall_mem_nil _⟩,
      (fun v h => by cases h), (fun v h => by cases h)⟩
  · rintro ⟨t, ts, he, -, h⟩
    cases he
    exact (h _ _ rfl).2.1 rfl

theorem reread_iff_of_trailingComma : ∃ d ∈ definitionsOf [] (linesOf trailingSource.toList),
    d.isMethod = true ∧ (∀ p ∈ d.listed.head?, p.isExposed = true) ∧ d.Clear ∧
      ∃ e ∈ (definitionsOf [] (linesOf d.signature.source.toList)).head?,
        ¬(Starts e.header.inside ∧ e.listed = d.signature.params) := by
  obtain ⟨d, hd, hmethod, hexposed, hclear, hcut⟩ := method_trailingSource
  obtain ⟨e, he, hiff⟩ := reread_iff hd hmethod hexposed hclear
  exact ⟨d, hd, hmethod, hexposed, hclear, e, he, fun h => hcut (hiff.1 h)⟩

end Pipewright.Source
