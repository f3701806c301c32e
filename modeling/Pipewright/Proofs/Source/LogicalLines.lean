import Pipewright.Proofs.Source.Definitions
import Pipewright.Proofs.Source.Relays

/-! Where logical lines end, and the lines of a text that is laid out anew. -/
namespace Pipewright.Source

/-! Tokens on one line -/

/-- Whether the last token with syntax, up to a token and with it, leaves a statement open. -/
def danglesAfter (dangling : Bool) (t : Token) : Bool := if t.isTrivia then dangling else t.dangles

/-- The bracket depth behind tokens. -/
def depthBehind (depth : Nat) (ts : List Token) : Nat := ts.foldl depthAfter depth

/-- Whether a statement is left open behind tokens. -/
def danglesBehind (dangling : Bool) (ts : List Token) : Bool := ts.foldl danglesAfter dangling

/-- Whether no newline among tokens ends the logical line they stand on. -/
def Holds (depth : Nat) (dangling : Bool) : List Token → Prop
  | [] => True
  | t :: ts => (t.kind = .newline → depth ≠ 0 ∨ dangling = true) ∧
      Holds (depthAfter depth t) (danglesAfter dangling t) ts

section
variable {start dangling : Bool} {depth : Nat} {t u : Token} {ts us : List Token}

theorem trivia_of_newline (h : t.kind = .newline) : t.isTrivia = true := by
  simp [Token.isTrivia, h]

theorem holds_append : Holds depth dangling (ts ++ us) ↔
    Holds depth dangling ts ∧ Holds (depthBehind depth ts) (danglesBehind dangling ts) us := by
  induction ts generalizing depth dangling with
  | nil => simp [Holds, depthBehind, danglesBehind]
  | cons t ts ih =>
    rw [List.cons_append, Holds, Holds, ih, and_assoc]
    rfl

theorem Same.dangles (h : Same start t u) (ht : t.isTrivia = false) : u.dangles = t.dangles := by
  rw [Token.dangles, Token.dangles, h.kind, h.text ht]

theorem Same.danglesAfter (h : Same start t u) :
    danglesAfter dangling u = danglesAfter dangling t := by
  rw [Source.danglesAfter, Source.danglesAfter, h.isTrivia]
  cases ht : t.isTrivia with
  | true => rfl
  | false => rw [h.dangles ht]

theorem Relays.holds (h : Relays start ts us) (hts : Holds depth dangling ts) :
    Holds depth dangling us := by
  induction h generalizing depth dangling with
  | nil => exact hts
  | cons ht _ ih =>
    rw [Holds] at hts ⊢
    rw [ht.kind, ht.depthAfter, ht.danglesAfter]
    exact ⟨hts.1, ih hts.2⟩

theorem Relays.depthBehind (h : Relays start ts us) :
    depthBehind depth us = depthBehind depth ts := by
  induction h generalizing depth with
  | nil => rfl
  | cons ht _ ih => exact (congrArg (Source.depthBehind · _) (ht.depthAfter depth)).trans ih

theorem Relays.danglesBehind (h : Relays start ts us) :
    danglesBehind dangling us = danglesBehind dangling ts := by
  induction h generalizing dangling with
  | nil => rfl
  | cons ht _ ih => exact (congrArg (Source.danglesBehind · _) ht.danglesAfter).trans ih

end

/-! Lines one after the other -/

/-- The tokens that a line holds, and those in front of it. -/
def Line.all (l : Line) : List Token := l.lead ++ l.tokens

/-- Whether a line ends before the newlines in front of the next one. -/
structure Follows (l m : Line) : Prop where
  depth : depthBehind 0 l.tokens = 0
  dangling : danglesBehind false l.tokens = false
  lead : m.lead ≠ []

/-- Lines as they stand one after the other in a source. -/
structure Settled (ls : List Line) : Prop where
  leads : ∀ l ∈ ls, ∀ t ∈ l.lead, t.kind = .newline
  each : ∀ l ∈ ls, l.tokens ≠ [] ∧ Holds 0 false l.tokens
  chain : ls.IsChain Follows

section
variable {depth : Nat} {last : Option Token} {t : Token} {lead line ts us : List Token}
  {l : Line} {ls ms : List Line}

/-- The last token with syntax behind a token. -/
def lastAfter (last : Option Token) (t : Token) : Option Token :=
  if t.isTrivia then last else some t

theorem any_lastAfter (last : Option Token) (t : Token) :
    (lastAfter last t).any Token.dangles = danglesAfter (last.any Token.dangles) t := by
  rw [lastAfter, danglesAfter]
  split <;> rfl

theorem splitLines_lead (ht : t.kind = .newline) :
    splitLines depth last lead [] (t :: ts) = splitLines 0 none (lead ++ [t]) [] ts := by
  rw [splitLines, if_pos ht, List.isEmpty_nil, if_pos rfl]

theorem splitLines_break (ht : t.kind = .newline) (hline : line ≠ [])
    (hlast : last.any Token.dangles = false) :
    splitLines 0 last lead line (t :: ts) = ⟨lead, line, 0⟩ :: splitLines 0 none [t] [] ts := by
  rw [splitLines, if_pos ht, if_neg (by simpa using hline), if_pos (by simp [hlast])]

theorem splitLines_step (h : t.kind = .newline →
    line ≠ [] ∧ (depth ≠ 0 ∨ last.any Token.dangles = true)) :
    splitLines depth last lead line (t :: ts) =
      splitLines (depthAfter depth t) (lastAfter last t) lead (line ++ [t]) ts := by
  rw [splitLines]
  by_cases ht : t.kind = .newline
  · obtain ⟨hline, hopen⟩ := h ht
    have hopen' : ¬(decide (depth = 0) && !last.any Token.dangles) = true := by
      obtain hd | hl := hopen
      · simp [hd]
      · simp [hl]
    rw [if_pos ht, if_neg (by simpa using hline), if_neg hopen',
      depthAfter_of_trivia (trivia_of_newline ht), lastAfter, if_pos (trivia_of_newline ht)]
  · rw [if_neg ht]
    rfl

/-- Tokens among which no newline ends a line go to the line. -/
theorem splitLines_holds (h : Holds depth (last.any Token.dangles) ts)
    (hline : line = [] → depth = 0 ∧ last.any Token.dangles = false) :
    ∃ last', last'.any Token.dangles = danglesBehind (last.any Token.dangles) ts ∧
      splitLines depth last lead line (ts ++ us) =
        splitLines (depthBehind depth ts) last' lead (line ++ ts) us := by
  induction ts generalizing depth last line with
  | nil => exact ⟨last, rfl, by rw [List.append_nil]; rfl⟩
  | cons t ts ih =>
    rw [Holds, ← any_lastAfter] at h
    have hstep : t.kind = .newline → line ≠ [] ∧ (depth ≠ 0 ∨ last.any Token.dangles = true) := by
      refine fun ht => ⟨fun hnil => ?_, h.1 ht⟩
      obtain ⟨hd, hl⟩ := hline hnil
      simpa [hd, hl] using h.1 ht
    obtain ⟨last', hlast', hsplit⟩ := @ih _ _ (line ++ [t]) h.2 (by simp)
    refine ⟨last', hlast'.trans (by rw [any_lastAfter]; rfl), ?_⟩
    rw [List.cons_append, splitLines_step hstep, hsplit, List.append_assoc]
    rfl

theorem splitLines_newlines (h : ∀ t ∈ ts, t.kind = .newline) :
    splitLines 0 none lead [] (ts ++ us) = splitLines 0 none (lead ++ ts) [] us := by
  induction ts generalizing lead with
  | nil => rw [List.append_nil]; rfl
  | cons t ts ih =>
    rw [List.forall_mem_cons] at h
    rw [List.cons_append, splitLines_lead h.1, ih h.2, List.append_assoc]
    rfl

/-- A line that has been begun is the first one. -/
theorem splitLines_begun (hline : line ≠ []) :
    ∃ more ls, splitLines depth last lead line ts = ⟨lead, line ++ more, 0⟩ :: ls := by
  induction ts generalizing depth last line with
  | nil => exact ⟨[], [], by rw [splitLines, if_neg (by simpa using hline), List.append_nil]⟩
  | cons t ts ih =>
    by_cases h : t.kind = .newline → line ≠ [] ∧ (depth ≠ 0 ∨ last.any Token.dangles = true)
    · obtain ⟨more, ls, hsplit⟩ := @ih (depthAfter depth t) (lastAfter last t) (line ++ [t])
        (by simp)
      exact ⟨t :: more, ls, by rw [splitLines_step h, hsplit]; simp⟩
    · simp only [Classical.not_imp, hline, ne_eq, not_false_eq_true, true_and, not_or, not_not,
        Bool.not_eq_true] at h
      obtain ⟨ht, rfl, hlast⟩ := h
      exact ⟨[], _, by rw [splitLines_break ht hline hlast, List.append_nil]⟩

/-- A newline behind tokens that hold no line open ends their line. -/
theorem splitLines_ended {gap : List Token} (hgap : ∀ t ∈ gap, t.kind = .newline)
    (hline : line ≠ []) (hholds : Holds 0 false line) (hdepth : depthBehind 0 line = 0)
    (hdangling : danglesBehind false line = false) (ht : t.kind = .newline) :
    splitLines 0 none lead [] (gap ++ (line ++ t :: ts)) =
      ⟨lead ++ gap, line, 0⟩ :: splitLines 0 none [] [] (t :: ts) := by
  obtain ⟨last, hlast, hsplit⟩ := @splitLines_holds 0 none (lead ++ gap) [] line (t :: ts) hholds
    (by simp)
  rw [splitLines_newlines hgap, hsplit, hdepth, List.nil_append,
    splitLines_break ht hline (hlast.trans hdangling), splitLines_lead ht]
  rfl

/-- Tokens that begin a line are on the first one, whatever follows. -/
theorem splitLines_unended {gap : List Token} (hgap : ∀ t ∈ gap, t.kind = .newline)
    (hline : line ≠ []) (hholds : Holds 0 false line) (ts : List Token) : ∃ more ls,
      splitLines 0 none lead [] (gap ++ (line ++ ts)) = ⟨lead ++ gap, line ++ more, 0⟩ :: ls := by
  obtain ⟨last, -, hsplit⟩ := @splitLines_holds 0 none (lead ++ gap) [] line ts hholds (by simp)
  rw [splitLines_newlines hgap, hsplit]
  exact splitLines_begun hline

/-- A line that nothing holds open may stand in front of lines that have newlines in front. -/
theorem Settled.cons (h : Settled ls) {level : Nat} (hlead : ∀ t ∈ lead, t.kind = .newline)
    (hne : line ≠ []) (hline : Holds 0 false line) (hdepth : depthBehind 0 line = 0)
    (hdangling : danglesBehind false line = false) (hhead : ∀ m ∈ ls.head?, m.lead ≠ []) :
    Settled (⟨lead, line, level⟩ :: ls) where
  leads := List.forall_mem_cons.2 ⟨hlead, h.leads⟩
  each := List.forall_mem_cons.2 ⟨⟨hne, hline⟩, h.each⟩
  chain := List.IsChain.cons h.chain fun m hm => ⟨hdepth, hdangling, hhead m hm⟩

/-- The lines of tokens, given the ones of a line that has been begun. -/
theorem settled_splitLines (hlead : ∀ t ∈ lead, t.kind = .newline) (hline : Holds 0 false line)
    (hdepth : depthBehind 0 line = depth)
    (hlast : danglesBehind false line = last.any Token.dangles) :
    Settled (splitLines depth last lead line ts) ∧
      (lead ≠ [] → ∀ l ∈ (splitLines depth last lead line ts).head?, l.lead ≠ []) ∧
      ∃ rest, lead ++ line ++ ts =
        (splitLines depth last lead line ts).flatMap Line.all ++ rest := by
  induction ts generalizing depth last lead line with
  | nil =>
    rw [splitLines]
    split
    · exact ⟨⟨by simp, by simp, .nil⟩, by simp, lead ++ line ++ [], rfl⟩
    · rename_i hne
      refine ⟨⟨by simpa using hlead, ?_, .singleton _⟩, by simp, [], by simp [Line.all]⟩
      simpa using ⟨by simpa using hne, hline⟩
  | cons t ts ih =>
    by_cases h : t.kind = .newline → line ≠ [] ∧ (depth ≠ 0 ∨ last.any Token.dangles = true)
    · rw [splitLines_step h]
      have hstep : Holds 0 false (line ++ [t]) := by
        rw [holds_append, hdepth, hlast]
        exact ⟨hline, fun ht => (h ht).2, trivial⟩
      have happend := @ih (depthAfter depth t) (lastAfter last t) lead (line ++ [t]) hlead hstep
        (by rw [depthBehind, List.foldl_append]; exact congrArg (depthAfter · t) hdepth)
        (by rw [any_lastAfter, ← hlast, danglesBehind, List.foldl_append]; rfl)
      simpa using happend
    · simp only [Classical.not_imp] at h
      obtain ⟨ht, hend⟩ := h
      by_cases hnil : line = []
      · subst hnil
        rw [splitLines_lead ht]
        have happend := @ih 0 none (lead ++ [t]) []
          (List.forall_mem_append.2 ⟨hlead, by simpa using ht⟩) trivial rfl rfl
        refine ⟨happend.1, fun _ => happend.2.1 (by simp), ?_⟩
        simpa using happend.2.2
      · simp only [hnil, ne_eq, not_false_eq_true, true_and, not_or, not_not,
          Bool.not_eq_true] at hend
        obtain ⟨rfl, hlast'⟩ := hend
        rw [splitLines_break ht hnil hlast']
        obtain ⟨hsettled, hhead, rest, hrest⟩ := @ih 0 none [t] [] (by simpa using ht) trivial
          rfl rfl
        refine ⟨hsettled.cons hlead hnil hline hdepth (hlast.trans hlast') (hhead (by simp)),
          by simp, rest, ?_⟩
        simp only [List.append_nil, List.singleton_append] at hrest
        rw [hrest, List.flatMap_cons, Line.all, List.append_assoc _ _ rest]

/-- A line without its level. -/
def Line.unplaced (l : Line) : Line := { l with level := 0 }

theorem unplaced_place (stack : List Nat) (opened : Bool) (ls : List Line) :
    (place stack opened ls).map Line.unplaced = ls.map Line.unplaced := by
  induction ls generalizing stack opened with
  | nil => rfl
  | cons l ls ih =>
    rw [place, List.map_cons, List.map_cons, ih]
    rfl

theorem settled_unplaced : Settled (ls.map Line.unplaced) ↔ Settled ls := by
  refine ⟨fun h => ⟨?_, ?_, ?_⟩, fun h => ⟨?_, ?_, ?_⟩⟩
  · exact List.forall_mem_map.1 h.leads
  · exact List.forall_mem_map.1 h.each
  · exact ((List.isChain_map _).1 h.chain).imp fun _ _ hf => ⟨hf.depth, hf.dangling, hf.lead⟩
  · exact List.forall_mem_map.2 h.leads
  · exact List.forall_mem_map.2 h.each
  · exact (List.isChain_map _).2 (h.chain.imp fun _ _ hf => ⟨hf.depth, hf.dangling, hf.lead⟩)

/-- The lines of a source. Newlines at the end of it are on none of them. -/
theorem settled_linesOf (cs : List Char) :
    Settled (linesOf cs) ∧ ∃ rest, lex cs = (linesOf cs).flatMap Line.all ++ rest := by
  obtain ⟨hsettled, -, rest, hrest⟩ := @settled_splitLines 0 none [] [] (lex cs) (by simp) trivial
    rfl rfl
  have hmap := unplaced_place [] false (splitLines 0 none [] [] (lex cs))
  refine ⟨settled_unplaced.1 (hmap ▸ settled_unplaced.2 hsettled), rest, ?_⟩
  have hall : ∀ ms : List Line, ms.flatMap Line.all = (ms.map Line.unplaced).flatMap Line.all := by
    intro ms
    rw [List.flatMap_map]
    rfl
  rw [linesOf, hall, hmap, ← hall]
  simpa using hrest

theorem Settled.append_left (h : Settled (ls ++ ms)) : Settled ls :=
  ⟨fun l hl => h.leads l (List.mem_append_left _ hl),
    fun l hl => h.each l (List.mem_append_left _ hl), h.chain.left_of_append⟩

theorem Settled.append_right (h : Settled (ls ++ ms)) : Settled ms :=
  ⟨fun l hl => h.leads l (List.mem_append_right _ hl),
    fun l hl => h.each l (List.mem_append_right _ hl), h.chain.right_of_append⟩

/-- The tokens that can be told to be on the last of some lines may be others. -/
theorem Settled.replace_last (h : Settled (ls ++ [l])) (hne : ts ≠ []) (hts : Holds 0 false ts) :
    Settled (ls ++ [{ l with tokens := ts }]) := by
  obtain ⟨hleads, heach, hchain⟩ := h
  rw [List.forall_mem_append] at hleads heach
  refine ⟨List.forall_mem_append.2 ⟨hleads.1, by simpa using hleads.2⟩,
    List.forall_mem_append.2 ⟨heach.1, by simpa using ⟨hne, hts⟩⟩, ?_⟩
  rw [List.isChain_append] at hchain ⊢
  refine ⟨hchain.1, .singleton _, fun k hk m hm => ?_⟩
  obtain rfl : { l with tokens := ts } = m := by simpa using hm
  have hf := hchain.2.2 k hk l (by simp)
  exact ⟨hf.depth, hf.dangling, hf.lead⟩

/-- A line with others behind it holds nothing open, and a newline is in front of the next one. -/
theorem Settled.ended (h : Settled (l :: ls)) (hne : ls ≠ []) :
    depthBehind 0 l.tokens = 0 ∧ danglesBehind false l.tokens = false ∧
      ∃ n ns, ls.flatMap Line.all = n :: ns ∧ n.kind = .newline := by
  obtain ⟨m, ms, rfl⟩ := List.exists_cons_of_ne_nil hne
  obtain ⟨⟨hdepth, hdangling, hlead⟩, -⟩ := List.isChain_cons_cons.1 h.chain
  obtain ⟨n, ns, hn⟩ := List.exists_cons_of_ne_nil hlead
  refine ⟨hdepth, hdangling, n, ns ++ (m.tokens ++ ms.flatMap Line.all), ?_,
    h.leads m (by simp) n (by simp [hn])⟩
  rw [List.flatMap_cons, Line.all, hn]
  simp

/-- The first of some lines that are laid out anew. -/
theorem Settled.relaid_first (h : Settled (l :: ls))
    (hr : Relays true ((l :: ls).flatMap Line.all) us) : ∃ gap line vs, us = gap ++ (line ++ vs) ∧
      (∀ t ∈ gap, t.kind = .newline) ∧ line ≠ [] ∧ Holds 0 false line ∧
      Relays true l.tokens line ∧ Relays true (ls.flatMap Line.all) vs := by
  obtain ⟨hne, hholds⟩ := h.each l List.mem_cons_self
  rw [List.flatMap_cons, Line.all, List.append_assoc] at hr
  obtain ⟨gap, us, rfl, hgap, hus⟩ := hr.append_left
  obtain ⟨line, vs, rfl, hline, hvs⟩ := hus.append_left
  refine ⟨gap, line, vs, rfl, hgap.all_newline (h.leads l List.mem_cons_self), ?_,
    hline.holds hholds, hline, hvs⟩
  rintro rfl
  exact hne hline.nil_right

/-- Lines in front of the last of some, and the beginning of that one, when they are laid out
anew in front of any tokens. -/
theorem Settled.relaid (h : Settled (ls ++ [l]))
    (hr : Relays true ((ls ++ [l]).flatMap Line.all) us) (more : List Token) :
    ∃ ls' lead' us' more' rest,
      splitLines 0 none lead [] (us ++ more) = ls' ++ ⟨lead', us' ++ more', 0⟩ :: rest ∧
      (∀ k' ∈ ls', ∃ k ∈ ls, Relays true k.tokens k'.tokens) ∧ Relays true l.tokens us' := by
  induction ls generalizing lead us with
  | nil =>
    obtain ⟨gap, line, vs, rfl, hgap, hne, hholds, hline, hvs⟩ := h.relaid_first hr
    obtain rfl : vs = [] := hvs.eq_nil
    obtain ⟨more', rest, hbegun⟩ := splitLines_unended hgap hne hholds more
    refine ⟨[], lead ++ gap, line, more', rest, ?_, by simp, hline⟩
    rw [List.append_nil, List.append_assoc]
    exact hbegun
  | cons k ls ih =>
    obtain ⟨hdepth, hdangling, n, ns, hn, hnewline⟩ := h.ended (by simp)
    obtain ⟨gap, line, vs, rfl, hgap, hne, hholds, hline, hvs⟩ := h.relaid_first hr
    have hlater : Settled (ls ++ [l]) := @Settled.append_right [k] _ h
    obtain ⟨ls', lead', us', more', rest, hsplit, hls, hl⟩ := @ih [] vs hlater hvs
    -- The next line has a newline in front of it, which ends this one.
    rw [hn] at hvs
    obtain ⟨u, us, rfl, hsame, -⟩ := hvs.cons_left
    have hu : u.kind = .newline := hsame.kind.trans hnewline
    have hended : splitLines 0 none lead [] (gap ++ (line ++ u :: (us ++ more))) =
        ⟨lead ++ gap, line, 0⟩ :: splitLines 0 none [] [] (u :: (us ++ more)) :=
      splitLines_ended hgap hne hholds (hline.depthBehind.trans hdepth)
        (hline.danglesBehind.trans hdangling) hu
    refine ⟨⟨lead ++ gap, line, 0⟩ :: ls', lead', us', more', rest, ?_, ?_, hl⟩
    · rw [List.append_assoc, List.append_assoc, List.cons_append, hended, ← List.cons_append,
        hsplit, List.cons_append]
    · refine List.forall_mem_cons.2 ⟨⟨k, List.mem_cons_self, hline⟩, fun k' hk' => ?_⟩
      obtain ⟨m, hm, hrelays⟩ := hls k' hk'
      exact ⟨m, List.mem_cons_of_mem _ hm, hrelays⟩

end

end Pipewright.Source
