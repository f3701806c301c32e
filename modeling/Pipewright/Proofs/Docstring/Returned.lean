import Mathlib.Data.List.Infix
import Pipewright.Proofs.Docstring.Continued

/-! Documentation texts that say what is returned and nothing of parameters. The blanks in front of
the title are taken for the end of the description, and without them the title is not found. -/
namespace Pipewright.Docstring
open Text

/-! Headers -/

theorem not_isBlank_of_title {t : String} (ht : t ∈ titles) :
    ∀ c ∈ t.toList, isBlank c = false := by
  have hall : ∀ t ∈ titles, t.toList.all (fun c => !isBlank c) = true := by decide
  intro c hc
  simpa using List.all_eq_true.1 (hall t ht) c hc

/-- A header starts with the first letter of a title. -/
theorem Heads.head {cs : List Char} (h : Heads cs) : ∃ c ∈ cs.head?, c = 'P' ∨ c = 'R' := by
  obtain ⟨t, ht, bs, r, -, -, rfl⟩ := h
  have hall : ∀ t ∈ titles, ∃ c ∈ t.toList.head?, c = 'P' ∨ c = 'R' := by simp [titles]
  obtain ⟨c, hc, hletter⟩ := hall t ht
  refine ⟨c, ?_, hletter⟩
  rwa [List.head?_append_of_ne_nil _ (List.ne_nil_of_mem (List.mem_of_mem_head? hc))]

/-- A header ends before blanks if what follows them goes on with no dash. -/
theorem Heads.of_append {cs bs rest : List Char} (hne : bs ≠ []) (hb : ∀ c ∈ bs, isBlank c)
    (hr : ∀ c ∈ rest.head?, isBlank c = false ∧ c ≠ '-') (h : Heads (cs ++ (bs ++ rest))) :
    Heads cs := by
  obtain ⟨t, ht, us, r, hus, hu, he⟩ := h
  have hdash : isBlank '-' = false := by decide
  have hnot : ∀ us, (∀ c ∈ us, isBlank c) → bs ++ rest ≠ us ++ '-' :: '-' :: '-' :: r := by
    intro us hu he
    have hdrop := congrArg (List.dropWhile isBlank) he
    rw [dropWhile_append hb fun c hc => (hr c hc).1,
      dropWhile_append hu (by simpa using hdash)] at hdrop
    rw [hdrop] at hr
    exact (hr '-' rfl).2 rfl
  obtain ⟨b, bs', rfl⟩ := List.exists_cons_of_ne_nil hne
  have hblank : isBlank b := hb b List.mem_cons_self
  rcases List.append_eq_append_iff.1 he with ⟨as, htitle, hrest⟩ | ⟨as, rfl, hrest⟩
  · -- The title does not reach into the blanks, and no underline is behind them.
    cases as with
    | nil => exact absurd hrest (hnot us hu)
    | cons a as =>
      obtain rfl : b = a := (List.cons.inj hrest).1
      have hshown := not_isBlank_of_title ht b (htitle ▸ by simp)
      rw [hblank] at hshown
      cases hshown
  · rcases List.append_eq_append_iff.1 hrest with ⟨ds, rfl, hdashes⟩ | ⟨ds, hus', hdashes⟩
    · have hfront : ∃ r', ds = '-' :: '-' :: '-' :: r' := by
        have hbdash : b ≠ '-' := by
          rintro rfl
          rw [hdash] at hblank
          cases hblank
        match ds, hdashes with
        | [], hd => exact absurd (List.cons.inj hd).1.symm hbdash
        | [_], hd => exact absurd (List.cons.inj (List.cons.inj hd).2).1.symm hbdash
        | [_, _], hd =>
          exact absurd (List.cons.inj (List.cons.inj (List.cons.inj hd).2).2).1.symm hbdash
        | _ :: _ :: _ :: r', hd =>
          simp only [List.cons_append, List.cons.injEq] at hd
          exact ⟨r', by rw [← hd.1, ← hd.2.1, ← hd.2.2.1]⟩
      obtain ⟨r', rfl⟩ := hfront
      exact ⟨t, ht, us, r', hus, hu, rfl⟩
    · have hblanks : ∀ c ∈ ds, isBlank c := fun c hc => hu c (hus' ▸ List.mem_append_right _ hc)
      exact absurd hdashes (hnot ds hblanks)

theorem exists_of_afterHeader? {ts : List String} {cs after : List Char}
    (h : afterHeader? ts cs = some after) :
    ∃ t ∈ ts, ∃ between, cs = t.toList ++ (between ++ after) := by
  obtain ⟨t, ht, hafter⟩ := List.exists_of_findSome?_eq_some h
  obtain ⟨r, hr, hunder⟩ := Option.bind_eq_some_iff.1 hafter
  have hsuffix : after <:+ r := by
    simp only [afterUnderline?] at hunder
    split at hunder
    · cases hunder
      exact (List.dropWhile_suffix _).trans (List.dropWhile_suffix _)
    · cases hunder
  obtain ⟨between, rfl⟩ := hsuffix
  exact ⟨t, ht, between, eq_of_afterLead? hr⟩

/-- Before what is found to be returned stands a header behind blanks. -/
theorem exists_of_afterReturns? {cs doc : List Char} (h : afterReturns? cs = some doc) :
    ∃ r, r <:+ cs ∧ r.length < cs.length ∧ Heads r ∧
      ∃ between, r = "Returns".toList ++ (between ++ doc) := by
  obtain ⟨after, hafter, rfl⟩ := Option.map_eq_some_iff.1 h
  have hblanks := (Option.filter_eq_some_iff.1 hafter).1
  simp only [afterBlanks?] at hblanks
  split at hblanks
  · rename_i hlength
    obtain ⟨t, ht, between, he⟩ := exists_of_afterHeader? hblanks
    rw [List.mem_singleton.1 ht] at he
    refine ⟨cs.dropWhile isBlank, List.dropWhile_suffix _, by omega,
      heads_of_afterHeader? (by decide) hblanks, between ++ after.takeWhile isBlank, ?_⟩
    rw [List.append_assoc, List.takeWhile_append_dropWhile]
    exact he
  · cases hblanks

theorem exists_of_cutFirst? {test : List Char → Option (List Char)} {cs before found : List Char}
    (h : cutFirst? test cs = some (before, found)) :
    ∃ after, after <:+ cs ∧ test after = some found := by
  induction cs generalizing before with
  | nil => cases h
  | cons c cs ih =>
    rw [cutFirst?] at h
    split at h
    · rename_i after hhere
      cases h
      exact ⟨c :: cs, List.suffix_rfl, hhere⟩
    · obtain ⟨⟨b, f⟩, hcut, he⟩ := Option.map_eq_some_iff.1 h
      cases he
      obtain ⟨after, hsuffix, hlater⟩ := ih hcut
      exact ⟨after, hsuffix.trans (List.suffix_cons c cs), hlater⟩

theorem afterParameters_eq_self {cs : List Char}
    (h : ∀ after, after <:+ cs → afterHeader? ["Parameters"] after = none) :
    afterParameters cs = cs := by
  have hgo : afterParameters.go cs = none := by
    induction cs with
    | nil => rfl
    | cons c cs ih =>
      rw [afterParameters.go, h _ List.suffix_rfl]
      exact ih fun after hafter => h after (hafter.trans (List.suffix_cons c cs))
  rw [afterParameters, hgo]
  rfl

/-! What a text shows -/

/-- The characters of a text that are no blanks. -/
def shown (cs : List Char) : List Char := cs.filter fun c => !isBlank c

theorem shown_append (cs ds : List Char) : shown (cs ++ ds) = shown cs ++ shown ds :=
  List.filter_append _ _

theorem shown_blanks {cs : List Char} (h : ∀ c ∈ cs, isBlank c) : shown cs = [] :=
  List.filter_eq_nil_iff.2 fun c hc => by simp [h c hc]

theorem shown_trim (cs : List Char) : shown (trim cs) = shown cs := by
  have hend : ∀ cs, shown (trimEnd cs) = shown cs := by
    intro cs
    have hsplit : cs = trimEnd cs ++ (cs.reverse.takeWhile isBlank).reverse := by
      rw [trimEnd, ← List.reverse_append, List.takeWhile_append_dropWhile, List.reverse_reverse]
    have hblank : ∀ c ∈ (cs.reverse.takeWhile isBlank).reverse, isBlank c := fun c hc =>
      List.mem_takeWhile_imp (List.mem_reverse.1 hc)
    calc shown (trimEnd cs) = shown (trimEnd cs ++ (cs.reverse.takeWhile isBlank).reverse) := by
          rw [shown_append, shown_blanks hblank, List.append_nil]
      _ = shown cs := by rw [← hsplit]
  calc shown (trim cs) = shown (cs.dropWhile isBlank) := hend _
    _ = shown (cs.takeWhile isBlank ++ cs.dropWhile isBlank) := by
      rw [shown_append, shown_blanks fun c hc => List.mem_takeWhile_imp hc, List.nil_append]
    _ = shown cs := by rw [List.takeWhile_append_dropWhile]

theorem shown_lines (cs : List Char) : (lines cs).flatMap shown = shown cs := by
  have hcons : ∀ c cs, shown (c :: cs) = shown [c] ++ shown cs := fun c cs => shown_append [c] cs
  induction cs using lines.induct with
  | case1 => rfl
  | case2 r ih => rw [lines, List.flatMap_cons, ih, hcons '\n' r]; rfl
  | case3 r ih =>
    rw [lines, List.flatMap_cons, ih, hcons '\r', hcons '\n' r]
    rfl
  | case4 c r hc hcr hlines ih =>
    rw [lines, hlines, hcons c r, ← ih, hlines]
    · rfl
    · exact hc
    · exact hcr
  | case5 c r hc hcr l ls hlines ih =>
    rw [lines, hlines, hcons c r, ← ih, hlines, List.flatMap_cons, List.flatMap_cons, hcons c l,
      List.append_assoc]
    · exact hc
    · exact hcr

theorem shown_joinWith (ls : List (List Char)) : shown (joinWith ['\n'] ls) = ls.flatMap shown := by
  induction ls with
  | nil => rfl
  | cons l ls ih =>
    cases ls with
    | nil => simp [joinWith]
    | cons m ls =>
      rw [joinWith, shown_append, shown_append, ih, List.flatMap_cons]
      simp [shown, isBlank]

/-- Taking the margins off the lines changes nothing that a text shows. -/
theorem shown_trimLines (cs : List Char) : shown (trimLines cs) = shown cs := by
  have htrim : (fun l => shown (trim l)) = shown := funext shown_trim
  rw [trimLines, shown_joinWith, List.flatMap_map, htrim, shown_lines, shown_trim]

/-! Texts without entries -/

/-- Whether a word that could be a name ends a line behind a blank, with a blank in front of what
follows. -/
def Lists (cs : List Char) : Prop :=
  ∃ before b name c rest, cs = before ++ b :: (name ++ '\n' :: c :: rest) ∧ isBlank b ∧
    name ≠ [] ∧ (∀ d ∈ name, isNameChar d) ∧ isBlank c

theorem entry?_isSome_iff {cs : List Char} : ( entry? cs).isSome ↔
    ∃ name c rest, cs = name ++ '\n' :: c :: rest ∧ name ≠ [] ∧ (∀ d ∈ name, isNameChar d) ∧
      isBlank c := by
  have hnl : isNameChar '\n' = false := by decide
  constructor
  · intro h
    simp only [ entry?] at h
    split at h
    · rename_i r hr
      split at h
      · cases h
      · rename_i hcond
        simp only [Bool.or_eq_true, List.isEmpty_iff, decide_eq_true_eq, not_or] at hcond
        obtain ⟨hname, hlength⟩ := hcond
        have hsplit := List.takeWhile_append_dropWhile (p := isNameChar) (l := cs)
        rw [hr] at hsplit
        cases r with
        | nil => exact absurd rfl hlength
        | cons c rest =>
          have hc : isBlank c := by
            by_contra hno
            rw [List.dropWhile_cons_of_neg hno] at hlength
            exact hlength rfl
          exact ⟨_, c, rest, hsplit.symm, hname, fun d hd => List.mem_takeWhile_imp hd, hc⟩
    · cases h
  · rintro ⟨name, c, rest, rfl, hname, hnamed, hc⟩
    have htake : (name ++ '\n' :: c :: rest).takeWhile isNameChar = name :=
      takeWhile_append hnamed (by simpa using hnl)
    have hdrop : (name ++ '\n' :: c :: rest).dropWhile isNameChar = '\n' :: c :: rest :=
      dropWhile_append hnamed (by simpa using hnl)
    have hle := length_dropWhile_le isBlank rest
    simp only [ entry?, htake, hdrop, List.dropWhile_cons_of_pos hc]
    rw [if_neg]
    · rfl
    · simp only [List.length_cons, Bool.or_eq_true, List.isEmpty_iff, decide_eq_true_eq, not_or]
      exact ⟨hname, by omega⟩

theorem lists_cons {b : Char} (hb : isBlank b) (cs : List Char) :
    Lists (b :: cs) ↔ ( entry? cs).isSome ∨ Lists cs := by
  rw [entry?_isSome_iff]
  constructor
  · rintro ⟨before, b', name, c, rest, he, hb', hname⟩
    cases before with
    | nil => exact .inl ⟨name, c, rest, (List.cons.inj he).2, hname⟩
    | cons d before => exact .inr ⟨before, b', name, c, rest, (List.cons.inj he).2, hb', hname⟩
  · rintro (⟨name, c, rest, rfl, hname⟩ | ⟨before, b', name, c, rest, rfl, h⟩)
    · exact ⟨[], b, name, c, rest, rfl, hb, hname⟩
    · exact ⟨b :: before, b', name, c, rest, rfl, h⟩

/-- Behind a blank, a name is listed where the blanks end or later. -/
theorem lists_blank {b : Char} (hb : isBlank b) (cs : List Char) :
    Lists (b :: cs) ↔ ( entry? (cs.dropWhile isBlank)).isSome ∨ Lists (cs.dropWhile isBlank) := by
  induction cs generalizing b with
  | nil => exact lists_cons hb []
  | cons c cs ih =>
    by_cases hc : isBlank c
    · have hnone : ¬( entry? (c :: cs)).isSome := by
        rw [entry?_isSome_iff]
        rintro ⟨name, d, rest, he, hne, hnamed, -⟩
        obtain ⟨e, name, rfl⟩ := List.exists_cons_of_ne_nil hne
        obtain rfl := (List.cons.inj he).1
        have hshown := isBlank_of_named hnamed c List.mem_cons_self
        rw [hc] at hshown
        cases hshown
      rw [lists_cons hb, ih hc, List.dropWhile_cons_of_pos hc]
      exact or_iff_right hnone
    · rw [lists_cons hb, List.dropWhile_cons_of_neg hc]

theorem lists_word {c : Char} (hc : isBlank c = false) (cs : List Char) :
    Lists (c :: cs) ↔ Lists cs := by
  constructor
  · rintro ⟨before, b, name, d, rest, he, hb, h⟩
    cases before with
    | nil =>
      obtain rfl := (List.cons.inj he).1
      rw [hc] at hb
      cases hb
    | cons e before => exact ⟨before, b, name, d, rest, (List.cons.inj he).2, hb, h⟩
  · rintro ⟨before, b, name, d, rest, rfl, h⟩
    exact ⟨c :: before, b, name, d, rest, rfl, h⟩

/-- A text has no entries if no name is listed in it, and only then. -/
theorem entries_eq_nil_iff (cs : List Char) : Docstring.entries cs = [] ↔ ¬Lists cs := by
  induction cs using Docstring.entries.induct with
  | case1 =>
    have hnil : ¬Lists [] := by
      rintro ⟨before, b, name, c, rest, he, -⟩
      cases before <;> cases he
    rw [Docstring.entries.eq_def]
    exact iff_of_true rfl hnil
  | case2 c r hc name doc rest h ih =>
    have hsome : ( entry? (r.dropWhile isBlank)).isSome := by rw [h]; rfl
    rw [entries_cons_blank hc, scan, h]
    exact iff_of_false (List.cons_ne_nil _ _) fun hno => hno ((lists_blank hc r).2 (.inl hsome))
  | case3 c r hc h ih =>
    have hnone : ¬( entry? (r.dropWhile isBlank)).isSome := by rw [h]; exact Bool.false_ne_true
    rw [entries_cons_blank hc, scan, h, lists_blank hc, or_iff_right hnone]
    exact ih
  | case4 c r hc ih =>
    have hword : isBlank c = false := by simpa using hc
    rw [← List.singleton_append, entries_word (w := [c]) (by simpa using hword), ih,
      List.singleton_append, lists_word hword]

theorem paramsOf_eq_nil_iff (cs : List Char) : paramsOf cs = [] ↔ ¬Lists cs := by
  rw [← entries_eq_nil_iff, paramsOf_eq]
  cases Docstring.entries cs with
  | nil => exact iff_of_true rfl rfl
  | cons e es =>
    refine iff_of_false (fun hnil => ?_) (List.cons_ne_nil e es)
    have hnames := Entries.names_putAll
      ((e :: es).map fun e => (String.ofList e.1, String.ofList (trimEnd e.2)))
    rw [hnil, List.map_cons, List.map_cons, List.eraseDups_cons] at hnames
    cases hnames

/-! Reports -/

/-- A description, and what is returned. -/
structure Report where
  description : List Char
  /-- What the blank line before the header holds. -/
  gap : List Char
  indent : List Char
  /-- The dashes under the title beyond three. -/
  dashes : Nat
  /-- The blanks in front of the text, from the line below the dashes on. -/
  margin : List Char
  text : List Char

namespace Report

/-- What stands below the header. -/
def below (r : Report) : List Char := '\n' :: (r.margin ++ r.text)

/-- What is returned with its header. -/
def returned (r : Report) : List Char := header "Returns" r.indent r.dashes ++ r.below

def chars (r : Report) : List Char := r.description ++ (blankLine r.gap r.indent ++ r.returned)

/-- A report whose parts have no blanks at their ends, with no header in the description. -/
structure Proper (r : Report) : Prop where
  description_ne : r.description ≠ []
  description_trimmed : trim r.description = r.description
  description_plain : ∀ cs, cs <:+ r.description → ¬Heads cs
  gap : ∀ c ∈ r.gap, isBlank c
  indent : ∀ c ∈ r.indent, isBlank c
  margin : ∀ c ∈ r.margin, isBlank c
  text_ne : r.text ≠ []
  text_trimmed : trim r.text = r.text

variable {r : Report}

theorem head_returned (r : Report) : ∃ cs, r.returned = 'R' :: cs :=
  ⟨"eturns".toList ++ underline r.indent r.dashes ++ r.below, rfl⟩

theorem Proper.last_returned (hr : r.Proper) : ∃ c ∈ r.returned.getLast?, isBlank c = false := by
  have hsplit : r.returned = header "Returns" r.indent r.dashes ++ '\n' :: r.margin ++ r.text := by
    simp [returned, below]
  rw [hsplit, List.getLast?_append_of_ne_nil _ hr.text_ne]
  exact Page.exists_last hr.text_ne hr.text_trimmed

/-- The first header is the one behind the description. -/
theorem Proper.splitHeader?_chars (hr : r.Proper) :
    splitHeader? titles r.chars = some (r.description, r.below) := by
  have hbelow : ∀ c ∈ r.below.head?, c ≠ '-' := by
    rintro c ⟨⟩
    decide
  have hfind : afterBlanks? titles (blankLine r.gap r.indent ++ r.returned) = some r.below := by
    rw [returned, afterBlanks?_blankLine (by decide) titles hr.gap hr.indent]
    exact afterHeader?_header [] hr.indent hbelow r.dashes
  have hnext : ∀ c ∈ r.returned.head?, isBlank c = false ∧ c ≠ '-' := by
    obtain ⟨cs, hcs⟩ := r.head_returned
    rw [hcs]
    rintro c ⟨⟩
    exact ⟨by decide, by decide⟩
  have hpass : ∀ before after, r.description = before ++ after → after ≠ [] →
      afterBlanks? titles (after ++ (blankLine r.gap r.indent ++ r.returned)) = none := by
    intro before after hsplit hne
    refine afterBlanks?_none (fun t ht => ht) ?_ fun front back hback hne' hh => ?_
    · rw [Page.getLast?_of_suffix hsplit hne]
      exact Page.exists_last hr.description_ne hr.description_trimmed
    · have hinside := hh.of_append (List.cons_ne_nil _ _) (isBlank_blankLine hr.gap hr.indent) hnext
      refine hr.description_plain back ?_ hinside
      rw [hsplit, hback]
      exact (List.suffix_append front back).trans (List.suffix_append before _)
  rw [splitHeader?_eq, chars, cutFirst?_append hpass,
    cutFirst?_here (by simp [blankLine]) hfind]
  simp

/-- Behind its own title, a header can stand in the text only. -/
theorem Proper.suffix_text (hr : r.Proper) {cs : List Char} (hs : cs <:+ r.returned)
    (hlength : cs.length < r.returned.length) (hh : Heads cs) : cs <:+ r.text := by
  have hplain : ∀ c ∈ "eturns".toList ++ (underline r.indent r.dashes ++ '\n' :: r.margin),
      c ≠ 'P' ∧ c ≠ 'R' := by
    have hblank : ∀ c, isBlank c → c ≠ 'P' ∧ c ≠ 'R' := by
      refine fun c hc => ⟨?_, ?_⟩ <;>
      · rintro rfl
        exact absurd hc (by decide)
    have hdash : ∀ c ∈ List.replicate (r.dashes + 3) '-', c ≠ 'P' ∧ c ≠ 'R' := fun c hc => by
      rw [List.eq_of_mem_replicate hc]
      decide
    refine List.forall_mem_append.2 ⟨forall_mem_of_all (by decide), List.forall_mem_append.2
      ⟨List.forall_mem_cons.2 ⟨by decide, List.forall_mem_append.2 ⟨?_, hdash⟩⟩,
        List.forall_mem_cons.2 ⟨by decide, ?_⟩⟩⟩
    · exact fun c hc => hblank c (hr.indent c hc)
    · exact fun c hc => hblank c (hr.margin c hc)
  have hsplit : r.returned = 'R' :: ("eturns".toList ++ (underline r.indent r.dashes ++
      '\n' :: r.margin) ++ r.text) := by
    simp [returned, header, below]
  rw [hsplit] at hs hlength
  have hinner : cs <:+ "eturns".toList ++ (underline r.indent r.dashes ++ '\n' :: r.margin) ++
      r.text := (List.suffix_cons_iff.1 hs).resolve_left (by rintro rfl; exact hlength.ne rfl)
  rcases List.suffix_or_suffix_of_suffix hinner (List.suffix_append _ _) with htext | ⟨x, rfl⟩
  · exact htext
  · cases x with
    | nil => exact List.suffix_rfl
    | cons c x =>
      obtain ⟨front, hfront⟩ := hinner
      rw [← List.append_assoc] at hfront
      have hmem := List.append_cancel_right hfront
      obtain ⟨d, hd, hletter⟩ := hh.head
      cases hd
      obtain ⟨hp, hq⟩ := hplain c (hmem ▸ by simp)
      exact absurd hletter (not_or.2 ⟨hp, hq⟩)

/-- Without blanks before the title, what is returned can be found behind another header only. -/
theorem Proper.suffix_of_splitReturns? (hr : r.Proper) {before doc : List Char}
    (h : splitReturns? r.returned = some (before, doc)) :
    ∃ between, Heads ("Returns".toList ++ (between ++ doc)) ∧
      "Returns".toList ++ (between ++ doc) <:+ r.text := by
  rw [splitReturns?_eq] at h
  obtain ⟨after, hafter, hfound⟩ := exists_of_cutFirst? h
  obtain ⟨cs, hcs, hlength, hh, between, rfl⟩ := exists_of_afterReturns? hfound
  refine ⟨between, hh, hr.suffix_text (hcs.trans hafter) ?_ hh⟩
  exact Nat.lt_of_lt_of_le hlength hafter.length_le

/-- The parts that a report is cut into. -/
theorem Proper.ofLines_chars (hr : r.Proper) : ofLines r.chars =
    { short := String.ofList (firstLine r.description)
      description := String.ofList r.description
      params := paramsOf (afterParameters
        ((splitReturns? r.returned).elim r.returned Prod.fst))
      returns := String.ofList ((splitReturns? r.returned).elim [] fun p => trimLines p.2) } := by
  have hdescription : trimEnd r.description = r.description :=
    trimEnd_eq_self (last_of_trimmed hr.description_trimmed)
  have hsections : trim (r.chars.drop r.description.length) = r.returned := by
    obtain ⟨cs, hcs⟩ := r.head_returned
    obtain ⟨c, hc, hblank⟩ := hr.last_returned
    rw [chars, List.drop_left]
    refine trim_of_ends (isBlank_blankLine hr.gap hr.indent) ?_ fun d hd => ?_
    · rw [hcs]
      rintro d ⟨⟩
      decide
    · rw [Option.mem_unique hd hc]
      exact hblank
  have hfirst : firstLine r.chars = firstLine r.description := Page.firstLine_append _ _
  have hsplit := hr.splitHeader?_chars
  rw [titles] at hsplit
  simp only [ofLines, hsplit, hsections, hdescription, hfirst]
  cases splitReturns? r.returned <;> rfl

theorem Proper.trim_chars (hr : r.Proper) {lead trail : List Char}
    (hl : ∀ c ∈ lead, isBlank c) (ht : ∀ c ∈ trail, isBlank c) :
    trim (lead ++ r.chars ++ trail) = r.chars := by
  rw [trim_blanks ht]
  refine trim_of_ends hl (fun c hc => ?_) fun c hc => ?_
  · rw [chars, List.head?_append_of_ne_nil _ hr.description_ne] at hc
    exact head_of_trimmed hr.description_trimmed c hc
  · obtain ⟨d, hd, hblank⟩ := hr.last_returned
    have hne : r.returned ≠ [] := List.ne_nil_of_mem (List.mem_of_getLast? hd)
    rw [chars, ← List.append_assoc, List.getLast?_append_of_ne_nil _ hne] at hc
    rw [Option.mem_unique hc hd]
    exact hblank

theorem Proper.read_chars (hr : r.Proper) {lead trail : List Char}
    (hl : ∀ c ∈ lead, isBlank c) (ht : ∀ c ∈ trail, isBlank c) {s : String}
    (hs : s.toList = lead ++ r.chars ++ trail) :
    Docstring.read (some s) = ofLines r.chars := by
  have hnl : r.chars.contains '\n' := by simp [chars, blankLine]
  have hne : r.chars.isEmpty = false := by simp [chars, blankLine]
  simp only [Docstring.read, Option.map_some, Option.getD_some, hs, hr.trim_chars hl ht, hne,
    hnl, if_true]
  rfl

/-- The title and the dashes are no names. -/
theorem Proper.paramsOf_returned (hr : r.Proper) : paramsOf r.returned = paramsOf r.below := by
  have hdash : ∀ c ∈ List.replicate (r.dashes + 3) '-', isBlank c = false := fun c hc => by
    rw [List.eq_of_mem_replicate hc]
    decide
  have hword : (List.replicate (r.dashes + 3) '-').all isNameChar = false := by
    rw [List.replicate_succ]
    rfl
  have hblank : ∀ c ∈ '\n' :: r.indent, isBlank c :=
    List.forall_mem_cons.2 ⟨by decide, hr.indent⟩
  have hstart : ∀ c ∈ (List.replicate (r.dashes + 3) '-' ++ r.below).head?,
      isBlank c = false := by
    rw [List.replicate_succ]
    rintro c ⟨⟩
    decide
  have hnext : ∀ c ∈ r.below.head?, isBlank c := by
    rintro c ⟨⟩
    decide
  have hentries : Docstring.entries r.returned = Docstring.entries r.below := by
    rw [returned, header, underline, List.append_assoc,
      entries_word (not_isBlank_of_title (by decide)), ← List.cons_append, List.append_assoc,
      entries_blanks (List.cons_ne_nil _ _) hblank hstart, scan_word hdash hnext (.inl hword)]
  rw [paramsOf_eq, paramsOf_eq, hentries]

/-- The text of what is returned without the margins of its lines. -/
def result (r : Report) : List Char := joinWith ['\n'] ((splitAt '\n' r.text).map trim)

theorem Proper.result_eq (hr : r.Proper) : r.result = trimLines r.text :=
  (Page.trimLines_eq hr.text_ne hr.text_trimmed).symm

/-- What is found to be returned shows less than the text does. -/
theorem Proper.found_ne_result (hr : r.Proper) :
    ((splitReturns? r.returned).elim [] fun p => trimLines p.2) ≠ r.result := by
  rw [hr.result_eq]
  intro he
  have hshown := congrArg shown he
  rw [shown_trimLines] at hshown
  cases hsplit : splitReturns? r.returned with
  | none =>
    obtain ⟨c, cs, hc⟩ := List.exists_cons_of_ne_nil hr.text_ne
    have hblank := head_of_trimmed hr.text_trimmed c (hc ▸ rfl)
    rw [hsplit, hc] at hshown
    simp [shown, hblank] at hshown
  | some p =>
    obtain ⟨between, -, front, hfront⟩ := hr.suffix_of_splitReturns? hsplit
    have htitle : (shown "Returns".toList).length = 7 := by decide
    have hlength := congrArg List.length hshown
    rw [hsplit, ← hfront, shown_append, shown_append, shown_append] at hlength
    simp only [Option.elim_some, shown_trimLines, List.length_append, htitle] at hlength
    omega

/-- Of a report without parameters the description is read, and never the text of what is returned.
Without a header in that text nothing is said to be returned, and its lines are taken for
parameters if one that has a line behind it ends in what could be a name. -/
theorem read_returns (hr : r.Proper) {lead trail : List Char} (hl : ∀ c ∈ lead, isBlank c)
    (ht : ∀ c ∈ trail, isBlank c) {s : String} (hs : s.toList = lead ++ r.chars ++ trail) :
    (Docstring.read (some s)).short = String.ofList (firstLine r.description) ∧
      (Docstring.read (some s)).description = String.ofList r.description ∧
      (Docstring.read (some s)).returns ≠ String.ofList r.result ∧
      ((∀ cs, cs <:+ r.text → ¬Heads cs) → (Docstring.read (some s)).returns = "" ∧
        ((Docstring.read (some s)).params = [] ↔ ¬Lists r.below)) := by
  rw [hr.read_chars hl ht hs, hr.ofLines_chars]
  refine ⟨rfl, rfl, fun he => hr.found_ne_result (String.ofList_injective he), fun hplain => ?_⟩
  have hnone : splitReturns? r.returned = none := by
    cases hsplit : splitReturns? r.returned with
    | none => rfl
    | some p =>
      obtain ⟨between, hh, hsuffix⟩ := hr.suffix_of_splitReturns? hsplit
      exact absurd hh (hplain _ hsuffix)
  have hparameters : afterParameters r.returned = r.returned := by
    refine afterParameters_eq_self fun cs hcs => ?_
    cases hafter : afterHeader? ["Parameters"] cs with
    | none => rfl
    | some after =>
      have hh := heads_of_afterHeader? (by decide) hafter
      obtain ⟨t, ht, between, he⟩ := exists_of_afterHeader? hafter
      rcases hcs.length_le.lt_or_eq with hlt | heq
      · exact absurd hh (hplain cs (hr.suffix_text hcs hlt hh))
      · obtain ⟨ds, hds⟩ := r.head_returned
        rw [List.mem_singleton.1 ht, hcs.eq_of_length heq, hds] at he
        cases he
  rw [hnone]
  refine ⟨rfl, ?_⟩
  simp only [Option.elim_none, hparameters, hr.paramsOf_returned]
  exact paramsOf_eq_nil_iff _

/-- What is returned, on one line or on two. -/
def counts (text : String) : Report where
  description := "Count rows.".toList
  gap := []
  indent := "    ".toList
  dashes := 4
  margin := "    ".toList
  text := text.toList

def countsText (text : String) : String :=
  "Count rows.\n\n    Returns\n    -------\n    " ++ text ++ "\n"

section
variable {text : String} (h : text = "The count." ∨ text = "rows\n    and columns")

include h in
theorem counts_proper : (counts text).Proper where
  description_ne := List.cons_ne_nil 'C' _
  description_trimmed :=
    (by decide : trim "Count rows.".toList = "Count rows.".toList)
  description_plain := by
    have hall : ∀ cs ∈ "Count rows.".toList.tails, ¬Heads cs := by decide
    exact fun cs hcs => hall cs ((List.mem_tails _ _).2 hcs)
  gap := nofun
  indent := (forall_mem_of_all (by decide) : ∀ c ∈ "    ".toList, isBlank c)
  margin := (forall_mem_of_all (by decide) : ∀ c ∈ "    ".toList, isBlank c)
  text_ne := by rcases h with rfl | rfl <;> decide
  text_trimmed := by rcases h with rfl | rfl <;> decide

include h in
theorem counts_plain : ∀ cs, cs <:+ (counts text).text → ¬Heads cs := by
  have hall : ∀ cs ∈ (counts text).text.tails, ¬Heads cs := by
    rcases h with rfl | rfl <;> decide
  exact fun cs hcs => hall cs ((List.mem_tails _ _).2 hcs)

include h in
theorem toList_countsText :
    (countsText text).toList = [] ++ (counts text).chars ++ "\n".toList := by
  rcases h with rfl | rfl <;> decide

end

/-- What is returned is lost, and a line that could be a name becomes a parameter. -/
theorem read_returns_counts :
    (Docstring.read (some (countsText "The count."))).description = "Count rows." ∧
      (Docstring.read (some (countsText "The count."))).returns ≠ "The count." ∧
      (Docstring.read (some (countsText "The count."))).returns = "" ∧
      (Docstring.read (some (countsText "rows\n    and columns"))).params ≠ [] := by
  have hlead : ∀ c ∈ ([] : List Char), isBlank c := nofun
  have htrail : ∀ c ∈ "\n".toList, isBlank c := forall_mem_of_all (by decide)
  have hlists : Lists (counts "rows\n    and columns").below :=
    ⟨"\n   ".toList, ' ', "rows".toList, ' ', "   and columns".toList, by decide, by decide,
      by decide, forall_mem_of_all (by decide), by decide⟩
  obtain ⟨-, hdescription, hlost, hplain⟩ := read_returns (counts_proper (.inl rfl)) hlead htrail
    (toList_countsText (.inl rfl))
  obtain ⟨-, -, -, hrows⟩ := read_returns (counts_proper (.inr rfl)) hlead htrail
    (toList_countsText (.inr rfl))
  refine ⟨hdescription.trans rfl, fun he => hlost (he.trans ?_),
    (hplain (counts_plain (.inl rfl))).1, fun hnil => ?_⟩
  · decide
  · exact ((hrows (counts_plain (.inr rfl))).2.1 hnil) hlists

end Report

end Pipewright.Docstring
