import Pipewright.Proofs.Docstring.Headers
import Pipewright.Proofs.Entries

/-! Documentation pages with a description, parameters and what is returned are read back into
those parts. -/
namespace Pipewright.Docstring
open Text

/-- A parameter on a page. -/
structure Entry where
  name : List Char
  /-- How much deeper the help stands than the name. -/
  margin : List Char
  help : List Char

structure Closing where
  /-- What the blank line before the header holds. -/
  gap : List Char
  /-- The dashes under the title beyond three. -/
  dashes : Nat
  text : List Char

structure Page where
  description : List Char
  gap : List Char
  indent : List Char
  dashes : Nat
  entries : List Entry
  returns : Option Closing

/-! Entries -/

theorem isNameChar_of_isBlank {c : Char} (h : isBlank c) : isNameChar c = false := by
  -- one pass over the ranges, which all stand between the blanks
  have hranges : ∀ r ∈ wordRanges, 0x3000 < r.1 ∨ r.2 < 0x85 ∨ (0x85 < r.1 ∧ r.2 < 0xA0) ∨
      (0xA0 < r.1 ∧ r.2 < 0x1680) ∨ (0x1680 < r.1 ∧ r.2 < 0x2000) ∨
      (0x200A < r.1 ∧ r.2 < 0x2028) ∨ (0x2029 < r.1 ∧ r.2 < 0x202F) ∨
      (0x202F < r.1 ∧ r.2 < 0x205F) ∨ (0x205F < r.1 ∧ r.2 < 0x3000) := by
    decide +kernel
  simp only [isBlank, Bool.or_eq_true, Bool.and_eq_true, decide_eq_true_eq] at h
  rw [Bool.eq_false_iff]
  intro hname
  simp only [isNameChar, isWordChar, isAsciiLetter, isDigit, Bool.or_eq_true, Bool.and_eq_true,
    decide_eq_true_eq, List.any_eq_true, ← Char.toNat_inj, Char.le_def, UInt32.le_iff_toNat_le,
    Char.reduceToNat, Char.reduceVal, UInt32.reduceToNat, Char.toNat_val] at hname
  obtain hstar | ((((hlower | hupper) | hdigit) | hline) | ⟨hwide, r, hr, hlow, hhigh⟩) := hname
  · omega
  · omega
  · omega
  · omega
  · omega
  · have := hranges r hr
    omega

theorem isBlank_of_named {name : List Char} (h : ∀ c ∈ name, isNameChar c) :
    ∀ c ∈ name, isBlank c = false := by
  intro c hc
  cases hb : isBlank c with
  | false => rfl
  | true =>
    have hname := h c hc
    rw [isNameChar_of_isBlank hb] at hname
    cases hname

def Entry.text (indent : List Char) (e : Entry) : List Char :=
  '\n' :: (indent ++ (e.name ++ '\n' :: (indent ++ (e.margin ++ e.help))))

/-- A name of word characters and stars, with a help text of one line that is deeper. -/
structure Entry.Canonical (e : Entry) : Prop where
  name_ne : e.name ≠ []
  named : ∀ c ∈ e.name, isNameChar c
  margin_ne : e.margin ≠ []
  margin : ∀ c ∈ e.margin, isBlank c
  help_ne : e.help ≠ []
  help_trimmed : trim e.help = e.help
  help_line : '\n' ∉ e.help

section
variable {indent rest : List Char} {e : Entry}

theorem entry?_text (he : e.Canonical) (hi : ∀ c ∈ indent, isBlank c)
    (hr : ∀ c ∈ rest.head?, c = '\n') :
    entry? (e.name ++ '\n' :: (indent ++ (e.margin ++ (e.help ++ rest)))) =
      some (e.name, e.help, rest) := by
  have hnl : isNameChar '\n' = false := by decide
  have htake : (e.name ++ '\n' :: (indent ++ (e.margin ++ (e.help ++ rest)))).takeWhile
      isNameChar = e.name := takeWhile_append he.named (by simpa using hnl)
  have hdrop : (e.name ++ '\n' :: (indent ++ (e.margin ++ (e.help ++ rest)))).dropWhile
      isNameChar = '\n' :: (indent ++ (e.margin ++ (e.help ++ rest))) :=
    dropWhile_append he.named (by simpa using hnl)
  have hblank : ∀ c ∈ indent ++ e.margin, isBlank c :=
    List.forall_mem_append.2 ⟨hi, he.margin⟩
  have hhead : ∀ c ∈ (e.help ++ rest).head?, isBlank c = false :=
    forall_head_append he.help_ne (head_of_trimmed he.help_trimmed) rest
  have hdoc : (indent ++ (e.margin ++ (e.help ++ rest))).dropWhile isBlank = e.help ++ rest := by
    rw [← List.append_assoc]
    exact dropWhile_append hblank hhead
  have hline : ∀ c ∈ e.help, decide (c ≠ '\n') := fun c hc =>
    decide_eq_true fun hc' => he.help_line (hc' ▸ hc)
  have hend : ∀ c ∈ rest.head?, decide (c ≠ '\n') = false := fun c hc => by
    simpa using hr c hc
  have hfirst : firstLine (e.help ++ rest) = e.help := takeWhile_append hline hend
  have hlast : (e.help ++ rest).dropWhile (· ≠ '\n') = rest := dropWhile_append hline hend
  have hlonger : (e.help ++ rest).length ≠ (indent ++ (e.margin ++ (e.help ++ rest))).length := by
    have hpos := List.length_pos_of_ne_nil he.margin_ne
    simp only [List.length_append]
    omega
  simp only [ entry?, htake, hdrop, hdoc, hfirst, hlast]
  rw [if_neg]
  rw [Bool.or_eq_true, not_or, List.isEmpty_iff, decide_eq_true_eq]
  exact ⟨he.name_ne, hlonger⟩

theorem entries_text (he : e.Canonical) (hi : ∀ c ∈ indent, isBlank c)
    (hr : ∀ c ∈ rest.head?, c = '\n') :
    Docstring.entries (e.text indent ++ rest) = (e.name, e.help) :: Docstring.entries rest := by
  have hhead : ∀ c ∈ (e.name ++ '\n' :: (indent ++ (e.margin ++ (e.help ++ rest)))).head?,
      isBlank c = false :=
    forall_head_append he.name_ne
      (fun c hc => isBlank_of_named he.named c (List.mem_of_mem_head? hc)) _
  have htext : e.text indent ++ rest =
      '\n' :: (indent ++ (e.name ++ '\n' :: (indent ++ (e.margin ++ (e.help ++ rest))))) := by
    simp [Entry.text]
  have hdrop : (indent ++ (e.name ++ '\n' :: (indent ++ (e.margin ++ (e.help ++ rest))))).dropWhile
      isBlank = e.name ++ '\n' :: (indent ++ (e.margin ++ (e.help ++ rest))) :=
    dropWhile_append hi hhead
  have hnl : isBlank '\n' := by decide
  rw [htext, Docstring.entries.eq_def]
  dsimp only
  rw [if_pos hnl]
  split
  · rename_i name doc rest' h
    rw [hdrop, entry?_text he hi hr] at h
    cases h
    rfl
  · rename_i h
    rw [hdrop, entry?_text he hi hr] at h
    cases h

theorem entries_texts {es : List Entry} (he : ∀ e ∈ es, e.Canonical)
    (hi : ∀ c ∈ indent, isBlank c) :
    Docstring.entries (es.flatMap (Entry.text indent)) = es.map fun e => (e.name, e.help) := by
  induction es with
  | nil =>
    rw [List.flatMap_nil, Docstring.entries.eq_def]
    rfl
  | cons e es ih =>
    obtain ⟨hhere, hlater⟩ := List.forall_mem_cons.1 he
    have hr : ∀ c ∈ (es.flatMap (Entry.text indent)).head?, c = '\n' := by
      intro c hc
      cases es with
      | nil => cases hc
      | cons d es =>
        cases hc
        rfl
    rw [List.flatMap_cons, entries_text hhere hi hr, ih hlater, List.map_cons]

end

theorem paramsOf_eq (cs : List Char) : paramsOf cs = Entries.putAll
    ((Docstring.entries cs).map fun e => (String.ofList e.1, String.ofList (trimEnd e.2))) := by
  rw [paramsOf, Entries.putAll, List.foldl_map]

/-! Pages -/

namespace Page

/-- What stands before the title of the parameters. -/
def opening (p : Page) : List Char := p.description ++ blankLine p.gap p.indent

/-- The parameters with their header. -/
def parameters (p : Page) : List Char :=
  header "Parameters" p.indent p.dashes ++ p.entries.flatMap (Entry.text p.indent)

/-- What is returned, on the lines below its header. -/
def below (p : Page) (c : Closing) : List Char := '\n' :: (p.indent ++ c.text)

/-- What is returned with its header. -/
def closing (p : Page) (c : Closing) : List Char := header "Returns" p.indent c.dashes ++ p.below c

/-- What stands behind the parameters. -/
def ending (p : Page) : List Char :=
  p.returns.elim [] fun c => blankLine c.gap p.indent ++ p.closing c

def text (p : Page) : List Char := p.opening ++ (p.parameters ++ p.ending)

/-- A page whose parts have no blanks at their ends, and nothing that looks like a header before
the text of what is returned, but for the headers. -/
structure Canonical (p : Page) : Prop where
  description_ne : p.description ≠ []
  description_trimmed : trim p.description = p.description
  gap : ∀ c ∈ p.gap, isBlank c
  indent : ∀ c ∈ p.indent, isBlank c
  entries_ne : p.entries ≠ []
  entries : ∀ e ∈ p.entries, e.Canonical
  names : (p.entries.map Entry.name).Nodup
  returns : ∀ c ∈ p.returns, (∀ b ∈ c.gap, isBlank b) ∧ c.text ≠ [] ∧ trim c.text = c.text
  heads : ∀ before after, p.text = before ++ after → Heads after → before = p.opening ∨
    ∃ c ∈ p.returns, before = p.opening ++ (p.parameters ++ blankLine c.gap p.indent) ∨
      after <:+ c.text

/-- A page of which the names and the help texts may be any. -/
structure Framed (p : Page) : Prop where
  description_ne : p.description ≠ []
  description_trimmed : trim p.description = p.description
  gap : ∀ c ∈ p.gap, isBlank c
  indent : ∀ c ∈ p.indent, isBlank c
  entries_ne : p.entries ≠ []
  helps : ∀ e ∈ p.entries, e.help ≠ [] ∧ trim e.help = e.help
  returns : ∀ c ∈ p.returns, (∀ b ∈ c.gap, isBlank b) ∧ c.text ≠ [] ∧ trim c.text = c.text
  heads : ∀ before after, p.text = before ++ after → Heads after → before = p.opening ∨
    ∃ c ∈ p.returns, before = p.opening ++ (p.parameters ++ blankLine c.gap p.indent) ∨
      after <:+ c.text

theorem Canonical.framed {p : Page} (hp : p.Canonical) : p.Framed :=
  ⟨hp.description_ne, hp.description_trimmed, hp.gap, hp.indent, hp.entries_ne,
    fun e he => ⟨(hp.entries e he).help_ne, (hp.entries e he).help_trimmed⟩, hp.returns, hp.heads⟩

variable {p : Page}

theorem ending_of_returns {c : Closing} (h : p.returns = some c) :
    p.ending = blankLine c.gap p.indent ++ p.closing c := by
  rw [ending, h]
  rfl

theorem text_suffix_closing (p : Page) (c : Closing) : c.text <:+ p.closing c :=
  (List.suffix_append ('\n' :: p.indent) c.text).trans (List.suffix_append _ _)

/-- A header stands at the parameters or behind them. -/
theorem Framed.heads_cases (hp : p.Framed) {before after : List Char}
    (h : p.text = before ++ after) (hh : Heads after) : before.length = p.opening.length ∨
      p.opening.length + p.parameters.length < before.length := by
  rcases hp.heads before after h hh with rfl | ⟨c, hc, hcase⟩
  · exact .inl rfl
  · right
    have hblank : 0 < (blankLine c.gap p.indent).length := Nat.succ_pos _
    rcases hcase with rfl | hsuffix
    · rw [List.length_append, List.length_append]
      omega
    · have hlength := congrArg List.length h
      have hshort := hsuffix.length_le
      have hclosing := (p.text_suffix_closing c).length_le
      rw [text, ending_of_returns hc] at hlength
      simp only [List.length_append] at hlength
      omega

/-! The ends of the parts -/

theorem Framed.entries_front (hp : p.Framed) (rest : List Char) :
    ∀ c ∈ (p.entries.flatMap (Entry.text p.indent) ++ rest).head?, c ≠ '-' := by
  obtain ⟨e, es, he⟩ := List.exists_cons_of_ne_nil hp.entries_ne
  intro c hc
  rw [he] at hc
  cases hc
  decide

theorem Framed.last_parameters (hp : p.Framed) :
    ∃ c ∈ p.parameters.getLast?, isBlank c = false := by
  obtain ⟨es, e, he⟩ := (List.eq_nil_or_concat p.entries).resolve_left hp.entries_ne
  have hmem : e ∈ p.entries := by simp [he]
  obtain ⟨hne, htrimmed⟩ := hp.helps e hmem
  have hsplit : ∃ front, p.parameters = front ++ e.help := by
    refine ⟨header "Parameters" p.indent p.dashes ++ (es.flatMap (Entry.text p.indent) ++
      '\n' :: (p.indent ++ (e.name ++ '\n' :: (p.indent ++ e.margin)))), ?_⟩
    rw [parameters, he, List.concat_eq_append, List.flatMap_append]
    simp only [List.flatMap_cons, List.flatMap_nil, List.append_nil, Entry.text, List.append_assoc,
      List.cons_append]
  obtain ⟨front, hfront⟩ := hsplit
  rw [hfront, List.getLast?_append_of_ne_nil _ hne]
  obtain ⟨c, hc⟩ := Option.ne_none_iff_exists'.1 (mt List.getLast?_eq_none_iff.1 hne)
  exact ⟨c, hc, last_of_trimmed htrimmed c hc⟩

theorem Framed.last_ending (hp : p.Framed) :
    ∀ c ∈ (p.parameters ++ p.ending).getLast?, isBlank c = false := by
  intro c hc
  cases hr : p.returns with
  | none =>
    rw [ending, hr, Option.elim_none, List.append_nil] at hc
    obtain ⟨d, hd, hblank⟩ := hp.last_parameters
    rw [Option.mem_unique hc hd]
    exact hblank
  | some closing =>
    obtain ⟨-, hne, htrimmed⟩ := hp.returns closing hr
    obtain ⟨front, hfront⟩ := p.text_suffix_closing closing
    rw [ending_of_returns hr, ← hfront, ← List.append_assoc, ← List.append_assoc,
      List.getLast?_append_of_ne_nil _ hne] at hc
    exact last_of_trimmed htrimmed c hc

/-! The cuts -/

/-- No header is found from a place between the headers on. -/
theorem Framed.afterBlanks?_between (hp : p.Framed) {ts : List String}
    (hts : ∀ t ∈ ts, t ∈ titles) {front part rest : List Char}
    (htext : p.text = front ++ (part ++ rest)) (hl : ∃ c ∈ part.getLast?, isBlank c = false)
    (hplace : front.length + part.length ≤ p.opening.length ∨
      p.opening.length < front.length ∧
        front.length + part.length ≤ p.opening.length + p.parameters.length) :
    afterBlanks? ts (part ++ rest) = none := by
  refine afterBlanks?_none hts hl fun before after hsplit hne hh => ?_
  have hhere : p.text = (front ++ before) ++ (after ++ rest) := by
    rw [htext, hsplit]
    simp only [List.append_assoc]
  have hcases := hp.heads_cases hhere hh
  have hpos := List.length_pos_of_ne_nil hne
  have hlength := congrArg List.length hsplit
  rw [List.length_append] at hcases hlength
  omega

theorem getLast?_of_suffix {cs before after : List Char} (h : cs = before ++ after)
    (hne : after ≠ []) : after.getLast? = cs.getLast? := by
  rw [h, List.getLast?_append_of_ne_nil before hne]

theorem exists_last {cs : List Char} (hne : cs ≠ []) (h : trim cs = cs) :
    ∃ c ∈ cs.getLast?, isBlank c = false := by
  obtain ⟨c, hc⟩ := Option.ne_none_iff_exists'.1 (mt List.getLast?_eq_none_iff.1 hne)
  exact ⟨c, hc, last_of_trimmed h c hc⟩

/-- The text is cut in front of the blanks before the parameters. -/
theorem Framed.splitHeader?_text (hp : p.Framed) :
    splitHeader? titles p.text = some (p.description,
      p.entries.flatMap (Entry.text p.indent) ++ p.ending) := by
  have hfind : afterBlanks? titles (blankLine p.gap p.indent ++ (p.parameters ++ p.ending)) =
      some (p.entries.flatMap (Entry.text p.indent) ++ p.ending) := by
    rw [parameters, List.append_assoc]
    exact afterBlanks?_header (by decide) _ hp.gap hp.indent (hp.entries_front p.ending) p.dashes
  have hpass : ∀ before after, p.description = before ++ after → after ≠ [] →
      afterBlanks? titles
        (after ++ (blankLine p.gap p.indent ++ (p.parameters ++ p.ending))) = none := by
    intro before after hsplit hne
    have htext : p.text = before ++
        (after ++ (blankLine p.gap p.indent ++ (p.parameters ++ p.ending))) := by
      rw [text, opening, hsplit]
      simp only [List.append_assoc]
    refine hp.afterBlanks?_between (fun t ht => ht) htext ?_ (.inl ?_)
    · rw [getLast?_of_suffix hsplit hne]
      exact exists_last hp.description_ne hp.description_trimmed
    · rw [opening, hsplit, List.length_append, List.length_append]
      omega
  rw [splitHeader?_eq, text, opening, List.append_assoc, cutFirst?_append hpass,
    cutFirst?_here (by simp [blankLine]) hfind]
  simp

/-- In the parameters, no header is found for what is returned. -/
theorem Framed.afterReturns?_parameters (hp : p.Framed) {before after : List Char}
    (hsplit : p.parameters = before ++ after) (hne : after ≠ []) :
    afterReturns? (after ++ p.ending) = none := by
  have hnone : afterBlanks? ["Returns"] (after ++ p.ending) = none := by
    cases before with
    | nil =>
      -- The header of the parameters itself has no blanks left before it.
      rw [List.nil_append] at hsplit
      rw [← hsplit, parameters, List.append_assoc]
      exact afterBlanks?_header_here (by decide) _ _ _ _
    | cons c before =>
      have htext : p.text = (p.opening ++ c :: before) ++ (after ++ p.ending) := by
        rw [text, hsplit]
        simp only [List.append_assoc]
      refine hp.afterBlanks?_between (by decide) htext ?_ (.inr ?_)
      · rw [getLast?_of_suffix hsplit hne]
        exact hp.last_parameters
      · rw [hsplit, List.length_append, List.length_append, List.length_cons]
        omega
  rw [afterReturns?, hnone]
  rfl

theorem Framed.splitReturns?_of_none (hp : p.Framed) (hr : p.returns = none) :
    splitReturns? (p.parameters ++ p.ending) = none := by
  have hnil : p.ending = [] := by
    rw [ending, hr]
    rfl
  rw [hnil, List.append_nil, splitReturns?_eq]
  refine cutFirst?_none fun before after hsplit hne => ?_
  have hpass := hp.afterReturns?_parameters hsplit hne
  rwa [hnil, List.append_nil] at hpass

theorem Framed.splitReturns?_of_some (hp : p.Framed) {c : Closing}
    (hr : p.returns = some c) :
    splitReturns? (p.parameters ++ p.ending) = some (p.parameters, c.text) := by
  obtain ⟨hgap, hne, htrimmed⟩ := hp.returns c hr
  have hbelow : ∀ d ∈ (p.below c).head?, d ≠ '-' := by
    intro d hd
    cases hd
    decide
  have hblank : ∀ d ∈ '\n' :: p.indent, isBlank d :=
    List.forall_mem_cons.2 ⟨by decide, hp.indent⟩
  have hdrop : ('\n' :: p.indent ++ c.text).dropWhile isBlank = c.text :=
    dropWhile_append hblank (head_of_trimmed htrimmed)
  have hfind : afterReturns? p.ending = some c.text := by
    have hnl : isBlank '\n' := by decide
    rw [ending_of_returns hr, closing, afterReturns?,
      afterBlanks?_header (by decide) [] hgap hp.indent hbelow c.dashes]
    rw [Option.filter_some, if_pos, Option.map_some]
    · exact congrArg some hdrop
    · exact hnl
  have hfull : p.ending ≠ [] := by
    rw [ending_of_returns hr]
    simp [blankLine]
  rw [splitReturns?_eq, cutFirst?_append fun _ _ hsplit hne =>
    hp.afterReturns?_parameters hsplit hne, cutFirst?_here hfull hfind]
  simp

theorem Framed.afterParameters_parameters (hp : p.Framed) :
    afterParameters p.parameters = p.entries.flatMap (Entry.text p.indent) := by
  have hhead : afterHeader? ["Parameters"] p.parameters =
      some (p.entries.flatMap (Entry.text p.indent)) := by
    have hfront := hp.entries_front []
    rw [List.append_nil] at hfront
    exact afterHeader?_header [] hp.indent hfront p.dashes
  obtain ⟨c, cs, -, hcons⟩ := head_header (show "Parameters" ∈ titles by decide) p.indent p.dashes
    (p.entries.flatMap (Entry.text p.indent))
  have hgo : afterParameters.go p.parameters = some (p.entries.flatMap (Entry.text p.indent)) := by
    rw [parameters] at hhead ⊢
    rw [hcons] at hhead ⊢
    rw [afterParameters.go, hhead]
  rw [afterParameters, hgo]
  rfl

/-! The parts -/

/-- Each parameter with its help. -/
def helps (p : Page) : List (String × String) :=
  p.entries.map fun e => (String.ofList e.name, String.ofList e.help)

/-- What is returned, without the margins of its lines. -/
def result (p : Page) : List Char :=
  p.returns.elim [] fun c => joinWith ['\n'] ((splitAt '\n' c.text).map trim)

theorem Canonical.nodup_helps (hp : p.Canonical) : (p.helps.map Prod.fst).Nodup := by
  have hinj : Function.Injective String.ofList := fun _ _ => String.ofList_injective
  have hnames := hp.names.map hinj
  rw [List.map_map] at hnames
  rw [helps, List.map_map]
  exact hnames

theorem Canonical.paramsOf_entries (hp : p.Canonical) :
    paramsOf (p.entries.flatMap (Entry.text p.indent)) = p.helps := by
  have hentries : (Docstring.entries (p.entries.flatMap (Entry.text p.indent))).map
      (fun e => (String.ofList e.1, String.ofList (trimEnd e.2))) = p.helps := by
    rw [entries_texts hp.entries hp.indent, List.map_map]
    refine List.map_congr_left fun e he => ?_
    have hlast := last_of_trimmed (hp.entries e he).help_trimmed
    simp only [Function.comp_apply, trimEnd_eq_self hlast]
  rw [paramsOf_eq, hentries, Entries.putAll_of_nodup hp.nodup_helps]

theorem trimLines_eq {cs : List Char} (hne : cs ≠ []) (h : trim cs = cs) :
    trimLines cs = joinWith ['\n'] ((splitAt '\n' cs).map trim) := by
  have hlast : cs.getLast? ≠ some '\n' := fun he => by
    have hblank := last_of_trimmed h '\n' he
    exact absurd hblank (by decide)
  rw [trimLines, h, trim_lines hne hlast]

theorem firstLine_append (cs rest : List Char) :
    firstLine (cs ++ '\n' :: rest) = firstLine cs := by
  induction cs with
  | nil => rfl
  | cons c cs ih =>
    rw [firstLine, firstLine] at ih ⊢
    rw [List.cons_append, List.takeWhile_cons, List.takeWhile_cons, ih]

theorem Framed.ofLines_text (hp : p.Framed) : ofLines p.text =
    ⟨String.ofList (firstLine p.description), String.ofList p.description,
      paramsOf (p.entries.flatMap (Entry.text p.indent)), String.ofList p.result⟩ := by
  have hdescription : trimEnd p.description = p.description :=
    trimEnd_eq_self (last_of_trimmed hp.description_trimmed)
  have hsections : trim (p.text.drop p.description.length) = p.parameters ++ p.ending := by
    have hdrop : p.text.drop p.description.length =
        blankLine p.gap p.indent ++ (p.parameters ++ p.ending) := by
      rw [text, opening, List.append_assoc, List.drop_left]
    obtain ⟨c, cs, hc, hcons⟩ := head_header (show "Parameters" ∈ titles by decide) p.indent
      p.dashes (p.entries.flatMap (Entry.text p.indent))
    rw [hdrop]
    refine trim_of_ends (isBlank_blankLine hp.gap hp.indent) ?_ hp.last_ending
    intro d hd
    rw [parameters, hcons] at hd
    cases hd
    exact hc
  have hfirst : firstLine p.text = firstLine p.description := by
    rw [text, opening, List.append_assoc]
    exact firstLine_append _ _
  have hsplit := hp.splitHeader?_text
  rw [titles] at hsplit
  cases hr : p.returns with
  | none =>
    have hnil : p.ending = [] := by
      rw [ending, hr]
      rfl
    have hreturns := hp.splitReturns?_of_none hr
    simp only [ofLines, hsplit, hsections, hreturns, hdescription, hfirst]
    rw [hnil, List.append_nil, hp.afterParameters_parameters, result, hr]
    rfl
  | some c =>
    obtain ⟨-, hne, htrimmed⟩ := hp.returns c hr
    have hreturns := hp.splitReturns?_of_some hr
    simp only [ofLines, hsplit, hsections, hreturns, hdescription, hfirst]
    rw [hp.afterParameters_parameters, trimLines_eq hne htrimmed, result, hr]
    rfl

theorem Framed.trim_text (hp : p.Framed) {lead trail : List Char}
    (hl : ∀ c ∈ lead, isBlank c) (ht : ∀ c ∈ trail, isBlank c) :
    trim (lead ++ p.text ++ trail) = p.text := by
  rw [trim_blanks ht]
  refine trim_of_ends hl (fun c hc => ?_) fun c hc => ?_
  · rw [text, opening, List.append_assoc, List.head?_append_of_ne_nil _ hp.description_ne] at hc
    exact head_of_trimmed hp.description_trimmed c hc
  · obtain ⟨d, hd, -⟩ := hp.last_parameters
    have hne : p.parameters ++ p.ending ≠ [] := by
      intro hnil
      rw [(List.append_eq_nil_iff.1 hnil).1] at hd
      cases hd
    rw [text, List.getLast?_append_of_ne_nil _ hne] at hc
    exact hp.last_ending c hc

/-- A page is cut into its parts, whatever blanks stand around it. -/
theorem Framed.read_parts (hp : p.Framed) {lead trail : List Char}
    (hl : ∀ c ∈ lead, isBlank c) (ht : ∀ c ∈ trail, isBlank c) {s : String}
    (hs : s.toList = lead ++ p.text ++ trail) :
    Docstring.read (some s) = ⟨String.ofList (firstLine p.description),
      String.ofList p.description, paramsOf (p.entries.flatMap (Entry.text p.indent)),
      String.ofList p.result⟩ := by
  have hnl : p.text.contains '\n' := by simp [text, opening, blankLine]
  have hne : p.text.isEmpty = false := by simp [text, opening, blankLine]
  simp only [Docstring.read, Option.map_some, Option.getD_some, hs, hp.trim_text hl ht, hne,
    hnl, if_true]
  exact hp.ofLines_text

/-- A canonical page is read back into its parts, whatever blanks stand around it, and the help
of each parameter is found. -/
theorem Canonical.read_text (hp : p.Canonical) {lead trail : List Char}
    (hl : ∀ c ∈ lead, isBlank c) (ht : ∀ c ∈ trail, isBlank c) {s : String}
    (hs : s.toList = lead ++ p.text ++ trail) :
    Docstring.read (some s) = ⟨String.ofList (firstLine p.description),
      String.ofList p.description, p.helps, String.ofList p.result⟩ ∧
    ∀ e ∈ p.entries,
      (Docstring.read (some s)).help? (String.ofList e.name) = some (String.ofList e.help) := by
  rw [hp.framed.read_parts hl ht hs, hp.paramsOf_entries]
  refine ⟨rfl, fun e he => ?_⟩
  exact Entries.get?_of_mem (e := (String.ofList e.name, String.ofList e.help)) hp.nodup_helps
    (List.mem_map_of_mem he)

/-- The texts before headers, if all places of a text are known at which one stands. -/
theorem before_mem {fronts : List (List Char)} {cs before after : List Char}
    (hall : ∀ n ≤ cs.length, Heads (cs.drop n) → cs.take n ∈ fronts) (h : cs = before ++ after)
    (hh : Heads after) : before ∈ fronts := by
  have hle : before.length ≤ cs.length := by
    rw [h, List.length_append]
    exact Nat.le_add_right _ _
  have hhere := hall before.length hle (by rw [h, List.drop_left]; exact hh)
  rwa [h, List.take_left] at hhere

/-- A page with two parameters. -/
def counting : Page where
  description := "Count rows.\n\n  Of all tables.".toList
  gap := []
  indent := "  ".toList
  dashes := 7
  entries := [⟨"table".toList, "  ".toList, "The first table.".toList⟩,
    ⟨"*more".toList, "  ".toList, "Further tables.".toList⟩]
  returns := some ⟨[], 4, "The count,\n    or nothing.".toList⟩

theorem counting_entries : ∀ e ∈ counting.entries, e.Canonical := by
  have hchars : ∀ e ∈ counting.entries, e.name.all isNameChar ∧ e.margin.all isBlank := by
    decide
  have htexts : ∀ e ∈ counting.entries, e.name ≠ [] ∧ e.margin ≠ [] ∧ e.help ≠ [] ∧
      trim e.help = e.help ∧ '\n' ∉ e.help := by
    decide
  intro e he
  obtain ⟨hname, hmargin, hhelp, htrim, hline⟩ := htexts e he
  exact ⟨hname, List.all_eq_true.1 (hchars e he).1, hmargin, List.all_eq_true.1 (hchars e he).2,
    hhelp, htrim, hline⟩

theorem counting_heads (before after : List Char) (h : counting.text = before ++ after)
    (hh : Heads after) : before = counting.opening ∨
      ∃ c ∈ counting.returns, before = counting.opening ++ (counting.parameters ++
        blankLine c.gap counting.indent) ∨ after <:+ c.text := by
  have hall : ∀ n ≤ counting.text.length, Heads (counting.text.drop n) →
      counting.text.take n ∈ [counting.opening,
        counting.opening ++ (counting.parameters ++ blankLine [] counting.indent)] := by
    decide +kernel
  rcases List.mem_cons.1 (before_mem hall h hh) with hfirst | hlast
  · exact .inl hfirst
  · exact .inr ⟨_, rfl, .inl (List.mem_singleton.1 hlast)⟩

theorem counting_canonical : counting.Canonical where
  description_ne := by decide
  description_trimmed := by decide
  gap := nofun
  indent := forall_mem_of_all (by decide)
  entries_ne := by decide
  entries := counting_entries
  names := by decide
  returns := by
    rintro c ⟨⟩
    exact ⟨nofun, by decide, by decide⟩
  heads := counting_heads

def countingText : String :=
  "\n  Count rows.\n\n  Of all tables.\n\n" ++
    "  Parameters\n  ----------\n  table\n    The first table.\n  *more\n    Further tables.\n\n" ++
    "  Returns\n  -------\n  The count,\n    or nothing.\n  "

theorem toList_ofList_append (a b c : List Char) :
    (String.ofList a ++ String.ofList b ++ String.ofList c).toList = a ++ b ++ c := by
  simp

theorem read_counting : counting.Canonical ∧
    countingText.toList = "\n  ".toList ++ counting.text ++ "\n  ".toList ∧
    Docstring.read (some countingText) =
      ⟨"Count rows.", "Count rows.\n\n  Of all tables.",
        [("table", "The first table."), ("*more", "Further tables.")],
        "The count,\nor nothing."⟩ := by
  have htext : countingText.toList = "\n  ".toList ++ counting.text ++ "\n  ".toList :=
    (toList_ofList_append _ _ _).trans (by decide +kernel)
  have hmargin : ∀ c ∈ "\n  ".toList, isBlank c := forall_mem_of_all (by decide)
  exact ⟨counting_canonical, htext,
    (counting_canonical.read_text hmargin hmargin htext).1.trans rfl⟩

end Page

end Pipewright.Docstring
