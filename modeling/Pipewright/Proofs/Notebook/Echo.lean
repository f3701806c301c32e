import Pipewright.Proofs.Binding.Annotations
import Pipewright.Proofs.Notebook.Sections

/-! The name that a section shows once more: the one word in front of the first equals sign between
spaces in its last line, and when that is the name the line assigns to. -/
namespace Pipewright.Notebook
open Text

/-- Which identifiers a language has for names, keywords apart, and which texts for expressions. -/
structure Grammar where
  IsName : Identifier → Prop
  IsExpression : List Char → Prop

/-- A line gives a value to a single name. -/
def Assigns (g : Grammar) (l n : List Char) : Prop :=
  ∃ (i : Identifier) (margin e : List Char), g.IsName i ∧ g.IsExpression e ∧
    (∀ c ∈ margin, isBlank c) ∧ n = i.chars ∧ l = margin ++ (n ++ (" = ".toList ++ e))

/-- Lines are followed by the name that the last of them assigns to, and by nothing if that assigns
to no single name. -/
structure EchoesAssigned (g : Grammar) (code echo : List (List Char)) : Prop where
  name : ∀ l ∈ code.getLast?, ∀ n, Assigns g l n → echo = [n]
  nothing : (∀ l ∈ code.getLast?, ∀ n, ¬Assigns g l n) → echo = []

/-- In front of its first equals sign between spaces, a line has the word alone. -/
def LedBy (l w : List Char) : Prop :=
  ∃ margin gap rest, (∀ c ∈ margin, isBlank c) ∧ (∀ c ∈ gap, isBlank c) ∧ w ≠ [] ∧
    (∀ c ∈ w, isBlank c = false) ∧ l = margin ++ (w ++ gap) ++ (" = ".toList ++ rest) ∧
      ∀ v, v <:+ margin ++ (w ++ gap) → v ≠ [] → ¬" = ".toList <+: v ++ (" = ".toList ++ rest)

section
variable {g : Grammar} {l n w : List Char}

theorem assignedName?_eq_some_iff :
    assignedName? (String.ofList l) = some (String.ofList w) ↔ LedBy l w := by
  have hchars : (String.ofList l).toList = l := String.toList_ofList
  rw [assignedName?, hchars]
  constructor
  · intro h
    split at h
    · rename_i target rest hsplit
      split at h
      · rename_i v hwords
        obtain rfl : v = w := String.ofList_injective (Option.some.inj h)
        obtain ⟨hl, hfirst⟩ := splitOnce_eq_some_iff.1 hsplit
        obtain ⟨hne, hword, margin, gap, hmargin, hgap, rfl⟩ := words_eq_singleton_iff.1 hwords
        exact ⟨margin, gap, rest, hmargin, hgap, hne, hword, hl, hfirst⟩
      · cases h
    · cases h
  · rintro ⟨margin, gap, rest, hmargin, hgap, hne, hword, hl, hfirst⟩
    rw [splitOnce_eq_some_iff.2 ⟨hl, hfirst⟩]
    dsimp only
    rw [words_eq_singleton_iff.2 ⟨hne, hword, margin, gap, hmargin, hgap, rfl⟩]

/-- No equals sign between spaces stands in front of the one behind the name. -/
theorem Assigns.ledBy (h : Assigns g l n) : LedBy l n := by
  obtain ⟨i, margin, e, -, -, hmargin, rfl, rfl⟩ := h
  have hshown : ∀ c ∈ i.chars, isBlank c = false := fun c hc =>
    Source.isBlank_of_isWordChar (i.isWordChar c hc)
  have hplain : ∀ c ∈ margin ++ i.chars, c ≠ '=' := by
    rintro c hc rfl
    obtain hc | hc := List.mem_append.1 hc
    · exact absurd (hmargin _ hc) (by decide)
    · exact absurd (i.isWordChar _ hc) (by decide)
  have hchars : i.chars ≠ [] := List.cons_ne_nil _ _
  refine ⟨margin, [], e, hmargin, List.forall_mem_nil _, hchars, hshown, by simp, ?_⟩
  rw [List.append_nil]
  rintro v hv hne ⟨more, hmore⟩
  rw [show " = ".toList = [' ', '=', ' '] by decide] at hmore
  obtain ⟨c, v, rfl⟩ := List.exists_cons_of_ne_nil hne
  obtain ⟨rfl, hbehind⟩ := List.cons.inj hmore
  cases v with
  | cons d v =>
    -- the second character of the text stands behind the sign's space, before the sign
    have hd : d = '=' := (List.cons.inj hbehind).1.symm
    exact hplain d (hv.subset (by simp)) hd
  | nil =>
    obtain ⟨front, hfront⟩ := hv
    have hlast : (margin ++ i.chars).getLast? = some ' ' := by
      rw [← hfront, List.getLast?_concat]
    rw [List.getLast?_append_of_ne_nil margin hchars] at hlast
    exact absurd (hshown ' ' (List.mem_of_getLast? hlast)) (by decide)

/-- Where one word at most is shown once more, that is as described just if it is the name that a
line of code assigns to. -/
theorem echoesAssigned_iff {title : List Char} {code echo : List (List Char)}
    (hecho : ∀ w, w ∈ echo ↔ LedBy (code.getLast?.getD title) w) (hle : echo.length ≤ 1) :
    EchoesAssigned g code echo ↔
      ∀ w, LedBy (code.getLast?.getD title) w → ∃ l ∈ code.getLast?, Assigns g l w := by
  have honly : ∀ {w}, w ∈ echo → echo = [w] := fun {w} hw => by
    obtain ⟨v, rfl⟩ := List.length_eq_one_iff.1
      (Nat.le_antisymm hle (List.length_pos_of_mem hw))
    rw [List.mem_singleton.1 hw]
  have hassigned : ∀ l ∈ code.getLast?, ∀ n, Assigns g l n → n ∈ echo := fun l hl n hn => by
    rw [hecho, Option.mem_def.1 hl]
    exact hn.ledBy
  constructor
  · intro h w hw
    have hmem := (hecho w).2 hw
    by_contra hno
    refine List.ne_nil_of_mem hmem (h.nothing fun l hl n hn => hno ⟨l, hl, ?_⟩)
    have hnw : [n] = [w] := (honly (hassigned l hl n hn)).symm.trans (honly hmem)
    exact List.singleton_inj.1 hnw ▸ hn
  · refine fun h => ⟨fun l hl n hn => honly (hassigned l hl n hn), fun hnone => ?_⟩
    refine List.eq_nil_iff_forall_not_mem.2 fun w hw => ?_
    obtain ⟨l, hl, hassigns⟩ := h w ((hecho w).1 hw)
    exact hnone l hl w hassigns

/-- A section shows its own lines, and behind them the one word in front of the first equals sign
between spaces in the last line. -/
theorem section?_echo (g : Grammar) {piece title : List Char} {rest code : List (List Char)}
    (hshown : allBlank piece = false) (hlines : splitAt '\n' piece = title :: rest)
    (hcode : rest.filter (fun l => !l.isEmpty) = code) :
    ∃ echo : List (List Char), section? piece =
        some ⟨String.ofList title, (code ++ echo).map String.ofList⟩ ∧
      (∀ w, w ∈ echo ↔ LedBy (code.getLast?.getD title) w) ∧ echo.length ≤ 1 ∧
      (EchoesAssigned g code echo ↔
        ∀ w, LedBy (code.getLast?.getD title) w → ∃ l ∈ code.getLast?, Assigns g l w) := by
  obtain ⟨shown, hname⟩ : ∃ shown : Option (List Char),
      assignedName? (String.ofList (code.getLast?.getD title)) = shown.map String.ofList := by
    refine ⟨(assignedName? (String.ofList (code.getLast?.getD title))).map String.toList, ?_⟩
    rw [Option.map_map, show String.ofList ∘ String.toList = id from
      funext fun s => String.ofList_toList, Option.map_id_fun, id]
  have hecho : ∀ w, w ∈ shown.toList ↔ LedBy (code.getLast?.getD title) w := fun w => by
    rw [← assignedName?_eq_some_iff, hname, Option.mem_toList, Option.map_eq_some_iff]
    exact ⟨fun h => ⟨w, h, rfl⟩, fun ⟨v, h, hv⟩ => String.ofList_injective hv ▸ h⟩
  have hle : shown.toList.length ≤ 1 := by cases shown <;> simp
  have hechoed : (Section.ofLines (title :: rest)).echoed =
      ⟨String.ofList title, (code ++ shown.toList).map String.ofList⟩ := by
    rw [Section.echoed, Section.ofLines, List.tail_cons, hcode, List.headD_cons,
      List.getLast?_map, Option.getD_map, hname, List.map_append]
    cases shown <;> rfl
  refine ⟨shown.toList, ?_, hecho, hle, echoesAssigned_iff hecho hle⟩
  rw [section?_eq, hshown, hlines, hechoed]
  rfl

end

/-- All identifiers are names, and all texts that show something are expressions. -/
def looseGrammar : Grammar := ⟨fun _ => True, fun e => allBlank e = false⟩

/-- A call with a keyword argument assigns nothing, and a part of it is shown once more. -/
theorem section?_echo_of_call : section? "Show\nplot(color = 'red')".toList =
      some ⟨"Show", ["plot(color = 'red')", "plot(color"]⟩ ∧
    ¬EchoesAssigned looseGrammar ["plot(color = 'red')".toList] ["plot(color".toList] := by
  have hrun : section? "Show\nplot(color = 'red')".toList =
      some ⟨"Show", ["plot(color = 'red')", "plot(color"]⟩ := by decide
  have hshown : allBlank "Show\nplot(color = 'red')".toList = false := by decide
  have hlines : splitAt '\n' "Show\nplot(color = 'red')".toList =
      ["Show".toList, "plot(color = 'red')".toList] := by decide
  obtain ⟨echo, hsection, hledBy, -, hechoes⟩ := section?_echo looseGrammar hshown hlines rfl
  have hecho : echo = ["plot(color".toList] := by
    have hcode := (Section.mk.inj (Option.some.inj (hrun.symm.trans hsection))).2
    rw [List.filter_cons_of_pos (by decide), List.filter_nil, List.map_append] at hcode
    exact List.map_injective_iff.2 (fun _ _ => String.ofList_injective)
      (List.cons.inj hcode).2.symm
  refine ⟨hrun, fun h => ?_⟩
  rw [← hecho] at h
  obtain ⟨l, -, i, margin, e, -, -, -, hchars, -⟩ :=
    hechoes.1 h "plot(color".toList ((hledBy _).1 (hecho ▸ List.mem_singleton_self _))
  have hword : Source.isWordChar '(' = true :=
    i.isWordChar '(' (hchars ▸ (by decide : '(' ∈ "plot(color".toList))
  exact absurd hword (by decide)

end Pipewright.Notebook
