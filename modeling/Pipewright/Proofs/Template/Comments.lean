import Mathlib.Data.List.Chain
import Mathlib.Data.List.DropRight
import Pipewright.Proofs.Text.Margins
import Pipewright.Template.Process

/-! Documentation in comments. A comment ends where its text says so first. -/
namespace Pipewright

/-! Properties of texts that their lines have -/

namespace Text
variable {P : List Char → Prop} {cs l : List Char} {ls : List (List Char)}

/-- A property that a text has just if all its lines have it, whatever blanks are around them. -/
structure Linewise (P : List Char → Prop) : Prop where
  nil : P []
  blanks_append {bs cs : List Char} : (∀ c ∈ bs, isBlank c) → (P (bs ++ cs) ↔ P cs)
  append_blanks {bs cs : List Char} : (∀ c ∈ bs, isBlank c) → (P (cs ++ bs) ↔ P cs)
  newline {as bs : List Char} : P (as ++ '\n' :: bs) ↔ P as ∧ P bs

theorem Linewise.ended (hP : Linewise P) (ls : List (List Char)) (l : List Char) :
    P (ended ls ++ l) ↔ ∀ m ∈ ls ++ [l], P m := by
  induction ls with
  | nil => exact List.forall_mem_singleton.symm
  | cons m ls ih =>
    rw [ended_cons, List.append_assoc, List.cons_append, hP.newline, ih, List.cons_append,
      List.forall_mem_cons]

theorem Linewise.cut (hP : Linewise P) {ms : List (List Char)}
    (h : List.Forall₂ (fun shown l => l = shown ∨ l = shown ++ ['\r']) ms ls) :
    (∀ m ∈ ms, P m) ↔ ∀ l ∈ ls, P l := by
  have hreturn : ∀ c ∈ ['\r'], isBlank c := forall_mem_of_all (by decide)
  induction h with
  | nil => exact Iff.rfl
  | cons hm _ ih =>
    rw [List.forall_mem_cons, List.forall_mem_cons]
    refine and_congr ?_ ih
    obtain rfl | rfl := hm
    · exact Iff.rfl
    · exact (hP.append_blanks hreturn).symm

theorem Linewise.lines (hP : Linewise P) (cs : List Char) : (∀ l ∈ lines cs, P l) ↔ P cs := by
  obtain ⟨ls, l, hsplit, rfl⟩ := exists_ended cs
  obtain ⟨hls, hl⟩ := List.forall_mem_append.1
    (hsplit ▸ fun m (hm : m ∈ splitAt '\n' (Text.ended ls ++ l)) => not_mem_of_mem_splitAt hm)
  rw [hP.cut (lines_cut hls (hl l (List.mem_singleton_self l))), hP.ended, List.forall_mem_append,
    List.forall_mem_append]
  refine and_congr_right fun _ => ?_
  split
  · rename_i hnil
    exact iff_of_true (List.forall_mem_nil _) (List.forall_mem_singleton.2 (hnil ▸ hP.nil))
  · exact Iff.rfl

theorem Linewise.joinWith (hP : Linewise P) (ls : List (List Char)) :
    P (joinWith ['\n'] ls) ↔ ∀ l ∈ ls, P l := by
  induction ls with
  | nil => exact iff_of_true hP.nil (List.forall_mem_nil _)
  | cons l ls ih =>
    cases ls with
    | nil => exact List.forall_mem_singleton.symm
    | cons m ls =>
      rw [Text.joinWith, List.append_assoc, List.singleton_append, hP.newline, ih,
        List.forall_mem_cons (a := l)]

/-- Only blanks go with the margin of a line. -/
theorem Linewise.drop_margin (hP : Linewise P) (hl : l ∈ ls) :
    P (if allBlank l then [] else l.drop (margin ls)) ↔ P l := by
  split
  · rename_i hblank
    have hall : P ([] ++ l) ↔ P [] := hP.append_blanks (allBlank_iff.1 hblank)
    exact hall.symm
  · rename_i hshown
    have hle := margin_le hl (Bool.eq_false_iff.2 hshown)
    conv_rhs => rw [← List.take_append_drop (margin ls) l]
    exact (hP.blanks_append (isBlank_of_mem_take hle)).symm

theorem Linewise.dedent (hP : Linewise P) (cs : List Char) : P (dedent cs) ↔ P cs := by
  rw [Text.dedent, hP.joinWith, dedentLines, List.forall_mem_map, ← hP.lines cs]
  exact forall₂_congr fun l hl => hP.drop_margin hl

theorem Linewise.dropEnd (hP : Linewise P) {p : Char → Bool} (hp : ∀ c, p c → isBlank c)
    (cs : List Char) : P (cs.rdropWhile p) ↔ P cs := by
  conv_rhs => rw [← List.rdropWhile_append_rtakeWhile (p := p) (l := cs)]
  exact (hP.append_blanks fun c hc => hp c (List.mem_rtakeWhile_imp hc)).symm

theorem Linewise.dropStart (hP : Linewise P) {p : Char → Bool} (hp : ∀ c, p c → isBlank c)
    (cs : List Char) : P (cs.dropWhile p) ↔ P cs := by
  conv_rhs => rw [← List.takeWhile_append_dropWhile (p := p) (l := cs)]
  exact (hP.blanks_append fun c hc => hp c (List.mem_takeWhile_imp hc)).symm

theorem linewise_allBlank : Linewise fun cs => allBlank cs = true where
  nil := rfl
  blanks_append h := by simpa [allBlank] using fun _ => h
  append_blanks h := by simpa [allBlank] using fun _ => h
  newline := by simp [allBlank, isBlank]

/-! Texts along which a comment stays open -/

/-- The text that ends a comment. -/
def closing : List Char := ['*', '/']

def StaysOpen (cs : List Char) : Prop := cs.IsChain fun a b => a = '*' → b ≠ '/'

theorem staysOpen_iff : StaysOpen cs ↔ ¬closing <:+: cs := by
  rw [StaysOpen, List.isChain_iff_forall_rel_of_append_cons_cons]
  constructor
  · intro h hmark
    obtain ⟨s, t, rfl⟩ := hmark
    exact h (List.append_assoc s closing t) rfl rfl
  · intro h a b s t hcs ha hb
    refine h ⟨s, t, ?_⟩
    rw [hcs, ha, hb, List.append_assoc]
    rfl

theorem staysOpen_blanks {bs : List Char} (h : ∀ c ∈ bs, isBlank c) : StaysOpen bs := by
  rw [staysOpen_iff]
  intro hmark
  exact absurd (h '*' (hmark.subset (by decide))) (by decide)

theorem linewise_staysOpen : Linewise StaysOpen where
  nil := .nil
  blanks_append {bs cs} h := by
    rw [StaysOpen, List.isChain_append]
    refine ⟨fun hcs => hcs.2.1, fun hcs => ⟨staysOpen_blanks h, hcs, fun x hx y _ hstar => ?_⟩⟩
    exact absurd (hstar ▸ h x (List.mem_of_getLast? hx)) (by decide)
  append_blanks {bs cs} h := by
    rw [StaysOpen, List.isChain_append]
    refine ⟨fun hcs => hcs.1, fun hcs => ⟨hcs, staysOpen_blanks h, fun x _ y hy _ hslash => ?_⟩⟩
    exact absurd (hslash ▸ h y (List.mem_of_head? hy)) (by decide)
  newline {as bs} := by
    rw [StaysOpen, List.isChain_append, List.isChain_cons]
    simp [StaysOpen]

/-- The first mark behind a text is the one that follows it just if the comment stays open so
far. -/
theorem splitOnce_closing_iff {as bs : List Char} :
    splitOnce closing (as ++ (closing ++ bs)) = some (as, bs) ↔ StaysOpen as := by
  rw [splitOnce_eq_some_iff, staysOpen_iff]
  constructor
  · rintro ⟨-, hfirst⟩ ⟨s, t, rfl⟩
    refine hfirst (closing ++ t) ⟨s, (List.append_assoc ..).symm⟩ (by simp [closing]) ?_
    rw [List.append_assoc]
    exact List.prefix_append _ _
  · intro hopen
    refine ⟨rfl, fun v hv hne hmark => ?_⟩
    obtain ⟨c, v, rfl⟩ := List.exists_cons_of_ne_nil hne
    obtain ⟨rfl, hrest⟩ := List.cons_prefix_cons.1 hmark
    cases v with
    | nil => cases (List.cons_prefix_cons.1 hrest).1
    | cons d v =>
      obtain ⟨rfl, -⟩ := List.cons_prefix_cons.1 hrest
      exact hopen ((List.prefix_append closing v).isInfix.trans hv.isInfix)

end Text

namespace ProcessBlock
open Text

/-- The lines of a documentation that its comment shows. -/
def docLines (doc : String) : List String :=
  (lines (trimNewlines (dedent (trimEnd doc.toList)))).map String.ofList

/-- What a comment shows of a documentation, each line behind a mark. -/
def docText (doc : String) : String := joined "" ((docLines doc).map docLine)

theorem forall_docLines {P : List Char → Prop} (hP : Linewise P) (doc : String) :
    (∀ l ∈ docLines doc, P l.toList) ↔ P doc.toList := by
  have hnewline : ∀ c, decide (c = '\n') = true → isBlank c := by
    intro c hc
    rw [of_decide_eq_true hc]
    rfl
  calc (∀ l ∈ ProcessBlock.docLines doc, P l.toList)
      ↔ ∀ l ∈ lines (trimNewlines (dedent (trimEnd doc.toList))), P l := by
        simp [ProcessBlock.docLines]
    _ ↔ P (trimNewlines (dedent (trimEnd doc.toList))) := hP.lines _
    _ ↔ P ((dedent (trimEnd doc.toList)).dropWhile fun c => c = '\n') := hP.dropEnd hnewline _
    _ ↔ P (dedent (trimEnd doc.toList)) := hP.dropStart hnewline _
    _ ↔ P (trimEnd doc.toList) := hP.dedent _
    _ ↔ P doc.toList := hP.dropEnd (fun _ => id) _

/-- A documentation that shows something is a comment of its own. -/
theorem comment_eq {doc : String} (h : isBlankText doc = false) :
    comment doc = "/*\n" ++ docText doc ++ " */\n" := by
  rw [comment, if_neg, docText, docLines, List.map_map]
  · rfl
  · intro hempty
    have hnone : docLines doc = [] := by
      rw [docLines, List.isEmpty_iff.1 hempty]
      rfl
    have hblank := (forall_docLines linewise_allBlank doc).1 (by simp [hnone])
    exact absurd (hblank.symm.trans h) (by simp)

/-- A line of a documentation as its comment shows it, but for its end. -/
def marked (l : List Char) : List Char := if l = [] then [' ', '*'] else ' ' :: '*' :: ' ' :: l

theorem toList_docLine (l : String) : (docLine l).toList = marked l.toList ++ ['\n'] := by
  by_cases h : l = "" <;> simp [docLine, marked, h]

theorem toList_docText (doc : String) :
    (docText doc).toList = ended ((docLines doc).map fun l => marked l.toList) := by
  simp [docText, toList_joined_empty, ended, List.flatMap_map, toList_docLine]

theorem staysOpen_marked (l : List Char) : StaysOpen (marked l) ↔ StaysOpen l := by
  have hblank : ∀ c ∈ [' '], isBlank c := forall_mem_of_all (by decide)
  rw [marked]
  split
  · rename_i h
    rw [h]
    exact iff_of_true (by simp [StaysOpen]) .nil
  · calc StaysOpen (' ' :: '*' :: ' ' :: l)
        ↔ StaysOpen ([' '] ++ l) := by simp [StaysOpen]
      _ ↔ StaysOpen l := linewise_staysOpen.blanks_append hblank

/-- The marks in front of the lines end no comment, and neither do the ends of the lines. -/
theorem staysOpen_docText (doc : String) :
    StaysOpen (docText doc).toList ↔ StaysOpen doc.toList := by
  have hended := linewise_staysOpen.ended ((docLines doc).map fun l => marked l.toList) []
  rw [List.append_nil, ← toList_docText, List.forall_mem_append, List.forall_mem_map] at hended
  rw [hended, and_iff_left (List.forall_mem_singleton.2 .nil), ← forall_docLines linewise_staysOpen]
  exact forall₂_congr fun l _ => staysOpen_marked l.toList

/-- A comment around a text ends where it is closed just if it stays open along the text. -/
theorem splitOnce_comment_iff (text rest : String) :
    splitOnce closing ("/*\n" ++ text ++ " */\n" ++ rest).toList =
        some (("/*\n" ++ text ++ " ").toList, ("\n" ++ rest).toList) ↔
      StaysOpen text.toList := by
  have hblank : ∀ c ∈ [' '], isBlank c := forall_mem_of_all (by decide)
  have hsplit : ("/*\n" ++ text ++ " */\n" ++ rest).toList =
      ("/*\n" ++ text ++ " ").toList ++ (closing ++ ("\n" ++ rest).toList) := by
    simp [closing]
  rw [hsplit, splitOnce_closing_iff]
  calc StaysOpen ("/*\n" ++ text ++ " ").toList
      ↔ StaysOpen (['/', '*'] ++ '\n' :: (text.toList ++ [' '])) := by simp
    _ ↔ StaysOpen (text.toList ++ [' ']) := by
      rw [linewise_staysOpen.newline, and_iff_right (by simp [StaysOpen])]
    _ ↔ StaysOpen text.toList := linewise_staysOpen.append_blanks hblank

theorem render_bare (b : ProcessBlock) : { b with doc := "" }.render = b.body := by
  have hnone : comment "" = "" := rfl
  rw [render, hnone, String.empty_append]
  rfl

theorem render_shown (b : ProcessBlock) (h : isBlankText b.doc = false) :
    b.render = "/*\n" ++ docText b.doc ++ " */\n" ++ { b with doc := "" }.render := by
  rw [render_bare, render, comment_eq h]

/-- The comment of a documentation that shows something opens the block, and a line that closes it
follows the last line of the documentation; then comes what is rendered without a documentation.
That line is where the comment ends first just if the documentation does not hold the closing mark
itself. -/
theorem comment_encloses_iff (b : ProcessBlock) (h : isBlankText b.doc = false) :
    b.render = "/*\n" ++ docText b.doc ++ " */\n" ++ { b with doc := "" }.render ∧
    (splitOnce closing b.render.toList = some
        (("/*\n" ++ docText b.doc ++ " ").toList, ("\n" ++ { b with doc := "" }.render).toList) ↔
      ¬closing <:+: b.doc.toList) := by
  refine ⟨b.render_shown h, ?_⟩
  rw [b.render_shown h, splitOnce_comment_iff, staysOpen_docText, staysOpen_iff]

/-- A documentation with a pattern of files. -/
def described (doc : String) : ProcessBlock where
  name := "count"
  doc
  pretreat := []
  directives := []
  inputs := ["file table from tables"]
  outputs := ["stdout into counts"]
  command := "count.py $table"

def patterned : String := "Counts rows.\n\n  Reads data/**.tsv, * / * and /*.\n"

theorem comment_encloses_patterned : isBlankText patterned = false ∧
    docText patterned = " * Counts rows.\n *\n *   Reads data/**.tsv, * / * and /*.\n" ∧
    splitOnce closing (described patterned).render.toList = some
      (("/*\n" ++ docText patterned ++ " ").toList, ("\n" ++ (described "").render).toList) := by
  have h : isBlankText (described patterned).doc = false := by decide
  exact ⟨h, by decide, (comment_encloses_iff (described patterned) h).2.2 (by decide)⟩

/-- The pattern ends the comment; what follows it in the documentation is read as a statement. -/
theorem pattern_ends_comment :
    isBlankText "Reads data/*/counts.tsv" = false ∧
    splitOnce closing (described "Reads data/*/counts.tsv").render.toList =
      some ("/*\n * Reads data/".toList, ("counts.tsv\n */\n" ++ (described "").render).toList) ∧
    splitOnce closing (described "Reads data/*/counts.tsv").render.toList ≠
      some (("/*\n" ++ docText "Reads data/*/counts.tsv" ++ " ").toList,
        ("\n" ++ (described "").render).toList) := by
  have hshown : isBlankText (described "Reads data/*/counts.tsv").doc = false := by decide
  have hdoc : docText (described "Reads data/*/counts.tsv").doc = " * Reads data/*/counts.tsv\n" := by
    decide
  have hrest : { described "Reads data/*/counts.tsv" with doc := "" } = described "" := rfl
  have htext : (described "Reads data/*/counts.tsv").render.toList =
      "/*\n * Reads data/".toList ++
        (closing ++ ("counts.tsv\n */\n" ++ (described "").render).toList) := by
    rw [render_shown _ hshown, hdoc, hrest]
    simp [closing]
  have hopen : ¬closing <:+: "/*\n * Reads data/".toList := by decide
  have hsplit : splitOnce closing (described "Reads data/*/counts.tsv").render.toList =
      some ("/*\n * Reads data/".toList, ("counts.tsv\n */\n" ++ (described "").render).toList) := by
    rw [htext, splitOnce_closing_iff, staysOpen_iff]
    exact hopen
  refine ⟨hshown, hsplit, fun h => ?_⟩
  have hsame := congrArg Prod.fst (Option.some.inj (hsplit.symm.trans h))
  rw [show docText "Reads data/*/counts.tsv" = _ from hdoc] at hsame
  exact absurd hsame (by decide)

end ProcessBlock
end Pipewright
