import Pipewright.Proofs.Source.Definitions
import Pipewright.Proofs.Source.Lexing

/-! The definition that is found under a name, among definitions at the margin and in blocks. -/
namespace Pipewright

/-! The first of the signatures furthest left -/

/-- Signatures with one that is further left than all before it and at least as far left as all
after it. -/
def FurthestLeft (f : Signature) (fs : List Signature) : Prop :=
  ∃ before after, fs = before ++ f :: after ∧ (∀ e ∈ before, f.indent < e.indent) ∧
    ∀ e ∈ after, f.indent ≤ e.indent

namespace ScriptModule
variable {f g : Signature} {fs : List Signature}

theorem outermost_eq_none_iff : outermost fs = none ↔ fs = [] := by
  cases fs with
  | nil => exact iff_of_true rfl rfl
  | cons f fs =>
    refine iff_of_false ?_ (List.cons_ne_nil f fs)
    rw [outermost]
    split <;> simp

theorem furthestLeft_outermost (h : outermost fs = some f) : FurthestLeft f fs := by
  induction fs generalizing f with
  | nil => cases h
  | cons e fs ih =>
    rw [outermost] at h
    cases ho : outermost fs with
    | none =>
      obtain rfl : e = f := by simpa [ho] using h
      exact ⟨[], [], by rw [outermost_eq_none_iff.1 ho]; rfl, by simp, by simp⟩
    | some g =>
      obtain ⟨before, after, rfl, hbefore, hafter⟩ := ih ho
      simp only [ho, Option.some.injEq] at h
      by_cases hlt : g.indent < e.indent
      · obtain rfl : g = f := by simpa [hlt] using h
        exact ⟨e :: before, after, rfl, List.forall_mem_cons.2 ⟨hlt, hbefore⟩, hafter⟩
      · obtain rfl : e = f := by simpa [hlt] using h
        have hle : e.indent ≤ g.indent := not_lt.1 hlt
        refine ⟨[], _, rfl, by simp, List.forall_mem_append.2 ⟨?_, ?_⟩⟩
        · exact fun d hd => hle.trans (hbefore d hd).le
        · exact List.forall_mem_cons.2 ⟨hle, fun d hd => hle.trans (hafter d hd)⟩

theorem furthestLeft_unique (hf : FurthestLeft f fs) (hg : FurthestLeft g fs) : f = g := by
  obtain ⟨before, after, rfl, hbefore, hafter⟩ := hf
  obtain ⟨before', after', he, hbefore', hafter'⟩ := hg
  rw [List.append_eq_append_iff] at he
  -- The one that stands first is not further left than the other, and not less far left.
  obtain ⟨between, rfl, hrest⟩ | ⟨between, rfl, hrest⟩ := he
  · cases between with
    | nil => exact (List.cons.inj hrest).1
    | cons d ds =>
      obtain ⟨rfl, rfl⟩ := List.cons.inj hrest
      exact absurd (hbefore' _ (by simp)) (not_lt.2 (hafter _ (by simp)))
  · cases between with
    | nil => exact (List.cons.inj hrest).1.symm
    | cons d ds =>
      obtain ⟨rfl, rfl⟩ := List.cons.inj hrest
      exact absurd (hbefore _ (by simp)) (not_lt.2 (hafter' _ (by simp)))

end ScriptModule

/-! Columns and blocks -/

namespace Source
variable {stack : List Nat} {opened : Bool} {ls before between after rest : List Line}
  {l m : Line}

/-- The blocks around a line, and how they come from the blocks around the line before. -/
theorem place_cons (h : place stack opened ls = l :: rest) :
    ∃ blocks ls', rest = place blocks l.opensBlock ls' ∧ l.level = blocks.length ∧
      ((∀ c ∈ stack, 0 < c) → ∀ c ∈ blocks, 0 < c) ∧
      (l.isComment = false → ∀ c ∈ blocks.head?, c ≤ l.column) ∧
      (opened = false → blocks.length ≤ stack.length) := by
  cases ls with
  | nil => cases h
  | cons k ks =>
    rw [place] at h
    generalize hopen : (if opened && decide (stack.headD 0 < nextColumn (k :: ks)) then
      nextColumn (k :: ks) :: stack else stack) = outer at h
    obtain ⟨rfl, rfl⟩ := List.cons.inj h
    refine ⟨_, ks, rfl, rfl, fun hpos c hc => ?_, fun hk c hc => ?_, fun ho => ?_⟩
    · have hc' : c ∈ outer := List.dropWhile_subset _ hc
      rw [← hopen] at hc'
      split at hc'
      next hnew =>
        rw [Bool.and_eq_true, decide_eq_true_eq] at hnew
        exact (List.mem_cons.1 hc').elim (fun e => e ▸ (Nat.zero_le _).trans_lt hnew.2) (hpos c)
      · exact hpos c hc'
    · have hnext : nextColumn (k :: ks) = k.column := by
        rw [nextColumn, if_neg]
        exact Bool.eq_false_iff.1 hk
      have hleft := List.head?_dropWhile_not (fun column =>
        decide (nextColumn (k :: ks) < column) && decide (k.column < column)) outer
      rw [hc] at hleft
      have hle : c ≤ k.column := by simpa [hnext] using hleft
      exact hle
    · rw [← hopen, ho]
      exact (List.dropWhile_suffix _).length_le

/-- What follows some placed lines is placed as well. -/
theorem place_append (hpos : ∀ c ∈ stack, 0 < c) (h : place stack opened ls = before ++ rest) :
    ∃ stack' opened' ls', (∀ c ∈ stack', 0 < c) ∧ place stack' opened' ls' = rest := by
  induction before generalizing stack opened ls with
  | nil => exact ⟨stack, opened, ls, hpos, h⟩
  | cons b before ih =>
    obtain ⟨blocks, ls', htail, -, hblocks, -⟩ := place_cons h
    exact ih (hblocks hpos) htail.symm

/-- A line in a block starts behind the margin. -/
theorem column_pos (hpos : ∀ c ∈ stack, 0 < c) (h : place stack opened ls = l :: rest)
    (hl : l.isComment = false) (hlevel : 0 < l.level) : 0 < l.column := by
  obtain ⟨blocks, ls', -, hlength, hblocks, hcolumn, -⟩ := place_cons h
  cases blocks with
  | nil => simp [hlength] at hlevel
  | cons c cs => exact (hblocks hpos c (by simp)).trans_le (hcolumn hl c rfl)

/-- Where no line opens a block, none is entered. -/
theorem level_le_of_place (h : place stack false ls = between ++ l :: rest)
    (hopens : ∀ b ∈ between, b.opensBlock = false) : l.level ≤ stack.length := by
  induction between generalizing stack ls with
  | nil =>
    obtain ⟨blocks, -, -, hlength, -, -, hle⟩ := place_cons h
    exact hlength ▸ hle rfl
  | cons b between ih =>
    obtain ⟨blocks, ls', htail, -, -, -, hle⟩ := place_cons h
    rw [List.forall_mem_cons] at hopens
    rw [hopens.1] at htail
    exact (ih htail.symm hopens.2).trans (hle rfl)

/-- A line is in no more blocks than one before it, unless one was opened in between. -/
theorem level_le (h : place stack opened ls = m :: between ++ l :: rest)
    (hopens : ∀ b ∈ m :: between, b.opensBlock = false) : l.level ≤ m.level := by
  obtain ⟨blocks, ls', htail, hlength, -⟩ := place_cons h
  rw [List.forall_mem_cons] at hopens
  rw [hopens.1] at htail
  exact hlength ▸ level_le_of_place htail.symm hopens.2

theorem gap_ne_nil {t : Token} {ts : List Token} (ht : t.kind ≠ .joint)
    (h : 0 < startColumn 0 (t :: ts)) : t.gap ≠ [] := by
  intro hgap
  rw [startColumn, if_neg ht, hgap] at h
  exact absurd h (by simp [gapWidth])

theorem byteLength_pos {cs : List Char} (h : cs ≠ []) : 0 < byteLength cs := by
  rw [byteLength, Nat.pos_iff_ne_zero, Ne, String.utf8ByteSize_eq_zero_iff]
  simpa using h

namespace Definition
variable {d : Definition} {cs : List Char}

/-- A definition that its blocks move to the right and nothing else does: at the margin nothing
stands in front of it, and no joint does anywhere. No decorator opens a block. -/
structure Aligned (d : Definition) : Prop where
  margin : d.isTop = true → d.signature.indent = 0
  start : ∀ t ∈ d.first.tokens.head?, t.kind ≠ .joint
  decorators : ∀ l ∈ d.decorators, l.opensBlock = false

theorem indent_eq (d : Definition) (h : ∀ t ∈ d.first.tokens.head?, t.kind ≠ .joint) :
    d.signature.indent = byteLength ((d.first.tokens.head?.map Token.gap).getD []) := by
  have hskip : Literal.skipJoints d.first.tokens = d.first.tokens := by
    cases hts : d.first.tokens with
    | nil => rfl
    | cons t ts => exact List.dropWhile_cons_of_neg (by simpa [hts] using h)
  have hfirst : d.signature.indent =
      byteLength (((Literal.skipJoints d.first.tokens).head?.map Token.gap).getD []) := by
    obtain ⟨decorators, l, h, body⟩ := d
    cases decorators <;> rfl
  rw [hfirst, hskip]

/-- The first line of a definition in a block starts behind the margin. -/
theorem column_first_pos (hd : d ∈ definitionsOf [] (linesOf cs))
    (hdec : ∀ l ∈ d.decorators, l.opensBlock = false) (hn : d.isTop = false) :
    0 < d.first.column := by
  have hlevel : 0 < d.line.level := by
    rw [isTop, decide_eq_false_iff_not] at hn
    exact Nat.pos_of_ne_zero hn
  obtain ⟨⟨before, after, hlines, -⟩, hdecorates, -, hshown⟩ :=
    stands_of_mem decorates_nil hd
  rw [List.nil_append, List.append_assoc] at hlines
  obtain ⟨stack, opened, ls, hpos, hplace⟩ := place_append (by simp) hlines
  cases hds : d.decorators with
  | nil =>
    rw [hds] at hplace
    rw [first, hds]
    exact column_pos hpos hplace hshown hlevel
  | cons m ms =>
    rw [hds] at hplace hdec hdecorates
    have hle : d.line.level ≤ m.level := level_le hplace hdec
    rw [first, hds]
    exact column_pos hpos hplace (hdecorates.head m rfl) (hlevel.trans_le hle)

theorem Aligned.indent_pos (ha : d.Aligned) (hd : d ∈ definitionsOf [] (linesOf cs))
    (hn : d.isTop = false) : 0 < d.signature.indent := by
  have hcolumn := column_first_pos hd ha.decorators hn
  rw [d.indent_eq ha.start]
  cases hts : d.first.tokens with
  | nil => simp [Line.column, hts, startColumn] at hcolumn
  | cons t ts =>
    rw [Line.column, hts] at hcolumn
    exact byteLength_pos (gap_ne_nil (ha.start t (by rw [hts]; rfl)) hcolumn)

end Definition

/-- The definitions of a name in a source, in order. -/
def named (source name : String) : List Definition :=
  (definitionsOf [] (linesOf source.toList)).filter fun d => d.header.name = name

/-- The definitions of a name outside of any block. -/
def topNamed (source name : String) : List Definition := (named source name).filter Definition.isTop

end Source

namespace ScriptModule
open Source
variable {path source name : String} {first last : Definition} {f : Signature}

theorem function_ok_iff :
    (ofSource path source).function name = .ok f ↔
      FurthestLeft f ((named source name).map Definition.signature) := by
  have hnamed : ((ofSource path source).functions.filter fun f => f.name = name) =
      (named source name).map Definition.signature := by
    rw [ofSource, signaturesOf_eq, List.filter_map]
    rfl
  rw [function, hnamed]
  cases ho : outermost ((named source name).map Definition.signature) with
  | none =>
    refine iff_of_false (by simp) ?_
    rintro ⟨before, after, he, -⟩
    rw [outermost_eq_none_iff.1 ho] at he
    exact List.append_ne_nil_of_right_ne_nil before (List.cons_ne_nil f after) he.symm
  | some g =>
    have hg := furthestLeft_outermost ho
    constructor
    · rintro ⟨⟩
      exact hg
    · intro hf
      rw [furthestLeft_unique hf hg]

theorem furthestLeft_first (hfirst : first ∈ (topNamed source name).head?)
    (h : ∀ d ∈ named source name, d.Aligned) :
    FurthestLeft first.signature ((named source name).map Definition.signature) := by
  rw [topNamed, List.head?_filter, Option.mem_def, List.find?_eq_some_iff_append] at hfirst
  obtain ⟨htop, before, after, hsplit, hbefore⟩ := hfirst
  have hmem : ∀ d ∈ named source name, d ∈ definitionsOf [] (Source.linesOf source.toList) :=
    fun d hd => (List.mem_filter.1 hd).1
  have hzero := (h first (by simp [hsplit])).margin htop
  refine ⟨before.map Definition.signature, after.map Definition.signature, by simp [hsplit],
    List.forall_mem_map.2 fun d hd => ?_, fun e _ => hzero ▸ Nat.zero_le _⟩
  have hd' : d ∈ named source name := by simp [hsplit, hd]
  rw [hzero]
  exact (h d hd').indent_pos (hmem d hd') (by simpa using hbefore d hd)

/-- A name that is defined again stands for its first definition. -/
theorem function_last_iff (hlast : last ∈ (topNamed source name).getLast?) :
    ((ofSource path source).function name = .ok last.signature ↔
      FurthestLeft last.signature ((named source name).map Definition.signature)) ∧
    ((∀ d ∈ named source name, d.Aligned) →
      ∃ first ∈ (topNamed source name).head?,
        (ofSource path source).function name = .ok first.signature ∧
          ((ofSource path source).function name = .ok last.signature ↔
            first.signature = last.signature)) := by
  refine ⟨function_ok_iff, fun h => ?_⟩
  have hne : topNamed source name ≠ [] := List.ne_nil_of_mem (List.mem_of_getLast? hlast)
  have hfirst := List.head?_eq_some_head hne
  have hfound := (@function_ok_iff path source name _).2 (furthestLeft_first hfirst h)
  refine ⟨_, hfirst, hfound, ?_⟩
  rw [hfound, Except.ok.injEq]

/-- A method, a stub and the definition that takes its place. -/
def stubbedSource : String :=
  "class T:\n  def load(self): 0\n\ndef load(a): ...\n\ndef load(b): b\n"

theorem named_stubbedSource : ∃ d e f, named stubbedSource "load" = [d, e, f] ∧
    d.isTop = false ∧ e.isTop = true ∧ f.isTop = true ∧
    (∀ g ∈ [d, e, f], g.Aligned) ∧
    e.signature.params.map Param.name = ["a"] ∧ f.signature.params.map Param.name = ["b"] := by
  have htext : stubbedSource.toList = _ := String.toList_ofList
  simp only [named, Source.linesOf, lex_eq_lexWithin, htext]
  refine ⟨_, _, _, rfl, rfl, rfl, rfl, ?_, rfl, rfl⟩
  have hstart : ∀ {t u : Token}, t ∈ some u → u.kind ≠ .joint → t.kind ≠ .joint :=
    fun ht hu => Option.mem_some.1 ht ▸ hu
  refine List.forall_mem_cons.2 ⟨⟨fun h => ?_, fun t ht => ?_, fun _ hl => nomatch hl⟩,
    List.forall_mem_cons.2 ⟨⟨fun _ => rfl, fun t ht => ?_, fun _ hl => nomatch hl⟩,
    List.forall_mem_singleton.2 ⟨fun _ => rfl, fun t ht => ?_, fun _ hl => nomatch hl⟩⟩⟩
  · cases h
  all_goals exact hstart ht (by decide)

theorem topNamed_stubbedSource : ∃ e f, topNamed stubbedSource "load" = [e, f] ∧
    (∀ d ∈ named stubbedSource "load", d.Aligned) ∧ e.signature ≠ f.signature := by
  obtain ⟨d, e, f, hnamed, hd, he, hf, haligned, hparams, hparams'⟩ := named_stubbedSource
  refine ⟨e, f, ?_, hnamed ▸ haligned, fun h => ?_⟩
  · simp [topNamed, hnamed, hd, he, hf]
  · rw [h, hparams'] at hparams
    exact absurd hparams (by decide)

theorem function_last_iff_of_stub : ∃ first last, topNamed stubbedSource "load" = [first, last] ∧
    (ofSource "tables.py" stubbedSource).function "load" = .ok first.signature ∧
    (ofSource "tables.py" stubbedSource).function "load" ≠ .ok last.signature := by
  obtain ⟨first, last, htop, haligned, hne⟩ := topNamed_stubbedSource
  have hlast : last ∈ (topNamed stubbedSource "load").getLast? := by rw [htop]; rfl
  obtain ⟨-, h⟩ := @function_last_iff "tables.py" _ _ _ hlast
  obtain ⟨first', hfirst, hfound, hiff⟩ := h haligned
  obtain rfl : first = first' := by simpa [htop] using hfirst
  exact ⟨first, last, htop, hfound, fun h => hne (hiff.1 h)⟩

/-- The definition that is in effect is not the one that is found. -/
theorem stub_found : ∃ last ∈ (topNamed stubbedSource "load").getLast?,
    (ofSource "tables.py" stubbedSource).function "load" ≠ .ok last.signature := by
  obtain ⟨first, last, htop, hall, hne⟩ := topNamed_stubbedSource
  refine ⟨last, by rw [htop]; rfl, fun h => hne ?_⟩
  have hfirst : first ∈ (topNamed stubbedSource "load").head? := by rw [htop]; rfl
  exact furthestLeft_unique (furthestLeft_first hfirst hall) (function_ok_iff.1 h)

end ScriptModule
end Pipewright
