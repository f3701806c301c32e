import Mathlib.Data.List.Basic
import Pipewright.Source.Module

/-! The definitions of a source, with the lines they stand on and the blocks around them. -/
namespace Pipewright.Source

/-- A definition: the lines of its decorators, the line with its header, and its block. -/
structure Definition where
  decorators : List Line
  line : Line
  header : Header
  body : List Line

namespace Definition

def signature (d : Definition) : Signature := signatureOf d.decorators d.line d.header d.body

/-- Whether the definition stands outside of any block. -/
def isTop (d : Definition) : Bool := d.line.level = 0

/-- The line that the definition starts on. -/
def first (d : Definition) : Line := d.decorators.head?.getD d.line

end Definition

def isDecorator (l : Line) : Bool := (l.significant.head?).any (·.isMark "@")

/-- The definitions among lines, in order. -/
def definitionsOf (decorators : List Line) : List Line → List Definition
  | [] => []
  | l :: ls =>
    if l.isComment then
      definitionsOf (if decorators.isEmpty then [] else decorators ++ [l]) ls
    else if isDecorator l then definitionsOf (decorators ++ [l]) ls
    else
      match header? l.tokens with
      | some h =>
        ⟨decorators, l, h, ls.takeWhile fun m => l.level < m.level⟩ :: definitionsOf [] ls
      | none => definitionsOf [] ls

theorem signaturesOf_eq (decorators ls : List Line) :
    signaturesOf decorators ls = (definitionsOf decorators ls).map Definition.signature := by
  induction ls generalizing decorators with
  | nil => rfl
  | cons l ls ih =>
    rw [signaturesOf, definitionsOf]
    by_cases hc : l.isComment = true
    · rw [if_pos hc, if_pos hc, ih]
    by_cases hd : isDecorator l = true
    · have hd' : (l.significant.head?).any (·.isMark "@") = true := hd
      rw [if_neg hc, if_pos hd', if_neg hc, if_pos hd, ih]
    have hd' : ¬(l.significant.head?).any (·.isMark "@") = true := hd
    rw [if_neg hc, if_neg hd', if_neg hc, if_neg hd]
    cases hh : header? l.tokens with
    | none => exact ih []
    | some h => rw [ih, List.map_cons]; rfl

/-- Lines that can stand in front of a definition: decorators, and comments between them. -/
structure Decorates (decorators : List Line) : Prop where
  head : ∀ l ∈ decorators.head?, l.isComment = false
  each : ∀ l ∈ decorators, l.isComment = true ∨ isDecorator l = true

/-- Where a definition stands among lines. -/
structure Definition.Stands (d : Definition) (ls : List Line) : Prop where
  lines : ∃ before after, ls = before ++ d.decorators ++ d.line :: after ∧
    d.body = after.takeWhile fun m => d.line.level < m.level
  decorates : Decorates d.decorators
  header : header? d.line.tokens = some d.header
  shown : d.line.isComment = false

theorem decorates_nil : Decorates [] := ⟨by simp, by simp⟩

theorem Decorates.concat {ds : List Line} {l : Line} (h : Decorates ds)
    (hhead : ds = [] → l.isComment = false) (hl : l.isComment = true ∨ isDecorator l = true) :
    Decorates (ds ++ [l]) := by
  refine ⟨?_, List.forall_mem_append.2 ⟨h.each, List.forall_mem_singleton.2 hl⟩⟩
  cases ds with
  | nil => simpa using hhead rfl
  | cons m ms => exact h.head

/-- What stands in front of lines can be put in front of any definition among them. -/
theorem Definition.Stands.behind {d : Definition} {ls : List Line} (h : d.Stands ls)
    (front : List Line) : d.Stands (front ++ ls) := by
  obtain ⟨⟨before, after, rfl, hbody⟩, hdec, hheader, hshown⟩ := h
  exact ⟨⟨front ++ before, after, by simp, hbody⟩, hdec, hheader, hshown⟩

theorem stands_of_mem {decorators ls : List Line} {d : Definition} (hdec : Decorates decorators)
    (h : d ∈ definitionsOf decorators ls) : d.Stands (decorators ++ ls) := by
  induction ls generalizing decorators with
  | nil => cases h
  | cons l ls ih =>
    rw [definitionsOf] at h
    by_cases hc : l.isComment = true
    · rw [if_pos hc] at h
      by_cases he : decorators.isEmpty = true
      · rw [if_pos he] at h
        rw [List.isEmpty_iff.1 he]
        exact (ih decorates_nil h).behind [l]
      · rw [if_neg he] at h
        rw [List.append_cons]
        exact ih (hdec.concat (fun hnil => absurd (List.isEmpty_iff.2 hnil) he) (.inl hc)) h
    rw [if_neg hc] at h
    by_cases hd : isDecorator l = true
    · rw [if_pos hd] at h
      rw [List.append_cons]
      exact ih (hdec.concat (fun _ => by simpa using hc) (.inr hd)) h
    rw [if_neg hd] at h
    have hskip : d ∈ definitionsOf [] ls → d.Stands (decorators ++ l :: ls) := fun hm => by
      rw [List.append_cons]
      exact (ih decorates_nil hm).behind (decorators ++ [l])
    cases hh : header? l.tokens with
    | none =>
      rw [hh] at h
      exact hskip h
    | some header =>
      rw [hh] at h
      obtain rfl | hm := List.mem_cons.1 h
      · exact ⟨⟨[], ls, rfl, rfl⟩, hdec, hh, by simpa using hc⟩
      · exact hskip hm

end Pipewright.Source
