import Pipewright.Literal.Reader

/-! Literals do not depend on the blank text in front of their tokens, nor on where lines are
joined. -/
namespace Pipewright
open Source

/-- A token without its blank text, and if it is trivia, without its text. -/
def Source.Token.bare (t : Token) : Token := ⟨[], t.kind, if t.isTrivia then [] else t.text⟩

section
variable (t : Token)

@[simp] theorem Source.Token.bare_kind : t.bare.kind = t.kind := rfl

theorem Source.Token.bare_text {t : Token} (h : t.isTrivia = false) : t.bare.text = t.text := by
  rw [bare, h]
  rfl

@[simp] theorem Source.Token.bare_isMark (s : String) : t.bare.isMark s = t.isMark s := by
  rw [isMark, isMark, bare_kind]
  cases hk : decide (t.kind = .mark) with
  | false => rfl
  | true => rw [bare_text (by simp_all [isTrivia])]

@[simp] theorem Source.Token.bare_isWord (s : String) : t.bare.isWord s = t.isWord s := by
  rw [isWord, isWord, bare_kind]
  cases hk : decide (t.kind = .word) with
  | false => rfl
  | true => rw [bare_text (by simp_all [isTrivia])]

end

namespace Literal

/-- What is left to read, made bare. -/
def bareRest {α : Type} (p : α × List Token) : α × List Token := (p.1, p.2.map Token.bare)

theorem skipJoints_bare (ts : List Token) :
    skipJoints (ts.map Token.bare) = (skipJoints ts).map Token.bare := by
  rw [skipJoints, List.dropWhile_map, skipJoints]
  rfl

theorem takeStrings_bare (ts : List Token) :
    takeStrings (ts.map Token.bare) =
      ((takeStrings ts).1.map Token.bare, (takeStrings ts).2.map Token.bare) := by
  induction ts with
  | nil => rfl
  | cons t ts ih =>
    rw [List.map_cons, takeStrings, takeStrings, Token.bare_kind]
    split
    · rw [ih]; rfl
    · rfl

theorem kind_of_mem_takeStrings {ts : List Token} :
    ∀ t ∈ (takeStrings ts).1, t.kind = .string := by
  induction ts with
  | nil => simp [takeStrings]
  | cons t ts ih =>
    rw [takeStrings]
    split
    · exact List.forall_mem_cons.2 ⟨‹_›, ih⟩
    · simp

theorem joinStrings?_bare {ts : List Token} (h : ∀ t ∈ ts, t.kind = .string) :
    joinStrings? (ts.map Token.bare) = joinStrings? ts := by
  have hall : (ts.map Token.bare).mapM (fun t => stringChars? t.text) =
      ts.mapM fun t => stringChars? t.text := by
    induction ts with
    | nil => rfl
    | cons t ts ih =>
      rw [List.forall_mem_cons] at h
      rw [List.map_cons, List.mapM_cons, List.mapM_cons, ih h.2,
        Token.bare_text (by simp [Token.isTrivia, h.1])]
  rw [joinStrings?, hall, joinStrings?]

theorem wordValue?_bare (t : Token) : wordValue? t.bare = wordValue? t := by
  simp only [wordValue?, Token.bare_isWord]

/-- Whether reading with some fuel goes on after bare tokens as it does after the tokens
themselves. -/
structure ReadsBare (n : Nat) : Prop where
  value : ∀ ts, readValue n (ts.map Token.bare) = (readValue n ts).map bareRest
  items : ∀ close ts, readItems n close (ts.map Token.bare) =
    (readItems n close ts).map (Prod.map id bareRest)
  entries : ∀ ts, readEntries n (ts.map Token.bare) = (readEntries n ts).map bareRest

section
variable {n : Nat} (h : ReadsBare n) {t : Token} (ts : List Token)
include h

theorem ReadsBare.mark_succ (hk : t.kind = .mark) :
    readValue (n + 1) ((t :: ts).map Token.bare) = (readValue (n + 1) (t :: ts)).map bareRest := by
  rw [List.map_cons, readValue, readValue, Token.bare_kind, hk]
  simp only [Token.bare_isMark, skipJoints_bare, h.value, h.items, h.entries]
  split
  · cases readValue n (skipJoints ts) with
    | none => rfl
    | some p => simp only [Option.map_some, bareRest, Option.map_map]; rfl
  split
  · simp only [Option.map_map]; rfl
  split
  · simp only [Option.map_map]
    congr 1
    funext ⟨vs, comma, r⟩
    simp only [Function.comp_apply, bareRest, Prod.map_apply, id_eq]
    split <;> rfl
  split
  · simp only [Option.map_map]; rfl
  · rfl

theorem ReadsBare.value_succ :
    readValue (n + 1) ((t :: ts).map Token.bare) = (readValue (n + 1) (t :: ts)).map bareRest := by
  have htext : t.isTrivia = false → t.bare.text = t.text := Token.bare_text
  cases hk : t.kind with
  | mark => exact h.mark_succ ts hk
  | word =>
    simp only [List.map_cons, readValue, Token.bare_kind, hk, wordValue?_bare, Option.map_map]
    rfl
  | string =>
    have hstrings : ∀ s ∈ t :: (takeStrings ts).1, s.kind = .string :=
      List.forall_mem_cons.2 ⟨hk, kind_of_mem_takeStrings⟩
    have hjoin := joinStrings?_bare hstrings
    rw [List.map_cons] at hjoin
    simp only [List.map_cons, readValue, Token.bare_kind, hk, takeStrings_bare, hjoin,
      Option.map_map]
    rfl
  | whole | decimal =>
    simp only [List.map_cons, readValue, Token.bare_kind, hk,
      htext (by simp [Token.isTrivia, hk]), Option.map_map]
    rfl
  | _ => simp only [List.map_cons, readValue, Token.bare_kind, hk, Option.map_none]

theorem ReadsBare.items_succ (close : String) :
    readItems (n + 1) close ((t :: ts).map Token.bare) =
      (readItems (n + 1) close (t :: ts)).map (Prod.map id bareRest) := by
  have hfirst := h.value (t :: ts)
  rw [List.map_cons] at hfirst ⊢
  rw [readItems, readItems, Token.bare_isMark, hfirst]
  split
  · rfl
  cases readValue n (t :: ts) with
  | none => rfl
  | some p =>
    obtain ⟨v, _ | ⟨c, r⟩⟩ := p
    · rfl
    simp only [Option.map_some, bareRest, List.map_cons, Token.bare_isMark, h.items]
    split
    · rfl
    split
    · simp only [Option.map_map]; rfl
    · rfl

theorem ReadsBare.entries_succ :
    readEntries (n + 1) ((t :: ts).map Token.bare) =
      (readEntries (n + 1) (t :: ts)).map bareRest := by
  have hfirst := h.value (t :: ts)
  rw [List.map_cons] at hfirst ⊢
  rw [readEntries, readEntries, Token.bare_isMark, hfirst]
  split
  · rfl
  cases readValue n (t :: ts) with
  | none => rfl
  | some p =>
    obtain ⟨k, r⟩ := p
    simp only [Option.map_some, bareRest, skipJoints_bare]
    cases skipJoints r with
    | nil => rfl
    | cons c r =>
      simp only [List.map_cons, Token.bare_isMark, skipJoints_bare, h.value]
      split
      · rfl
      cases readValue n (skipJoints r) with
      | none => rfl
      | some p =>
        obtain ⟨v, _ | ⟨e, r⟩⟩ := p
        · rfl
        simp only [Option.map_some, bareRest, List.map_cons, Token.bare_isMark, h.entries]
        split
        · rfl
        split
        · simp only [Option.map_map]; rfl
        · rfl

end

theorem readsBare (n : Nat) : ReadsBare n := by
  induction n with
  | zero =>
    refine ⟨fun ts => ?_, fun close ts => ?_, fun ts => ?_⟩ <;>
      cases ts <;> simp [readValue, readItems, readEntries]
  | succ n ih =>
    refine ⟨fun ts => ?_, fun close ts => ?_, fun ts => ?_⟩
    · cases ts with
      | nil => simp [readValue]
      | cons t ts => exact ih.value_succ ts
    · cases ts with
      | nil => simp [readItems]
      | cons t ts => exact ih.items_succ ts close
    · cases ts with
      | nil => simp [readEntries]
      | cons t ts => exact ih.entries_succ ts

/-- Tokens that are the same without their blank text are the same literal. -/
theorem ofTokens?_of_bare {ts us : List Token} (h : us.map Token.bare = ts.map Token.bare) :
    ofTokens? us = ofTokens? ts := by
  have hbare : ∀ vs, ofTokens? vs = ofTokens? (vs.map Token.bare) := by
    intro vs
    simp only [ofTokens?, List.filter_map, List.length_map, (readsBare _).value]
    generalize hf : vs.filter _ = fs
    have hf' : vs.filter ((fun t => t.kind ≠ .comment && t.kind ≠ .newline) ∘ Token.bare) = fs := hf
    simp only [hf']
    cases readValue (2 * fs.length + 2) fs with
    | none => rfl
    | some p =>
      obtain ⟨v, _ | ⟨e, r⟩⟩ := p <;> rfl
  rw [hbare us, h, ← hbare ts]

end Literal
end Pipewright
