import Pipewright.Proofs.Literal.ReadBack
import Pipewright.Proofs.Text.Trimming

/-! Printing a value and reading the text is the identity on values without doubles and
expressions. -/
namespace Pipewright.Literal
open Text Source

/-! A text of tokens that are one statement -/

theorem joinsLines_of_no_spacers {ts : List Token} (h : ∀ t ∈ ts, isSpacer t = false) (depth : Nat)
    (afterSign : Bool) : joinsLines depth afterSign ts = true := by
  induction ts generalizing depth afterSign with
  | nil => rfl
  | cons t ts ih =>
    obtain ⟨ht, hts⟩ := List.forall_mem_cons.1 h
    simp only [isSpacer, Bool.or_eq_false_iff, decide_eq_false_iff_not] at ht
    simp only [joinsLines, ht.1, ht.2, if_false]
    exact ih hts _ _

/-- Without comments and newlines, and no mark that may end a statement at their end, the tokens
of a text are the statement. -/
theorem statementTokens_of_lex {cs : List Char} {ts : List Token} (h : lex cs = ts)
    (hs : ∀ t ∈ ts, isSpacer t = false) (hend : dropEnd ";" ts = ts) : statementTokens cs = ts := by
  have hfirst : ts.dropWhile isSpacer = ts :=
    dropWhile_of_head fun t ht => hs t (List.mem_of_mem_head? ht)
  have hlast : ts.reverse.dropWhile isSpacer = ts.reverse :=
    dropWhile_of_head fun t ht => hs t (List.mem_reverse.1 (List.mem_of_mem_head? ht))
  simp only [statementTokens, h, hfirst, hlast, List.reverse_reverse, hend]

/-- A text that is one statement is read as the value of its tokens, or kept as it is. -/
theorem read_of_lex {cs : List Char} {ts : List Token} (htrim : trim cs = cs) (h : lex cs = ts)
    (hs : ∀ t ∈ ts, isSpacer t = false) (hend : ∀ m ∈ [";", ","], dropEnd m ts = ts)
    (htext : exprText ts = cs) :
    read (String.ofList cs) = (ofTokens? ts).getD (.expr (String.ofList cs)) := by
  have hsemi : dropEnd ";" ts = ts := hend ";" (by simp)
  have hcomma : dropEnd "," ts = ts := hend "," (by simp)
  have hlines := joinsLines_of_no_spacers hs 0 false
  have hitem : ((item? ts).map exprText).getD cs = cs := by
    rw [item?, hcomma, ite_self]
    split
    · exact htext
    · rfl
  simp only [read, String.toList_ofList, htrim, statementTokens_of_lex h hs hsemi, hlines, if_true,
    hcomma, hitem]

theorem readValue_of_ofTokens? {ts : List Token} {v : Literal} (h : ofTokens? ts = some v) :
    ∃ n, readValue (n + 1) (ts.filter fun t => t.kind ≠ .comment && t.kind ≠ .newline) =
      some (v, []) := by
  simp only [ofTokens?] at h
  split at h
  · rename_i hread
    cases h
    exact ⟨_, hread⟩
  · cases h

/-- What is read and no expression is read off the tokens. -/
theorem ofTokens?_of_read {cs : List Char} {v : Literal} (h : read (String.ofList cs) = v)
    (hv : ∀ text, v ≠ .expr text) :
    ofTokens? (dropEnd "," (statementTokens (trim cs))) = some v := by
  rw [read] at h
  simp only [String.toList_ofList] at h
  split at h
  · cases hvalue : ofTokens? (dropEnd "," (statementTokens (trim cs))) with
    | none =>
      rw [hvalue] at h
      exact absurd h.symm (hv _)
    | some w =>
      rw [hvalue] at h
      exact congrArg some h
  · exact absurd h.symm (hv _)

/-! A printed value starts and ends with characters that show. -/

theorem trim_int (i : Int) : trim (toString i).toList = (toString i).toList :=
  trim_of_all (forall_mem_toString_int (by decide) (by decide) i)

variable {text : String → Prop} {whole : Int → Prop} {v : Literal}

theorem Plain.trim_chars (h : Plain text whole v) : trim (chars v) = chars v := by
  cases h with
  | none => exact trim_of_all (forall_mem_of_all (by decide))
  | bool b => cases b <;> exact trim_of_all (forall_mem_of_all (by decide))
  | int => exact trim_int _
  | str => exact trim_of_enclosed (by decide) (by decide) _
  | list => exact trim_of_enclosed (by decide) (by decide) _
  | map => exact trim_of_enclosed (by decide) (by decide) _

/-! The tokens of a printed value are one statement. -/

theorem isSpacer_itemTokens {items : List Literal}
    (h : ∀ v ∈ items, ∀ gap, ∀ t ∈ tokens gap v, isSpacer t = false) (gap : List Char) :
    ∀ t ∈ itemTokens gap items, isSpacer t = false := by
  induction items generalizing gap with
  | nil => simp [itemTokens]
  | cons v items ih =>
    obtain ⟨hv, hitems⟩ := List.forall_mem_cons.1 h
    cases items with
    | nil => exact hv gap
    | cons w items =>
      rw [itemTokens]
      refine List.forall_mem_append.2 ⟨hv gap, ?_⟩
      exact List.forall_mem_cons.2 ⟨rfl, ih hitems [' ']⟩

theorem isSpacer_entryTokens {entries : List (String × Literal)}
    (h : ∀ e ∈ entries, ∀ gap, ∀ t ∈ tokens gap e.2, isSpacer t = false) (gap : List Char) :
    ∀ t ∈ entryTokens gap entries, isSpacer t = false := by
  induction entries generalizing gap with
  | nil => simp [entryTokens]
  | cons e entries ih =>
    obtain ⟨he, hentries⟩ := List.forall_mem_cons.1 h
    cases entries with
    | nil =>
      rw [entryTokens]
      exact List.forall_mem_cons.2 ⟨rfl, List.forall_mem_cons.2 ⟨rfl, he [' ']⟩⟩
    | cons f entries =>
      rw [entryTokens]
      refine List.forall_mem_cons.2 ⟨rfl, List.forall_mem_cons.2 ⟨rfl, ?_⟩⟩
      refine List.forall_mem_append.2 ⟨he [' '], ?_⟩
      exact List.forall_mem_cons.2 ⟨rfl, ih hentries [' ']⟩

theorem Plain.isSpacer_tokens (h : Plain text whole v) (gap : List Char) :
    ∀ t ∈ tokens gap v, isSpacer t = false := by
  induction h generalizing gap with
  | none => simp [tokens, isSpacer]
  | bool b => cases b <;> simp [tokens, isSpacer]
  | int => rename_i i _; cases i <;> simp [tokens, intTokens, isSpacer]
  | str => simp [tokens, isSpacer]
  | list _ ih =>
    rw [tokens]
    exact List.forall_mem_cons.2 ⟨rfl, List.forall_mem_append.2
      ⟨isSpacer_itemTokens ih [], List.forall_mem_cons.2 ⟨rfl, by simp⟩⟩⟩
  | map _ _ _ ih =>
    rw [tokens]
    exact List.forall_mem_cons.2 ⟨rfl, List.forall_mem_append.2
      ⟨isSpacer_entryTokens ih [], List.forall_mem_cons.2 ⟨rfl, by simp⟩⟩⟩

/-- No mark that may end a statement ends the tokens. -/
theorem Plain.dropEnd_tokens (h : Plain text whole v) (gap : List Char) {m : String}
    (hm : m = ";" ∨ m = ",") : dropEnd m (tokens gap v) = tokens gap v := by
  have hlast : ∀ t ∈ (tokens gap v).getLast?, t.isMark m = false := by
    cases h with
    | none => simp [tokens, Token.isMark]
    | bool b => cases b <;> simp [tokens, Token.isMark]
    | int => rename_i i _; cases i <;> simp [tokens, intTokens, Token.isMark]
    | str => simp [tokens, Token.isMark]
    | list => obtain rfl | rfl := hm <;> simp [tokens, List.getLast?_cons]
    | map => obtain rfl | rfl := hm <;> simp [tokens, List.getLast?_cons]
  rw [dropEnd]
  cases hl : (tokens gap v).getLast? with
  | none => rfl
  | some t => simp [hlast t hl]

theorem Plain.lex_chars (h : Plain IsText whole v) : lex (chars v) = tokens [] v := by
  have hl := h.lexed [] [] parted_nil
  rw [List.append_nil, lexFrom_nil, List.append_nil] at hl
  rw [lex, hl]

theorem Plain.statementTokens_chars (h : Plain IsText whole v) :
    statementTokens (chars v) = tokens [] v :=
  statementTokens_of_lex h.lex_chars (h.isSpacer_tokens []) (h.dropEnd_tokens [] (.inl rfl))

theorem Plain.ofTokens?_tokens (h : Plain text IsWhole v) (gap : List Char) :
    ofTokens? (tokens gap v) = some v := by
  have hfilter : (tokens gap v).filter (fun t => t.kind ≠ .comment && t.kind ≠ .newline) =
      tokens gap v := by
    refine List.filter_eq_self.2 fun t ht => ?_
    have hs := h.isSpacer_tokens gap t ht
    simp only [isSpacer, Bool.or_eq_false_iff, decide_eq_false_iff_not] at hs
    simp [hs]
  have hread := h.readsBack.reads (2 * (tokens gap v).length + 2) gap [] (by omega) (by simp)
  rw [List.append_nil] at hread
  simp only [ofTokens?, hfilter, hread]

/-- A value of constants, integers and texts, and lists and maps of such values, is what its
written form is read as. -/
theorem read_script (h : Plain IsText IsWhole v) : read v.script = v := by
  have hlines := joinsLines_of_no_spacers (h.isSpacer_tokens []) 0 false
  simp only [read, script, String.toList_ofList, h.trim_chars, h.statementTokens_chars, hlines,
    if_true, h.dropEnd_tokens [] (.inr rfl), h.ofTokens?_tokens, Option.getD_some]

/-- A value with texts that need escapes, a negative number and empty collections. -/
def nestedValue : Literal :=
  .map [("", .list []), ("it's\n", .list [.int (-9223372036854775807), .str "\\n\t'", .none]),
    ("é\"", .map [("k", .bool true), ("l", .map [])])]

theorem plain_nestedValue : Plain IsText IsWhole nestedValue := by
  have hlist : Plain IsText IsWhole
      (.list [.int (-9223372036854775807), .str "\\n\t'", .none]) := by
    refine .list ?_
    simp only [List.forall_mem_cons]
    exact ⟨.int (by decide), .str (by decide), .none, by simp⟩
  have hmap : Plain IsText IsWhole (.map [("k", .bool true), ("l", .map [])]) := by
    refine .map (by decide) (by decide) ?_
    simp only [List.forall_mem_cons]
    exact ⟨.bool true, .map (by decide) (by decide) (by simp), by simp⟩
  refine .map (by decide) (by decide) ?_
  simp only [List.forall_mem_cons]
  exact ⟨.list (by simp), hlist, hmap, by simp⟩

theorem read_script_nestedValue :
    Plain IsText IsWhole nestedValue ∧ read nestedValue.script = nestedValue :=
  ⟨plain_nestedValue, read_script plain_nestedValue⟩

end Pipewright.Literal
