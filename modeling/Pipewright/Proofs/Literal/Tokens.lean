import Pipewright.Literal.Printer
import Pipewright.Proofs.Entries
import Pipewright.Proofs.Source.Lexing

/-! The tokens of a printed value. -/
namespace Pipewright.Literal
open Text Source

/-- Values of constants, integers and texts, and lists and maps of such values, where integers,
and texts and keys, satisfy given conditions. -/
inductive Plain (text : String → Prop) (whole : Int → Prop) : Literal → Prop where
  | none : Plain text whole .none
  | bool (b : Bool) : Plain text whole (.bool b)
  | int {i : Int} (h : whole i) : Plain text whole (.int i)
  | str {s : String} (h : text s) : Plain text whole (.str s)
  | list {items : List Literal} (h : ∀ v ∈ items, Plain text whole v) :
      Plain text whole (.list items)
  | map {entries : List (String × Literal)} (ordered : Entries.Ordered entries)
      (names : ∀ e ∈ entries, text e.1) (h : ∀ e ∈ entries, Plain text whole e.2) :
      Plain text whole (.map entries)

def mark (gap : List Char) (c : Char) : Token := ⟨gap, .mark, [c]⟩

def intTokens (gap : List Char) : Int → List Token
  | .ofNat n => [⟨gap, .whole, Nat.toDigits 10 n⟩]
  | .negSucc n => [mark gap '-', ⟨[], .whole, Nat.toDigits 10 (n + 1)⟩]

mutual
/-- The tokens of a printed value; `gap` stands before the first of them. -/
def tokens (gap : List Char) : Literal → List Token
  | .none => [⟨gap, .word, "None".toList⟩]
  | .bool true => [⟨gap, .word, "True".toList⟩]
  | .bool false => [⟨gap, .word, "False".toList⟩]
  | .int i => intTokens gap i
  | .str s => [⟨gap, .string, quote s.toList⟩]
  | .list items => mark gap '[' :: (itemTokens [] items ++ [mark [] ']'])
  | .map entries => mark gap '{' :: (entryTokens [] entries ++ [mark [] '}'])
  | .float _ | .expr _ => []

def itemTokens (gap : List Char) : List Literal → List Token
  | [] => []
  | [v] => tokens gap v
  | v :: w :: r => tokens gap v ++ mark [] ',' :: itemTokens [' '] (w :: r)

def entryTokens (gap : List Char) : List (String × Literal) → List Token
  | [] => []
  | [(k, v)] => ⟨gap, .string, quote k.toList⟩ :: mark [] ':' :: tokens [' '] v
  | (k, v) :: e :: r =>
    ⟨gap, .string, quote k.toList⟩ :: mark [] ':' ::
      (tokens [' '] v ++ mark [] ',' :: entryTokens [' '] (e :: r))
end

/-! Reading of characters -/

/-- A text that can be written between quotes in a script. -/
def IsText (s : String) : Prop := '\x00' ∉ s.toList

instance : DecidablePred IsText := fun s => inferInstanceAs (Decidable ('\x00' ∉ s.toList))

/-- Whether the printed form of a value is read as its tokens, in front of any parted text. -/
def Lexed (v : Literal) : Prop :=
  ∀ gap rest, Parted rest →
    lexFrom gap (chars v ++ rest) = (tokens gap v ++ (lexFrom [] rest).1, (lexFrom [] rest).2)

theorem lexed_word {v : Literal} {c : Char} {cs : List Char} (hv : chars v = c :: cs)
    (ht : ∀ gap, tokens gap v = [⟨gap, .word, c :: cs⟩]) (hg : isGap c = false)
    (hs : isWordStart c = true) (hcs : ∀ d ∈ cs, isWordChar d = true) : Lexed v := by
  intro gap rest hr
  rw [hv, lexFrom_word hg hs hcs hr, ht]
  rfl

theorem lexed_int (i : Int) : Lexed (.int i) := by
  intro gap rest hr
  -- The sign of a negative number is a mark of its own.
  cases i with
  | ofNat n =>
    rw [chars, toString_ofNat, lexFrom_numeral (numeral_toDigits n) hr]
    rfl
  | negSucc n =>
    have hdigits := lexFrom_numeral (numeral_toDigits (n + 1)) hr []
    obtain ⟨c, ds, hn, hc, -⟩ := exists_toDigits (n + 1)
    have hhead : ∀ d ∈ (Nat.toDigits 10 (n + 1) ++ rest).head?, d ≠ '=' ∧ d ≠ '>' := by
      have hd := of_isDigit (p := fun d => d ≠ '=' ∧ d ≠ '>') hc (by decide)
      simpa [hn] using hd
    rw [chars, toString_negSucc, List.cons_append, lexFrom_sign (by decide) hhead, hdigits]
    rfl

theorem lexFrom_colon (gap rest : List Char) :
    lexFrom gap (':' :: ' ' :: rest) =
      (mark gap ':' :: (lexFrom [' '] rest).1, (lexFrom [' '] rest).2) := by
  rw [lexFrom_mark (by decide) rfl, lexFrom_gap (by decide)]
  rfl

theorem lexFrom_comma (gap rest : List Char) :
    lexFrom gap (',' :: ' ' :: rest) =
      (mark gap ',' :: (lexFrom [' '] rest).1, (lexFrom [' '] rest).2) := by
  rw [lexFrom_bracket (by decide), lexFrom_gap (by decide)]
  rfl

theorem lexFrom_items {items : List Literal} (h : ∀ v ∈ items, Lexed v) (hne : items ≠ [])
    (gap : List Char) {rest : List Char} (hr : Parted rest) :
    lexFrom gap (itemChars items ++ rest) =
      (itemTokens gap items ++ (lexFrom [] rest).1, (lexFrom [] rest).2) := by
  induction items generalizing gap with
  | nil => exact absurd rfl hne
  | cons v items ih =>
    obtain ⟨hv, hitems⟩ := List.forall_mem_cons.1 h
    cases items with
    | nil => exact hv gap rest hr
    | cons w items =>
      rw [itemChars, List.append_assoc, List.cons_append, List.cons_append,
        hv gap _ (parted_cons (c := ',') (by decide) _), lexFrom_comma,
        ih hitems (List.cons_ne_nil w items), itemTokens]
      simp

theorem lexFrom_key {k : String} (hk : IsText k) (gap rest : List Char) :
    lexFrom gap (quote k.toList ++ ':' :: ' ' :: rest) =
      (⟨gap, .string, quote k.toList⟩ :: mark [] ':' :: (lexFrom [' '] rest).1,
        (lexFrom [' '] rest).2) := by
  rw [lexFrom_quote hk (parted_cons (by decide) _), lexFrom_colon]

theorem lexFrom_entries {entries : List (String × Literal)} (hk : ∀ e ∈ entries, IsText e.1)
    (h : ∀ e ∈ entries, Lexed e.2) (hne : entries ≠ []) (gap : List Char) {rest : List Char}
    (hr : Parted rest) :
    lexFrom gap (entryChars entries ++ rest) =
      (entryTokens gap entries ++ (lexFrom [] rest).1, (lexFrom [] rest).2) := by
  induction entries generalizing gap with
  | nil => exact absurd rfl hne
  | cons e entries ih =>
    obtain ⟨k, v⟩ := e
    obtain ⟨hv, hentries⟩ := List.forall_mem_cons.1 h
    obtain ⟨hkey, hkeys⟩ := List.forall_mem_cons.1 hk
    cases entries with
    | nil =>
      rw [entryChars, List.append_assoc, List.cons_append, List.cons_append, lexFrom_key hkey,
        hv [' '] rest hr]
      rfl
    | cons f entries =>
      rw [entryChars, List.append_assoc, List.cons_append, List.cons_append, lexFrom_key hkey,
        List.append_assoc, List.cons_append, List.cons_append,
        hv [' '] _ (parted_cons (c := ',') (by decide) _), lexFrom_comma,
        ih hkeys hentries (List.cons_ne_nil f entries), entryTokens]
      simp

theorem lexed_list {items : List Literal} (h : ∀ v ∈ items, Lexed v) : Lexed (.list items) := by
  intro gap rest hr
  rw [chars, List.cons_append, List.append_assoc, List.singleton_append,
    lexFrom_bracket (by decide)]
  cases items with
  | nil =>
    rw [itemChars, List.nil_append, lexFrom_bracket (by decide)]
    rfl
  | cons v items =>
    rw [lexFrom_items h (List.cons_ne_nil v items) [] (parted_cons (by decide) _),
      lexFrom_bracket (by decide)]
    simp [tokens, mark]

theorem lexed_map {entries : List (String × Literal)} (hk : ∀ e ∈ entries, IsText e.1)
    (h : ∀ e ∈ entries, Lexed e.2) : Lexed (.map entries) := by
  intro gap rest hr
  rw [chars, List.cons_append, List.append_assoc, List.singleton_append,
    lexFrom_bracket (by decide)]
  cases entries with
  | nil =>
    rw [entryChars, List.nil_append, lexFrom_bracket (by decide)]
    rfl
  | cons e entries =>
    rw [lexFrom_entries hk h (List.cons_ne_nil e entries) [] (parted_cons (by decide) _),
      lexFrom_bracket (by decide)]
    simp [tokens, mark]

theorem Plain.lexed {whole : Int → Prop} {v : Literal} (h : Plain IsText whole v) : Lexed v := by
  induction h with
  | none =>
    exact lexed_word rfl (fun _ => rfl) (by decide) (by decide) (forall_mem_of_all (by decide))
  | bool b =>
    cases b with
    | true =>
      exact lexed_word rfl (fun _ => rfl) (by decide) (by decide) (forall_mem_of_all (by decide))
    | false =>
      exact lexed_word rfl (fun _ => rfl) (by decide) (by decide) (forall_mem_of_all (by decide))
  | int => exact lexed_int _
  | str h =>
    intro gap rest hr
    rw [chars, lexFrom_quote h hr, tokens]
    rfl
  | list _ ih => exact lexed_list ih
  | map _ names _ ih => exact lexed_map names ih

end Pipewright.Literal
