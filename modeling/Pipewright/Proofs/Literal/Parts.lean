import Pipewright.Proofs.Literal.Typed

/-! Tokens that are read as a value wherever they stand. -/
namespace Pipewright.Datum
open Text Source Literal

def Spacers (ts : List Token) : Prop := ∀ t ∈ ts, isSpacer t = true

/-- The tokens that the reader of values sees. -/
def solid (ts : List Token) : List Token :=
  ts.filter fun t => t.kind ≠ .comment && t.kind ≠ .newline

theorem solid_append (ts us : List Token) : solid (ts ++ us) = solid ts ++ solid us :=
  List.filter_append ..

theorem solid_cons {t : Token} (h : isSpacer t = false) (ts : List Token) :
    solid (t :: ts) = t :: solid ts := by
  simp only [isSpacer, Bool.or_eq_false_iff, decide_eq_false_iff_not] at h
  simp [solid, h]

theorem Spacers.solid {ts : List Token} (h : Spacers ts) : solid ts = [] := by
  refine List.filter_eq_nil_iff.2 fun t ht => ?_
  have hs := h t ht
  simp only [isSpacer, Bool.or_eq_true, decide_eq_true_eq] at hs
  rcases hs with hs | hs <;> simp [hs]

theorem Spacers.joinsLines {ts : List Token} (h : Spacers ts) (depth : Nat) (afterSign : Bool)
    (rest : List Token) :
    joinsLines (depth + 1) afterSign (ts ++ rest) = joinsLines (depth + 1) afterSign rest := by
  induction ts with
  | nil => rfl
  | cons t ts ih =>
    obtain ⟨ht, hts⟩ := List.forall_mem_cons.1 h
    simp only [isSpacer, Bool.or_eq_true, decide_eq_true_eq] at ht
    rw [List.cons_append, Literal.joinsLines]
    rcases ht with ht | ht <;> simp [ht, ih hts]

/-- Whether tokens part no statement, from a depth of brackets on, and keep the depth. -/
def Joins (least : Nat) (ts : List Token) : Prop :=
  ∀ depth, least ≤ depth → ∀ sign, ∃ sign', ∀ rest,
    joinsLines depth sign (ts ++ rest) = joinsLines depth sign' rest

/-- Tokens that are read as a value wherever they stand, from a depth of brackets on. -/
structure ReadAs (least : Nat) (ts : List Token) (v : Datum) : Prop where
  starts : ∃ t us, solid ts = t :: us ∧ t.isMark "]" = false ∧ t.isMark "\x7d" = false
  joins : Joins least ts
  reads : ∀ n rest, (solid ts).length ≤ n → (∀ t ∈ rest.head?, t.kind ≠ .string) →
    readValue n (solid ts ++ rest) = some (v, rest)

/-- Tokens that are read as a value and are a whole statement: no spacers and no end of a statement
stand at their ends. -/
structure Stands (v : Datum) (ts : List Token) : Prop extends ReadAs 0 ts v where
  first : ∀ t ∈ ts.head?, isSpacer t = false
  last : ∀ t ∈ ts.getLast?, isSpacer t = false ∧ t.isMark ";" = false ∧ t.isMark "," = false

/-- Tokens between spacers. -/
theorem ReadAs.among {ts ss ss' : List Token} {v : Datum} (h : ReadAs 0 ts v) (hs : Spacers ss)
    (hs' : Spacers ss') : ReadAs 1 (ss ++ (ts ++ ss')) v := by
  have hsolid : solid (ss ++ (ts ++ ss')) = solid ts := by
    rw [solid_append, solid_append, hs.solid, hs'.solid, List.nil_append, List.append_nil]
  refine ⟨hsolid ▸ h.starts, fun depth hd sign => ?_, hsolid ▸ h.reads⟩
  obtain ⟨d, rfl⟩ := Nat.exists_eq_add_one.2 hd
  obtain ⟨sign', hjoins⟩ := h.joins (d + 1) (Nat.zero_le _) sign
  refine ⟨sign', fun rest => ?_⟩
  rw [List.append_assoc, hs.joinsLines, List.append_assoc, hjoins, hs'.joinsLines]

/-- A value of one token, which the reader takes as it stands. -/
theorem stands_token {t : Token} {l : Literal} {v : Datum} (hl : leaf? l = some v)
    (hk : t.kind ∉ [.mark, .comment, .newline])
    (h : ∀ n rest, (∀ t ∈ rest.head?, t.kind ≠ .string) →
      Literal.readValue (n + 1) (t :: rest) = some (l, rest)) : Stands v [t] := by
  simp only [List.mem_cons, List.not_mem_nil, or_false, not_or] at hk
  obtain ⟨hm, hc, hn⟩ := hk
  have hspacer : isSpacer t = false := by simp [isSpacer, hc, hn]
  have hmark : ∀ m, t.isMark m = false := fun m => by simp [Token.isMark, hm]
  have hsolid : solid [t] = [t] := solid_cons hspacer []
  refine ⟨⟨⟨t, [], hsolid, hmark _, hmark _⟩, fun depth _ sign => ⟨false, fun rest => ?_⟩,
    fun n rest hlen hr => ?_⟩, by simpa using hspacer, by simpa [hmark] using hspacer⟩
  · simp [joinsLines, hc, hn, Token.opens, Token.closes, hmark]
  · rw [hsolid] at hlen ⊢
    obtain ⟨n, rfl⟩ := Nat.exists_eq_add_one.2 (Nat.zero_lt_of_lt hlen)
    have hread := h n rest hr
    simp [readValue, hmark, hread, hl]

theorem stands_word {gap text : List Char} {l : Literal} {v : Datum} (hl : leaf? l = some v)
    (hv : wordValue? ⟨gap, .word, text⟩ = some l) : Stands v [⟨gap, .word, text⟩] :=
  stands_token hl (by simp) fun n rest _ => by simp [Literal.readValue, hv]

theorem stands_numeral {w : List Char} {n : Nat} (h : Numeral w n) (hn : n < Nat.pow 2 63)
    (gap : List Char) : Stands (.int n) [⟨gap, .whole, w⟩] :=
  stands_token (l := .int n) rfl (by simp) fun _ rest _ => by
    simp [Literal.readValue, (wholeValue?_numeral h).trans (if_pos hn)]

theorem stands_joined {gap text : List Char} {s : String}
    (h : joinStrings? [⟨gap, .string, text⟩] = some (.str s)) :
    Stands (.str s) [⟨gap, .string, text⟩] := by
  refine stands_token (l := .str s) rfl (by simp) fun n rest hr => ?_
  have ht : takeStrings rest = ([], rest) := by
    cases rest with
    | nil => rfl
    | cons t ts => simp [takeStrings, hr t rfl]
  simp [Literal.readValue, ht, h]

theorem stands_string {q : Char} {w cs : List Char} (hq : q = '\'' ∨ q = '"')
    (h : Written q w cs) (gap : List Char) :
    Stands (.str (String.ofList cs)) [⟨gap, .string, q :: (w ++ [q])⟩] :=
  stands_joined (joinStrings?_written hq h gap)

theorem solid_mark (gap : List Char) (c : Char) (ts : List Token) :
    solid (mark gap c :: ts) = mark gap c :: solid ts := solid_cons rfl ts

theorem stands_signed {c : Char} (hc : c = '-' ∨ c = '+') {ts : List Token} {i : Int}
    (h : Stands (.int i) ts) (gap : List Char) :
    Stands (.int (if c = '-' then -i else i)) (mark gap c :: ts) := by
  refine ⟨⟨⟨_, _, solid_mark gap c ts, ?_, ?_⟩, fun depth hd sign => ?_,
    fun n rest hlen hr => ?_⟩, by simp [isSpacer], ?_⟩
  · rcases hc with rfl | rfl <;> simp
  · rcases hc with rfl | rfl <;> simp
  · obtain ⟨sign', hjoins⟩ := h.joins depth hd true
    refine ⟨sign', fun rest => ?_⟩
    rw [← hjoins]
    rcases hc with rfl | rfl <;> simp [joinsLines, Token.opens, Token.closes]
  · rw [solid_mark] at hlen ⊢
    obtain ⟨n, rfl⟩ := Nat.exists_eq_add_one.2 (Nat.zero_lt_of_lt hlen)
    have hread := (agrees n).value _ _ _ (h.reads n rest (Nat.le_of_succ_le_succ hlen) hr)
    have hjoints := skipJoints_of_readValue hread
    rw [List.cons_append, readValue]
    rcases hc with rfl | rfl <;>
      simp [Literal.readValue, hjoints, hread, signed?, literal, leaf?]
  · obtain ⟨t, us, hne, -⟩ := h.starts
    cases ts with
    | nil => simp [solid] at hne
    | cons u us => simpa using h.last

/-! Tokens of a collection -/

/-- The tokens between the brackets of a collection and of its closing bracket. -/
inductive Body {α : Type} (close : Char) (part : List Token → α → Prop) :
    List Token → List α → Prop where
  | close {ss : List Token} (hs : Spacers ss) (gap : List Char) :
      Body close part (ss ++ [mark gap close]) []
  | last {ts : List Token} {a : α} (h : part ts a) (gap : List Char) :
      Body close part (ts ++ [mark gap close]) [a]
  | more {ts us : List Token} {a : α} {as : List α} (h : part ts a) (gap : List Char)
      (hs : Body close part us as) : Body close part (ts ++ mark gap ',' :: us) (a :: as)

/-- An entry of a dictionary: its key, its value and the colon between them. -/
def EntryAs (ts : List Token) (e : Key × Datum) : Prop :=
  ∃ ks gap vs, ts = ks ++ mark gap ':' :: vs ∧ ReadAs 1 ks (ofKey e.1) ∧ ReadAs 1 vs e.2

theorem joinsLines_mark {c : Char} (hc : c = ',' ∨ c = ':') (depth : Nat) (sign : Bool)
    (gap : List Char) (rest : List Token) :
    joinsLines depth sign (mark gap c :: rest) = joinsLines depth false rest := by
  rcases hc with rfl | rfl <;> simp [joinsLines, Token.opens, Token.closes]

theorem joinsLines_close {c : Char} (hc : c = ']' ∨ c = '}') (depth : Nat) (sign : Bool)
    (gap : List Char) (rest : List Token) :
    joinsLines (depth + 1) sign (mark gap c :: rest) = joinsLines depth false rest := by
  rcases hc with rfl | rfl <;> simp [joinsLines, Token.opens, Token.closes]

theorem EntryAs.joins {ts : List Token} {e : Key × Datum} (h : EntryAs ts e) :
    Joins 1 ts := by
  obtain ⟨ks, gap, vs, rfl, hk, hv⟩ := h
  intro depth hd sign
  obtain ⟨sign', hkey⟩ := hk.joins depth hd sign
  obtain ⟨sign'', hvalue⟩ := hv.joins depth hd false
  refine ⟨sign'', fun rest => ?_⟩
  rw [List.append_assoc, List.cons_append, hkey, joinsLines_mark (.inr rfl), hvalue]

section
variable {α : Type} {close : Char} {part : List Token → α → Prop} {ts : List Token} {as : List α}

theorem Body.joins (h : Body close part ts as) (hc : close = ']' ∨ close = '}')
    (hp : ∀ us a, part us a → Joins 1 us) (depth : Nat) (sign : Bool) :
    ∃ sign', ∀ rest, joinsLines (depth + 1) sign (ts ++ rest) = joinsLines depth sign' rest := by
  induction h generalizing sign with
  | close hs =>
    refine ⟨false, fun rest => ?_⟩
    rw [List.append_assoc, hs.joinsLines]
    exact joinsLines_close hc depth sign _ rest
  | last h =>
    obtain ⟨sign', hjoins⟩ := hp _ _ h (depth + 1) (Nat.le_add_left 1 depth) sign
    refine ⟨false, fun rest => ?_⟩
    rw [List.append_assoc, hjoins]
    exact joinsLines_close hc depth sign' _ rest
  | more h _ _ ih =>
    obtain ⟨sign', hjoins⟩ := hp _ _ h (depth + 1) (Nat.le_add_left 1 depth) sign
    obtain ⟨sign'', hrest⟩ := ih false
    refine ⟨sign'', fun rest => ?_⟩
    rw [List.append_assoc, List.cons_append, hjoins, joinsLines_mark (.inl rfl), hrest]

theorem Body.last_token (h : Body close part ts as) : ∃ us gap, ts = us ++ [mark gap close] := by
  induction h with
  | close _ gap => exact ⟨_, gap, rfl⟩
  | last _ gap => exact ⟨_, gap, rfl⟩
  | more _ _ _ ih =>
    obtain ⟨us, gap, rfl⟩ := ih
    exact ⟨_, gap, by rw [← List.cons_append, ← List.append_assoc]⟩

/-- Whether a reader takes one part and the mark behind it, and an end of its own. -/
structure Body.Reader (close : Char) (part : List Token → α → Prop)
    (read : (fuel : Nat) → List Token → Option (List α × List Token)) : Prop where
  ends : ∀ n gap rest, read (n + 1) (mark gap close :: rest) = some ([], rest)
  takes : ∀ {ts a}, part ts a → ∀ {n}, (solid ts).length ≤ n → ∀ {c}, c = close ∨ c = ',' →
    ∀ gap rest, read (n + 1) (solid ts ++ mark gap c :: rest) =
      if c = close then some ([a], rest) else (read n rest).map fun (as, r) => (a :: as, r)

theorem Body.Reader.reads {read : (fuel : Nat) → List Token → Option (List α × List Token)}
    (hr : Reader close part read) (hc : close = ']' ∨ close = '}') (h : Body close part ts as)
    {n : Nat} (hn : (solid ts).length ≤ n) (rest : List Token) :
    read n (solid ts ++ rest) = some (as, rest) := by
  have hcomma : ',' ≠ close := by rcases hc with rfl | rfl <;> decide
  induction h generalizing n with
  | close hs gap =>
    rw [solid_append, hs.solid, List.nil_append, solid_mark, List.length_cons] at hn
    obtain ⟨n, rfl⟩ := Nat.exists_eq_add_one.2 (Nat.zero_lt_of_lt hn)
    rw [solid_append, hs.solid, List.nil_append, solid_mark]
    exact hr.ends n gap rest
  | last h gap =>
    rw [solid_append, solid_mark, List.length_append, List.length_cons] at hn
    obtain ⟨n, rfl⟩ := Nat.exists_eq_add_one.2 (Nat.zero_lt_of_lt hn)
    rw [solid_append, solid_mark, List.append_assoc, List.cons_append,
      hr.takes h (by omega) (.inl rfl), if_pos rfl]
    rfl
  | more h gap _ ih =>
    rw [solid_append, solid_mark, List.length_append, List.length_cons] at hn
    obtain ⟨n, rfl⟩ := Nat.exists_eq_add_one.2 (Nat.zero_lt_of_lt hn)
    have hrest := ih (n := n) (by omega)
    rw [solid_append, solid_mark, List.append_assoc, List.cons_append,
      hr.takes h (by omega) (.inr rfl), if_neg hcomma, hrest]
    rfl

/-- A collection is joined, and read if its body is. -/
theorem Body.stands (h : Body close part ts as) {opening : Char}
    (hb : opening = '[' ∧ close = ']' ∨ opening = '{' ∧ close = '}')
    (hp : ∀ us a, part us a → Joins 1 us) {v : Datum} (gap : List Char)
    (hr : ∀ n rest, (solid ts).length ≤ n →
      readValue (n + 1) (mark gap opening :: (solid ts ++ rest)) = some (v, rest)) :
    Stands v (mark gap opening :: ts) := by
  have hc : close = ']' ∨ close = '}' := hb.imp And.right And.right
  refine ⟨⟨⟨_, _, solid_mark gap opening ts, ?_, ?_⟩, fun depth _ sign => ?_,
    fun n rest hn _ => ?_⟩, by simp [isSpacer], ?_⟩
  · rcases hb with ⟨rfl, -⟩ | ⟨rfl, -⟩ <;> simp
  · rcases hb with ⟨rfl, -⟩ | ⟨rfl, -⟩ <;> simp
  · obtain ⟨sign', hjoins⟩ := h.joins hc hp depth false
    refine ⟨sign', fun rest => ?_⟩
    rw [List.cons_append, ← hjoins]
    rcases hb with ⟨rfl, -⟩ | ⟨rfl, -⟩ <;> simp [joinsLines, Token.opens]
  · rw [solid_mark] at hn ⊢
    obtain ⟨n, rfl⟩ := Nat.exists_eq_add_one.2 (Nat.zero_lt_of_lt hn)
    exact hr n rest (Nat.le_of_succ_le_succ hn)
  · obtain ⟨us, gap', rfl⟩ := h.last_token
    rw [← List.cons_append, List.getLast?_append]
    rcases hc with rfl | rfl <;> simp [isSpacer]

end

/-- One item and the mark behind it. -/
theorem readItems_part {ts : List Token} {v : Datum} (h : ReadAs 1 ts v) {n : Nat}
    (hn : (solid ts).length ≤ n) {c : Char} (hc : c = ']' ∨ c = ',') (gap : List Char)
    (rest : List Token) :
    readItems (n + 1) (solid ts ++ mark gap c :: rest) =
      if c = ']' then some ([v], rest)
      else (readItems n rest).map fun (vs, r) => (v :: vs, r) := by
  have hread := h.reads n (mark gap c :: rest) hn (by simp)
  obtain ⟨t, us, ht, hclose, -⟩ := h.starts
  rw [ht, List.cons_append] at hread ⊢
  rw [readItems, hclose, hread]
  obtain rfl | rfl := hc <;> simp

theorem reader_readItems : Body.Reader ']' (ReadAs 1) readItems where
  ends n gap rest := by simp [readItems]
  takes h _ hn _ hc gap rest := readItems_part h hn hc gap rest

theorem key?_ofKey (k : Key) : key? (ofKey k) = some k := by
  cases k <;> rfl

/-- One entry and the mark behind it. -/
theorem readEntries_part {ts : List Token} {e : Key × Datum} (h : EntryAs ts e) {n : Nat}
    (hn : (solid ts).length ≤ n) {c : Char} (hc : c = '}' ∨ c = ',') (gap : List Char)
    (rest : List Token) :
    readEntries (n + 1) (solid ts ++ mark gap c :: rest) =
      if c = '}' then some ([e], rest)
      else (readEntries n rest).map fun (es, r) => (e :: es, r) := by
  obtain ⟨ks, gap', vs, rfl, hk, hv⟩ := h
  rw [solid_append, solid_mark, List.length_append, List.length_cons] at hn
  have hkey := hk.reads n (mark gap' ':' :: (solid vs ++ mark gap c :: rest)) (by omega) (by simp)
  have hvalue := hv.reads n (mark gap c :: rest) (by omega) (by simp)
  obtain ⟨t, us, ht, -, hclose⟩ := hk.starts
  rw [solid_append, solid_mark, List.append_assoc, List.cons_append]
  rw [ht, List.cons_append] at hkey ⊢
  rw [readEntries, hclose, hkey]
  simp only [Option.bind_some, key?_ofKey, Option.map_some, hvalue]
  obtain rfl | rfl := hc <;> simp

theorem reader_readEntries : Body.Reader '}' EntryAs readEntries where
  ends n gap rest := by simp [readEntries]
  takes h _ hn _ hc gap rest := readEntries_part h hn hc gap rest

theorem stands_list {ts : List Token} {vs : List Datum} (h : Body ']' (ReadAs 1) ts vs)
    (gap : List Char) : Stands (.list vs) (mark gap '[' :: ts) := by
  refine h.stands (.inl ⟨rfl, rfl⟩) (fun _ _ hv => hv.joins) gap fun n rest hn => ?_
  rw [readValue]
  simp [reader_readItems.reads (.inl rfl) h hn rest]

theorem stands_dict {ts : List Token} {es : List (Key × Datum)} (h : Body '}' EntryAs ts es)
    (gap : List Char) : Stands (.dict es) (mark gap '{' :: ts) := by
  refine h.stands (.inr ⟨rfl, rfl⟩) (fun _ _ he => he.joins) gap fun n rest hn => ?_
  rw [readValue]
  simp [reader_readEntries.reads (.inr rfl) h hn rest]

end Pipewright.Datum
