import Pipewright.Proofs.Literal.Grammar
import Pipewright.Proofs.Literal.Parts

/-! A text that stands for a value is read as the literal of the value. -/
namespace Pipewright
open Text Source Literal Datum

/-! Trivia -/

theorem Trivia.parted {cs rest : List Char} (h : Trivia cs) (hr : Parted rest) :
    Parted (cs ++ rest) := by
  have hall : ∀ c ∈ [' ', '\t', '\x0c'], isParting c = true := forall_mem_of_all (by decide)
  have hline : ∀ {e : List Char}, e ∈ lineEnds → ∀ r, Parted (e ++ r) := by
    intro e he r
    simp only [lineEnds, List.mem_cons, List.not_mem_nil, or_false] at he
    rcases he with rfl | rfl <;> exact parted_cons (by decide) _
  cases h with
  | nil => exact hr
  | blank hc => exact parted_cons (hall _ hc) _
  | line he => exact List.append_assoc .. ▸ hline he _
  | comment => exact parted_cons (by decide) _

theorem lexFrom_newline (gap rest : List Char) : lexFrom gap ('\n' :: rest) =
    (⟨gap, .newline, ['\n']⟩ :: (lexFrom [] rest).1, (lexFrom [] rest).2) :=
  lexFrom_single (by decide) rfl (by decide) gap

theorem lexFrom_line {e : List Char} (he : e ∈ lineEnds) (gap rest : List Char) :
    ∃ t, isSpacer t = true ∧
      lexFrom gap (e ++ rest) = (t :: (lexFrom [] rest).1, (lexFrom [] rest).2) := by
  simp only [lineEnds, List.mem_cons, List.not_mem_nil, or_false] at he
  rcases he with rfl | rfl
  · exact ⟨_, rfl, lexFrom_newline gap rest⟩
  · rw [List.cons_append, lexFrom_gap (by decide)]
    exact ⟨_, rfl, lexFrom_newline _ rest⟩

theorem lexFrom_comment {cs : List Char} (h : '\n' ∉ cs) (gap rest : List Char) :
    ∃ ss, Spacers ss ∧ lexFrom gap ('#' :: (cs ++ '\n' :: rest)) =
      (ss ++ (lexFrom [] rest).1, (lexFrom [] rest).2) := by
  have htake : (cs ++ '\n' :: rest).takeWhile (fun c => c ≠ '\n') = cs :=
    takeWhile_append (fun c hc => by simpa using ne_of_mem_of_not_mem hc h) (by simp)
  have hm : munch '#' (cs ++ '\n' :: rest) = (.comment, cs.length) := by
    rw [munch.eq_def, if_neg (by decide), if_pos rfl, htake]
  refine ⟨[⟨gap, .comment, '#' :: cs⟩, ⟨[], .newline, ['\n']⟩], by simp [Spacers, isSpacer], ?_⟩
  rw [lexFrom_token (by decide) hm (by decide), lexFrom_newline]
  rfl

/-- Trivia is read as spacers and blank text in front of what follows. -/
theorem Trivia.lexes {cs : List Char} (h : Trivia cs) (gap rest : List Char) :
    ∃ ss gap', Spacers ss ∧
      lexFrom gap (cs ++ rest) = (ss ++ (lexFrom gap' rest).1, (lexFrom gap' rest).2) := by
  induction h generalizing gap with
  | nil => exact ⟨[], gap, by simp [Spacers], rfl⟩
  | @blank c cs hc _ ih =>
    have hall : ∀ c ∈ [' ', '\t', '\x0c'], isGap c = true := forall_mem_of_all (by decide)
    rw [List.cons_append, lexFrom_gap (hall c hc)]
    exact ih (gap ++ [c])
  | line he _ ih =>
    obtain ⟨t, ht, hlex⟩ := lexFrom_line he gap _
    obtain ⟨ss, gap', hss, hrest⟩ := ih []
    rw [List.append_assoc, hlex, hrest]
    exact ⟨t :: ss, gap', List.forall_mem_cons.2 ⟨ht, hss⟩, rfl⟩
  | @comment text e cs ht he _ ih =>
    obtain ⟨ss, gap', hss, hrest⟩ := ih []
    -- A carriage return before the newline belongs to the comment.
    obtain ⟨r, hr, rfl⟩ : ∃ r, '\n' ∉ text ++ r ∧ e = r ++ ['\n'] := by
      have htext : '\n' ∉ text := fun hm => ht _ hm (by simp)
      simp only [lineEnds, List.mem_cons, List.not_mem_nil, or_false] at he
      rcases he with rfl | rfl
      · exact ⟨[], by simpa using htext, rfl⟩
      · exact ⟨['\r'], by simpa using htext, rfl⟩
    obtain ⟨us, hus, hlex⟩ := lexFrom_comment hr gap (cs ++ rest)
    refine ⟨us ++ ss, gap', List.forall_mem_append.2 ⟨hus, hss⟩, ?_⟩
    rw [hrest] at hlex
    simpa using hlex

/-! Text of a collection -/

/-- Whether a text is read as tokens of a kind, in front of what follows. -/
def LexesAt (P : List Token → Prop) (cs rest : List Char) : Prop :=
  ∀ gap, ∃ ts, P ts ∧
    lexFrom gap (cs ++ rest) = (ts ++ (lexFrom [] rest).1, (lexFrom [] rest).2)

/-- The same where blank text may be left in front of what follows. -/
def LexesInside (P : List Token → Prop) (cs rest : List Char) : Prop :=
  ∀ gap, ∃ ts gap', P ts ∧
    lexFrom gap (cs ++ rest) = (ts ++ (lexFrom gap' rest).1, (lexFrom gap' rest).2)

/-- Whether a text is read as tokens of a kind in front of any parted text. -/
def Lexes (P : List Token → Prop) (cs : List Char) : Prop :=
  ∀ rest, Parted rest → LexesAt P cs rest

theorem lexes_piece {α : Type} {p : Piece α} (hp : p.Spaced) {v : Datum} {rest : List Char}
    (h : LexesAt (Stands v) p.text (p.back ++ rest)) :
    LexesInside (ReadAs 1 · v) p.written rest := by
  intro gap
  obtain ⟨ss, gap₁, hss, hfront⟩ := hp.1.lexes gap (p.text ++ (p.back ++ rest))
  obtain ⟨ts, hts, htext⟩ := h gap₁
  obtain ⟨ss', gap₂, hss', hback⟩ := hp.2.lexes [] rest
  refine ⟨_, gap₂, hts.toReadAs.among hss hss', ?_⟩
  rw [Piece.written, List.append_assoc, List.append_assoc, hfront, htext, hback]
  simp

section
variable {α β : Type} {close : Char} {part : List Token → α → Prop} {written : β → List Char}
  {value : β → α} {ps : List β} {tail : List Char}

theorem lexFrom_close (hc : close = ']' ∨ close = '}') (gap rest : List Char) :
    lexFrom gap (close :: rest) =
      (mark gap close :: (lexFrom [] rest).1, (lexFrom [] rest).2) := by
  rcases hc with rfl | rfl <;> exact lexFrom_bracket (by decide) gap rest

theorem lexFrom_trivia (part : List Token → α → Prop) (hc : close = ']' ∨ close = '}')
    (h : Trivia tail) (gap rest : List Char) :
    ∃ ts, Body close part ts [] ∧
      lexFrom gap (tail ++ close :: rest) = (ts ++ (lexFrom [] rest).1, (lexFrom [] rest).2) := by
  obtain ⟨ss, gap', hss, hlex⟩ := h.lexes gap (close :: rest)
  refine ⟨_, .close hss gap', ?_⟩
  rw [hlex, lexFrom_close hc]
  simp

theorem parted_tail (hc : close = ']' ∨ close = '}') {parts : Bool} (ht : Tail parts tail)
    (rest : List Char) : Parted (tail ++ close :: rest) := by
  have hclose : Parted (close :: rest) := by
    rcases hc with rfl | rfl <;> exact parted_cons (by decide) rest
  cases ht with
  | empty h => exact h.parted hclose
  | nil => exact hclose
  | comma => exact parted_cons (by decide) _

/-- Texts with a separator in front of each, and the text behind them. -/
def behind (sep : List Char) : List (List Char) → (last : List Char) → List Char
  | [], last => last
  | text :: texts, last => sep ++ (text ++ behind sep texts last)

theorem joinWith_behind (sep text last : List Char) (texts : List (List Char)) :
    joinWith sep (text :: texts) ++ last = text ++ behind sep texts last := by
  induction texts generalizing text with
  | nil => rfl
  | cons t texts ih => simp [joinWith, behind, ih]

theorem parted_behind {last : List Char} (h : Parted last) (texts : List (List Char)) :
    Parted (behind [','] texts last) := by
  cases texts with
  | nil => exact h
  | cons => exact parted_cons (by decide) _

/-- Parts with commas between them, and what may stand behind the last of them. -/
theorem lexes_body (hc : close = ']' ∨ close = '}') {rest : List Char}
    (h : ∀ p qs, (p :: qs) <:+ ps → LexesInside (part · (value p)) (written p)
      (behind [','] (qs.map written) (tail ++ close :: rest)))
    (ht : Tail (!ps.isEmpty) tail) (gap : List Char) :
    ∃ ts, Body close part ts (ps.map value) ∧
      lexFrom gap (joinWith [','] (ps.map written) ++ (tail ++ close :: rest)) =
        (ts ++ (lexFrom [] rest).1, (lexFrom [] rest).2) := by
  induction ps generalizing gap with
  | nil =>
    cases ht with
    | empty hl => exact lexFrom_trivia part hc hl gap rest
  | cons p ps ih =>
    have hps := fun q qs (hq : (q :: qs) <:+ ps) => h q qs (hq.trans (List.suffix_cons p ps))
    obtain ⟨ts, gap', hts, hlex⟩ := h p ps List.suffix_rfl gap
    rw [List.map_cons, List.map_cons, joinWith_behind, hlex]
    cases ps with
    | nil =>
      simp only [List.map_nil, behind]
      cases ht with
      | nil =>
        refine ⟨_, .last hts gap', ?_⟩
        rw [List.nil_append, lexFrom_close hc]
        simp
      | comma hl =>
        obtain ⟨us, hus, hclose⟩ := lexFrom_trivia part hc hl [] rest
        refine ⟨_, .more hts gap' hus, ?_⟩
        rw [List.cons_append, lexFrom_bracket (by decide), hclose]
        simp [mark]
    | cons q ps =>
      obtain ⟨us, hus, hrest⟩ := ih hps ht []
      refine ⟨_, .more hts gap' hus, ?_⟩
      rw [List.map_cons (f := written), behind, List.singleton_append, lexFrom_bracket (by decide),
        ← joinWith_behind, ← List.map_cons, hrest]
      simp [mark]

end

/-! Text of a value -/

theorem lexFrom_gaps {cs : List Char} (h : ∀ c ∈ cs, isGap c = true) (gap rest : List Char) :
    lexFrom gap (cs ++ rest) = lexFrom (gap ++ cs) rest := by
  induction cs generalizing gap with
  | nil => rw [List.nil_append, List.append_nil]
  | cons c cs ih =>
    obtain ⟨hc, hcs⟩ := List.forall_mem_cons.1 h
    rw [List.cons_append, lexFrom_gap hc, ih hcs, List.append_assoc, List.singleton_append]

theorem lexes_word {l : Literal} {v : Datum} (hl : leaf? l = some v) {c : Char} {cs : List Char}
    (hg : isGap c = false) (hs : isWordStart c = true) (hcs : ∀ d ∈ cs, isWordChar d = true)
    (hv : ∀ gap, wordValue? ⟨gap, .word, c :: cs⟩ = some l) : Lexes (Stands v) (c :: cs) :=
  fun _ hr gap => ⟨_, stands_word hl (hv gap), lexFrom_word hg hs hcs hr gap⟩

/-- What stands between a sign and a value does not go on with the sign. -/
theorem head_ne {cs text : List Char} (hc : ∀ c ∈ cs.head?, c ≠ '=' ∧ c ≠ '>')
    (ht : ∃ c r, isFront c = true ∧ text = c :: r) (rest : List Char) :
    ∀ c ∈ (cs ++ (text ++ rest)).head?, c ≠ '=' ∧ c ≠ '>' := by
  cases cs with
  | nil =>
    obtain ⟨c, r, hfront, rfl⟩ := ht
    simp only [isFront, Bool.and_eq_true, decide_eq_true_eq] at hfront
    simpa using ⟨hfront.1.2, hfront.2⟩
  | cons c cs => simpa using hc c rfl

theorem Trivia.head_ne {cs : List Char} (h : Trivia cs) : ∀ c ∈ cs.head?, c ≠ '=' ∧ c ≠ '>' := by
  have hblank : ∀ c ∈ [' ', '\t', '\x0c'], c ≠ '=' ∧ c ≠ '>' := forall_mem_of_all (by decide)
  cases h with
  | nil => simp
  | blank hc => simpa using hblank _ hc
  | line he =>
    simp only [lineEnds, List.mem_cons, List.not_mem_nil, or_false] at he
    rcases he with rfl | rfl <;> simp
  | comment => simp

theorem lexes_signed {c : Char} (hc : c = '-' ∨ c = '+') {gap w : List Char} {i : Int}
    (hgap : ∀ d ∈ gap, d ∈ [' ', '\t']) (hfront : ∃ d r, isFront d = true ∧ w = d :: r)
    (h : Lexes (Stands (.int i)) w) :
    Lexes (Stands (.int (if c = '-' then -i else i))) (c :: (gap ++ w)) := by
  intro rest hr before
  have hblank : ∀ d ∈ [' ', '\t'], isGap d = true ∧ d ≠ '=' ∧ d ≠ '>' :=
    forall_mem_of_all (by decide)
  have hsign : c ∈ [':', '-', '+'] := by rcases hc with rfl | rfl <;> decide
  have hhead := head_ne (fun d hd => (hblank d (hgap d (List.mem_of_mem_head? hd))).2) hfront rest
  obtain ⟨ts, hts, hlex⟩ := h rest hr gap
  refine ⟨mark before c :: ts, stands_signed hc hts before, ?_⟩
  rw [List.cons_append, List.append_assoc, lexFrom_sign hsign hhead,
    lexFrom_gaps (fun d hd => (hblank d (hgap d hd)).1), List.nil_append, hlex]
  rfl

theorem Whole.lexes {w : List Char} {i : Int} (h : Whole w i) : Lexes (Stands (.int i)) w := by
  induction h with
  | numeral h hn =>
    exact fun rest hr gap => ⟨_, stands_numeral h hn gap, lexFrom_numeral h hr gap⟩
  | minus hg h ih => exact lexes_signed (.inl rfl) hg (Denotes.int h).front ih
  | plus hg h ih => exact lexes_signed (.inr rfl) hg (Denotes.int h).front ih

theorem lexes_entry {p : Pair} (hp : p.1.Spaced ∧ p.2.Spaced) {rest : List Char}
    (hk : LexesAt (Stands (ofKey p.1.value)) p.1.text
      (p.1.back ++ ':' :: (p.2.written ++ rest)))
    (hv : LexesAt (Stands p.2.value) p.2.text (p.2.back ++ rest))
    (hfront : ∃ c r, isFront c = true ∧ p.2.text = c :: r) :
    LexesInside (EntryAs · p.entry) p.written rest := by
  intro gap
  obtain ⟨ks, gap₁, hks, hkey⟩ := lexes_piece hp.1 hk gap
  obtain ⟨vs, gap₂, hvs, hvalue⟩ := lexes_piece hp.2 hv []
  have hhead : ∀ d ∈ (p.2.written ++ rest).head?, d ≠ '=' ∧ d ≠ '>' := by
    rw [Piece.written, List.append_assoc, List.append_assoc]
    exact head_ne hp.2.1.head_ne hfront (p.2.back ++ rest)
  refine ⟨_, gap₂, ⟨ks, gap₁, vs, rfl, hks, hvs⟩, ?_⟩
  rw [Pair.written, List.append_assoc, List.cons_append, hkey, lexFrom_sign (by decide) hhead,
    hvalue]
  simp [mark]

theorem lexes_enclosed {α β : Type} {opening close : Char} {v : Datum}
    (ho : opening = '[' ∨ opening = '{') (hc : close = ']' ∨ close = '}')
    {part : List Token → α → Prop} {written : β → List Char} {value : β → α} {ps : List β}
    {tail rest : List Char} (ht : Tail (!ps.isEmpty) tail)
    (h : ∀ p qs, (p :: qs) <:+ ps → LexesInside (part · (value p)) (written p)
      (behind [','] (qs.map written) (tail ++ close :: rest)))
    (hread : ∀ gap ts, Body close part ts (ps.map value) → Stands v (mark gap opening :: ts)) :
    LexesAt (Stands v) (enclosed opening close (ps.map written) tail) rest := by
  intro gap
  obtain ⟨ts, hts, hlex⟩ := lexes_body hc h ht []
  have hopen : opening ∈ ['[', ']', '{', '}', ','] := by rcases ho with rfl | rfl <;> decide
  refine ⟨mark gap opening :: ts, hread gap ts hts, ?_⟩
  rw [enclosed, List.cons_append, List.append_assoc, List.append_assoc, List.singleton_append,
    lexFrom_bracket hopen, hlex]
  rfl

theorem Denotes.lexes {text : List Char} {v : Datum} (h : Denotes text v) :
    Lexes (Stands v) text := by
  induction h with
  | none =>
    exact lexes_word (l := .none) rfl (by decide) (by decide) (forall_mem_of_all (by decide))
      fun _ => rfl
  | yes =>
    exact lexes_word (l := .bool true) rfl (by decide) (by decide) (forall_mem_of_all (by decide))
      fun _ => rfl
  | no =>
    exact lexes_word (l := .bool false) rfl (by decide) (by decide) (forall_mem_of_all (by decide))
      fun _ => rfl
  | int h => exact h.lexes
  | str hm h hw =>
    exact fun rest hr gap => ⟨_, stands_string hm h gap, lexFrom_string hm h hw hr gap⟩
  | @list ps tail spaced _ ht ih =>
    intro rest _
    refine lexes_enclosed (.inl rfl) (.inl rfl) ht (fun p qs hs => ?_)
      fun gap ts hts => stands_list hts gap
    have hp : p ∈ ps := hs.subset List.mem_cons_self
    have hbehind := parted_behind (parted_tail (.inl rfl) ht rest) (qs.map Piece.written)
    exact lexes_piece (spaced p hp) (ih p hp _ ((spaced p hp).2.parted hbehind))
  | @dict ps tail spaced _ h _ ht ihk ihv =>
    intro rest _
    refine lexes_enclosed (.inr rfl) (.inr rfl) ht (fun p qs hs => ?_)
      fun gap ts hts => stands_dict hts gap
    have hp : p ∈ ps := hs.subset List.mem_cons_self
    have hbehind := parted_behind (parted_tail (.inr rfl) ht rest) (qs.map Pair.written)
    have hcolon : ∀ r, Parted (':' :: r) := parted_cons (by decide)
    exact lexes_entry (spaced p hp) (ihk p hp _ ((spaced p hp).1.2.parted (hcolon _)))
      (ihv p hp _ ((spaced p hp).2.2.parted hbehind)) (h p hp).front

/-! The whole text -/

theorem dropEnd_of_last {m : String} {ts : List Token} (h : ∀ t ∈ ts.getLast?, t.isMark m = false) :
    dropEnd m ts = ts := by
  rw [dropEnd]
  cases hl : ts.getLast? with
  | none => rfl
  | some t => simp [h t hl]

theorem LexesAt.lex {P : List Token → Prop} {text : List Char} (h : LexesAt P text []) :
    P (Source.lex text) := by
  obtain ⟨ts, hts, hlex⟩ := h []
  rw [List.append_nil, lexFrom_nil, List.append_nil] at hlex
  rwa [Source.lex, hlex]

theorem Denotes.lex {text : List Char} {v : Datum} (h : Denotes text v) :
    Stands v (Source.lex text) :=
  (h.lexes [] parted_nil).lex

/-- A text stands for one value. -/
theorem Denotes.unique {text : List Char} {v w : Datum} (hv : Denotes text v)
    (hw : Denotes text w) : v = w := by
  have hread := hv.lex.reads (solid (Source.lex text)).length [] (Nat.le_refl _) (by simp)
  rw [hw.lex.reads _ [] (Nat.le_refl _) (by simp)] at hread
  cases hread
  rfl

/-- A text whose tokens are a whole statement is read as the literal of their value. -/
theorem read_of_stands {text : List Char} {v : Datum} (htrim : Text.trim text = text)
    (hts : Stands v (Source.lex text)) : Literal.read (String.ofList text) = v.literal := by
  have hfirst : (Source.lex text).dropWhile isSpacer = Source.lex text :=
    dropWhile_of_head hts.first
  have hlast : (Source.lex text).reverse.dropWhile isSpacer = (Source.lex text).reverse :=
    dropWhile_of_head fun t ht => (hts.last t (by simpa using ht)).1
  have hstatement : statementTokens text = Source.lex text := by
    simp only [statementTokens, hfirst, hlast, List.reverse_reverse,
      dropEnd_of_last fun t ht => (hts.last t ht).2.1]
  have hlines : joinsLines 0 false (Source.lex text) = true := by
    obtain ⟨sign, hjoins⟩ := hts.joins 0 (Nat.le_refl 0) false
    have hend := hjoins []
    rwa [List.append_nil] at hend
  have hvalue : ofTokens? (Source.lex text) = some v.literal := by
    have hread := (agrees _).value _ _ _
      (hts.reads (2 * (solid (Source.lex text)).length + 2) [] (by omega) (by simp))
    rw [List.append_nil, solid] at hread
    simp only [ofTokens?, hread]
  simp only [Literal.read, String.toList_ofList, htrim, hstatement, hlines, if_true,
    dropEnd_of_last fun t ht => (hts.last t ht).2.2, hvalue, Option.getD_some]

/-- A text that stands for a value is read as the literal of the value. -/
theorem Denotes.read {text : List Char} {v : Datum} (h : Denotes text v) :
    Literal.read (String.ofList text) = v.literal :=
  read_of_stands h.trim h.lex

end Pipewright
