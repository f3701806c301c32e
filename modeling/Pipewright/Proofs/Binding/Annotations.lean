import Pipewright.Binding.Kind
import Pipewright.Proofs.Source.Lexing
import Pipewright.Proofs.Text.Trimming

/-! Annotations of parameters. The kind that is read off the text of an annotation is the one its
structure gives, however deep its arguments stand within each other. -/
namespace Pipewright
open Text

structure Identifier where
  first : Char
  rest : List Char
  starts : Source.isWordStart first = true
  goesOn : ∀ c ∈ rest, Source.isWordChar c = true

def Identifier.chars (i : Identifier) : List Char := i.first :: i.rest

/-- An identifier, or several with dots between them, with or without `typing.` in front of it. -/
structure TypeName where
  qualified : Bool
  first : Identifier
  more : List Identifier
  apart : more ≠ [] → first.chars ≠ "typing".toList

/-- A name without the module in front of it. -/
def TypeName.chars (n : TypeName) : List Char :=
  n.first.chars ++ n.more.flatMap fun i => '.' :: i.chars

def TypeName.text (n : TypeName) : List Char :=
  (if n.qualified then "typing.".toList else []) ++ n.chars

def TypeName.isList (n : TypeName) : Bool :=
  ["List", "Tuple", "Sequence", "list", "tuple"].any fun s => n.chars = s.toList

def TypeName.isUnion (n : TypeName) : Bool :=
  ["Union", "Optional"].any fun s => n.chars = s.toList

/-- Blanks behind a comma. -/
abbrev Gap := {cs : List Char // ∀ c ∈ cs, isBlank c = true}

mutual
/-- A name, or a name with arguments in brackets. -/
inductive TypeTerm where
  | bare (n : TypeName)
  | applied (n : TypeName) (as : TypeTerms)

/-- Arguments, with a comma and a gap between neighbours. -/
inductive TypeTerms where
  | last (a : TypeTerm)
  | more (a : TypeTerm) (gap : Gap) (as : TypeTerms)
end

mutual
def TypeTerm.text : TypeTerm → List Char
  | .bare n => n.text
  | .applied n as => n.text ++ '[' :: (as.text ++ [']'])

def TypeTerms.text : TypeTerms → List Char
  | .last a => a.text
  | .more a gap as => a.text ++ ',' :: (gap.1 ++ as.text)
end

mutual
/-- The kind that the structure of an annotation gives. -/
def TypeTerm.kind : TypeTerm → ArgumentKind
  | .bare n =>
    if n.chars = "int".toList then .int
    else if n.chars = "float".toList then .float
    else if n.isList then .list
    else .str
  | .applied n as => if n.isList || (n.isUnion && as.holdsList) then .list else .str

/-- Whether one of the arguments is a list. -/
def TypeTerms.holdsList : TypeTerms → Bool
  | .last a => a.kind = .list
  | .more a _ as => a.kind = .list || as.holdsList
end

/-! Names -/

/-- Characters that names consist of. -/
def isNamed (c : Char) : Bool := Source.isWordChar c || c = '.'

theorem isNamed_ne {c d : Char} (h : isNamed c = true) (hd : isNamed d = false) : c ≠ d := by
  rintro rfl
  rw [hd] at h
  cases h

theorem isBlank_of_isNamed {c : Char} (h : isNamed c = true) : isBlank c = false := by
  rw [isNamed, Bool.or_eq_true, decide_eq_true_eq] at h
  rcases h with h | rfl
  · exact Source.isBlank_of_isWordChar h
  · decide

theorem Identifier.isWordChar (i : Identifier) : ∀ c ∈ i.chars, Source.isWordChar c = true :=
  List.forall_mem_cons.2 ⟨by simp [Source.isWordChar, i.starts], i.goesOn⟩

theorem Identifier.isNamed (i : Identifier) : ∀ c ∈ i.chars, isNamed c = true := fun c hc => by
  rw [Pipewright.isNamed, i.isWordChar c hc, Bool.true_or]

namespace TypeName
variable (n : TypeName)

theorem isNamed_chars : ∀ c ∈ n.chars, isNamed c = true := by
  refine List.forall_mem_append.2 ⟨n.first.isNamed, fun c hc => ?_⟩
  obtain ⟨i, -, hc⟩ := List.mem_flatMap.1 hc
  exact List.forall_mem_cons.2 ⟨by decide, i.isNamed⟩ c hc

theorem isNamed_text : ∀ c ∈ n.text, isNamed c = true := by
  refine List.forall_mem_append.2 ⟨?_, n.isNamed_chars⟩
  split
  · exact forall_mem_of_all (by decide)
  · simp

theorem text_ne_nil : n.text ≠ [] :=
  List.append_ne_nil_of_right_ne_nil _
    (List.append_ne_nil_of_left_ne_nil (List.cons_ne_nil _ _) _)

variable {n} {tail : List Char}

/-- Nothing is left to take off a name: only a dotted one could start with `typing.`. -/
theorem afterLead?_chars (ht : ∀ c ∈ tail.head?, isNamed c = false) :
    afterLead? "typing.".toList (n.chars ++ tail) = none := by
  cases h : afterLead? "typing.".toList (n.chars ++ tail) with
  | none => rfl
  | some r =>
    have hsplit : n.first.chars ++ (n.more.flatMap (fun i => '.' :: i.chars) ++ tail) =
        "typing".toList ++ '.' :: r := by
      have he := eq_of_afterLead? h
      rwa [chars, List.append_assoc] at he
    have hdot : Source.isWordChar '.' = false := by decide
    have hfront : ∀ c ∈ (n.more.flatMap (fun i => '.' :: i.chars) ++ tail).head?,
        Source.isWordChar c = false := by
      intro c hc
      cases hm : n.more with
      | nil =>
        rw [hm] at hc
        exact (Bool.or_eq_false_iff.1 (ht c hc)).1
      | cons i more =>
        rw [hm] at hc
        cases hc
        exact hdot
    have hword : ∀ c ∈ "typing".toList, Source.isWordChar c = true :=
      forall_mem_of_all (by decide)
    have hfirst : n.first.chars = "typing".toList := by
      rw [← takeWhile_append n.first.isWordChar hfront, hsplit]
      exact takeWhile_append hword (by simpa using hdot)
    rw [hfirst] at hsplit
    have hrest := List.append_cancel_left hsplit
    cases hm : n.more with
    | nil =>
      rw [hm, List.flatMap_nil, List.nil_append] at hrest
      rw [hrest] at ht
      exact absurd (ht '.' rfl) (by decide)
    | cons i more => exact absurd hfirst (n.apart (by simp [hm]))

theorem dropLeads_text (ht : ∀ c ∈ tail.head?, isNamed c = false) {fuel : Nat} (hf : 0 < fuel) :
    ArgumentKind.dropLeads "typing.".toList fuel (n.text ++ tail) = n.chars ++ tail := by
  have hstop : ∀ fuel, ArgumentKind.dropLeads "typing.".toList fuel (n.chars ++ tail) =
      n.chars ++ tail := by
    intro fuel
    cases fuel with
    | zero => rfl
    | succ fuel => rw [ArgumentKind.dropLeads, afterLead?_chars ht]
  obtain ⟨fuel, rfl⟩ := Nat.exists_eq_add_one.2 hf
  cases hq : n.qualified with
  | false =>
    rw [text, hq]
    exact hstop (fuel + 1)
  | true =>
    rw [text, hq, if_pos rfl, List.append_assoc, ArgumentKind.dropLeads, afterLead?_append]
    exact hstop fuel

end TypeName

/-! Ends of a text -/

mutual
/-- The text of an annotation up to the brackets that close it. -/
def TypeTerm.front : TypeTerm → List Char
  | .bare n => n.text
  | .applied n as => n.text ++ '[' :: as.front

def TypeTerms.front : TypeTerms → List Char
  | .last a => a.front
  | .more a gap as => a.text ++ ',' :: (gap.1 ++ as.front)
end

mutual
/-- The number of brackets at the end of an annotation. -/
def TypeTerm.closers : TypeTerm → Nat
  | .bare _ => 0
  | .applied _ as => as.closers + 1

def TypeTerms.closers : TypeTerms → Nat
  | .last a => a.closers
  | .more _ _ as => as.closers
end

mutual
theorem TypeTerm.text_eq (a : TypeTerm) :
    a.text = a.front ++ List.replicate a.closers ']' := by
  cases a with
  | bare n =>
    rw [TypeTerm.text, TypeTerm.front, TypeTerm.closers, List.replicate_zero,
      List.append_nil]
  | applied n as =>
    rw [TypeTerm.text, TypeTerm.front, TypeTerm.closers, as.text_eq, List.replicate_succ']
    simp only [List.append_assoc, List.cons_append]

theorem TypeTerms.text_eq (as : TypeTerms) :
    as.text = as.front ++ List.replicate as.closers ']' := by
  cases as with
  | last a => exact a.text_eq
  | more a gap as =>
    rw [TypeTerms.text, TypeTerms.front, TypeTerms.closers, as.text_eq]
    simp only [List.append_assoc, List.cons_append]
end

/-- Whether a text starts and ends with a character of a name. -/
def Enclosed (cs : List Char) : Prop :=
  (∃ c ∈ cs.head?, isNamed c = true) ∧ ∃ c ∈ cs.getLast?, isNamed c = true

theorem Enclosed.append {cs ds : List Char} (h : Enclosed cs) (hd : Enclosed ds)
    (between : List Char) : Enclosed (cs ++ (between ++ ds)) := by
  obtain ⟨⟨c, hc, hfirst⟩, -⟩ := h
  obtain ⟨-, d, hlast, hd⟩ := hd
  have hcs : cs ≠ [] := List.ne_nil_of_mem (List.mem_of_mem_head? hc)
  have hds : ds ≠ [] := List.ne_nil_of_mem (List.mem_of_getLast? hlast)
  refine ⟨⟨c, ?_, hfirst⟩, d, ?_, hd⟩
  · rwa [List.head?_append_of_ne_nil cs hcs]
  · rwa [← List.append_assoc, List.getLast?_append_of_ne_nil _ hds]

theorem TypeName.enclosed (n : TypeName) : Enclosed n.text := by
  have hne := n.text_ne_nil
  exact ⟨⟨_, List.head?_eq_some_head hne, n.isNamed_text _ (List.head_mem hne)⟩,
    _, List.getLast?_eq_some_getLast hne, n.isNamed_text _ (List.getLast_mem hne)⟩

mutual
theorem TypeTerm.enclosed (a : TypeTerm) : Enclosed a.front := by
  cases a with
  | bare n => exact n.enclosed
  | applied n as => exact n.enclosed.append as.enclosed ['[']

theorem TypeTerms.enclosed (as : TypeTerms) : Enclosed as.front := by
  cases as with
  | last a => exact a.enclosed
  | more a gap as =>
    have hsplit : (TypeTerms.more a gap as).front =
        a.front ++ (List.replicate a.closers ']' ++ ',' :: gap.1 ++ as.front) := by
      rw [TypeTerms.front, a.text_eq]
      simp only [List.append_assoc, List.cons_append]
    rw [hsplit]
    exact a.enclosed.append as.enclosed _
end

namespace ArgumentKind

/-! Members -/

/-- Puts a text in front of the first of several. -/
def attach (cs : List Char) : List (List Char) → List (List Char)
  | [] => [cs]
  | m :: ms => (cs ++ m) :: ms

theorem attach_append (cs ds : List Char) (ms : List (List Char)) :
    attach (cs ++ ds) ms = attach cs (attach ds ms) := by
  cases ms <;> simp [attach]

theorem members_ne_nil (d : Int) (cs : List Char) : members d cs ≠ [] := by
  cases cs with
  | nil => simp [members]
  | cons c cs =>
    rw [members]
    split
    · simp
    · dsimp only
      split <;> simp

theorem attach_nil (d : Int) (cs : List Char) : attach [] (members d cs) = members d cs := by
  cases h : members d cs with
  | nil => exact absurd h (members_ne_nil d cs)
  | cons m ms => rfl

/-- How a bracket changes the depth. -/
def shift (c : Char) : Int :=
  if c = '[' || c = '(' then 1 else if c = ']' || c = ')' then -1 else 0

theorem members_cons {c : Char} {d : Int} (h : c = ',' → d ≠ 0) (cs : List Char) :
    members d (c :: cs) = attach [c] (members (d + shift c) cs) := by
  have hno : ¬(decide (c = ',') && decide (d = 0)) = true := by simpa using h
  have hdepth : (if c = '[' || c = '(' then d + 1 else if c = ']' || c = ')' then d - 1 else d) =
      d + shift c := by
    rw [shift]
    split
    · rfl
    · split
      · rfl
      · rw [Int.add_zero]
  rw [members, if_neg hno]
  simp only [hdepth]
  cases members (d + shift c) cs <;> rfl

/-- A text without brackets in which no comma counts. -/
theorem members_append {cs : List Char} {d : Int} (hs : ∀ c ∈ cs, shift c = 0)
    (hc : ∀ c ∈ cs, c = ',' → d ≠ 0) (rest : List Char) :
    members d (cs ++ rest) = attach cs (members d rest) := by
  induction cs with
  | nil => exact (attach_nil d rest).symm
  | cons c cs ih =>
    obtain ⟨hshift, hshifts⟩ := List.forall_mem_cons.1 hs
    obtain ⟨hcomma, hcommas⟩ := List.forall_mem_cons.1 hc
    rw [List.cons_append, members_cons hcomma, hshift, Int.add_zero, ih hshifts hcommas,
      ← attach_append, List.singleton_append]

theorem members_named {cs : List Char} (h : ∀ c ∈ cs, isNamed c = true) (d : Int)
    (rest : List Char) : members d (cs ++ rest) = attach cs (members d rest) := by
  refine members_append (fun c hc => ?_) (fun c hc he => ?_) rest
  · have hne : ∀ b, isNamed b = false → c ≠ b := fun b hb => isNamed_ne (h c hc) hb
    simp [shift, hne '[' (by decide), hne '(' (by decide), hne ']' (by decide),
      hne ')' (by decide)]
  · exact absurd he (isNamed_ne (h c hc) (by decide))

theorem members_gap (gap : Gap) (d : Int) (rest : List Char) :
    members d (gap.1 ++ rest) = attach gap.1 (members d rest) := by
  have hne : ∀ c ∈ gap.1, ∀ b, isBlank b = false → c ≠ b := by
    rintro c hc b hb rfl
    rw [gap.2 c hc] at hb
    cases hb
  refine members_append (fun c hc => ?_) (fun c hc he => ?_) rest
  · have hne := hne c hc
    simp [shift, hne '[' (by decide), hne '(' (by decide), hne ']' (by decide),
      hne ')' (by decide)]
  · exact absurd he (hne c hc ',' (by decide))

theorem members_closers (n : Nat) (d : Int) (rest : List Char) :
    members (d + n) (List.replicate n ']' ++ rest) =
      attach (List.replicate n ']') (members d rest) := by
  induction n with
  | zero => simp [attach_nil]
  | succ n ih =>
    have hshift : d + (n + 1 : Nat) + shift ']' = d + n := by
      have hone : shift ']' = -1 := by decide
      rw [hone]
      omega
    rw [List.replicate_succ, List.cons_append, members_cons (by simp), hshift, ih,
      ← attach_append, List.singleton_append]

/-- An annotation whose front is one member as far as its brackets reach is one member. -/
theorem members_text {a : TypeTerm} {d : Int}
    (h : ∀ rest, members d (a.front ++ rest) = attach a.front (members (d + a.closers) rest))
    (rest : List Char) : members d (a.text ++ rest) = attach a.text (members d rest) := by
  rw [a.text_eq, List.append_assoc, h, members_closers, ← attach_append]

mutual
/-- No comma of an annotation stands outside of its brackets. -/
theorem members_front (a : TypeTerm) {d : Int} (hd : 0 ≤ d) (rest : List Char) :
    members d (a.front ++ rest) = attach a.front (members (d + a.closers) rest) := by
  cases a with
  | bare n => simpa [TypeTerm.front, TypeTerm.closers] using members_named n.isNamed_text d rest
  | applied n as =>
    have hopen : shift '[' = 1 := by decide
    have hpos : 0 < d + 1 := Int.lt_add_one_of_le hd
    have hdepth : d + 1 + as.closers = d + (as.closers + 1 : Nat) := by omega
    rw [TypeTerm.front, TypeTerm.closers, List.append_assoc, List.cons_append,
      members_named n.isNamed_text, members_cons (by simp), hopen,
      members_fronts as hpos, hdepth, ← attach_append, ← attach_append]
    simp

theorem members_fronts (as : TypeTerms) {d : Int} (hd : 0 < d) (rest : List Char) :
    members d (as.front ++ rest) = attach as.front (members (d + as.closers) rest) := by
  cases as with
  | last a => exact members_front a (Int.le_of_lt hd) rest
  | more a gap as =>
    have hcomma : shift ',' = 0 := by decide
    rw [TypeTerms.front, TypeTerms.closers, List.append_assoc, List.cons_append,
      List.append_assoc, members_text fun rest => members_front a (Int.le_of_lt hd) rest,
      members_cons fun _ => Int.ne_of_gt hd, hcomma, Int.add_zero, members_gap,
      members_fronts as hd, ← attach_append, ← attach_append, ← attach_append]
    simp
end

/-- The arguments as they are split, the last of them without its closing brackets. -/
def pieces (gap : Gap) : TypeTerms → List (List Char)
  | .last a => [gap.1 ++ a.front]
  | .more a next as => (gap.1 ++ a.text) :: pieces next as

/-- Arguments are split at the commas between them. -/
theorem members_arguments (as : TypeTerms) (gap : Gap) :
    members 0 (gap.1 ++ as.front) = pieces gap as := by
  cases as with
  | last a =>
    have hfront := members_front a (Int.le_refl 0) []
    rw [List.append_nil] at hfront
    rw [members_gap, TypeTerms.front, hfront]
    simp [members, attach, pieces]
  | more a next as =>
    have hsplit : members 0 (',' :: (next.1 ++ as.front)) =
        [] :: members 0 (next.1 ++ as.front) := by
      rw [members]
      rfl
    rw [members_gap, TypeTerms.front, members_text fun rest =>
      members_front a (Int.le_refl 0) rest, hsplit, members_arguments as next]
    simp [attach, pieces]

theorem length_pieces {as : TypeTerms} {gap : Gap} {m : List Char} (h : m ∈ pieces gap as) :
    m.length ≤ (gap.1 ++ as.front).length := by
  cases as with
  | last a => rw [List.mem_singleton.1 h, TypeTerms.front]
  | more a next as =>
    rw [pieces] at h
    simp only [TypeTerms.front, List.length_append, List.length_cons]
    rcases List.mem_cons.1 h with rfl | h
    · rw [List.length_append]
      omega
    · have hrest := length_pieces h
      rw [List.length_append] at hrest
      omega

/-! Kinds -/

theorem dropBytes?_append (cs rest : List Char) :
    dropBytes? (String.ofList cs).utf8ByteSize (cs ++ rest) = some rest := by
  induction cs with
  | nil => cases rest <;> rfl
  | cons c cs ih =>
    have hpos := c.utf8Size_pos
    obtain ⟨n, hn⟩ : ∃ n, c.utf8Size + (String.ofList cs).utf8ByteSize = n + 1 :=
      Nat.exists_eq_add_one.2 (by omega)
    have hsize : (String.ofList (c :: cs)).utf8ByteSize = n + 1 := by
      rw [String.ofList_cons, String.utf8ByteSize_append, String.utf8ByteSize_singleton, hn]
    rw [hsize, List.cons_append, dropBytes?, if_pos (by omega), ← hn, Nat.add_sub_cancel_left, ih]

theorem last_closed {cs : List Char} (h : Enclosed cs) (k : Nat) :
    ∀ c ∈ (cs ++ List.replicate k ']').getLast?, isBlank c = false := by
  obtain ⟨-, d, hd, hn⟩ := h
  intro c hc
  cases k with
  | zero =>
    rw [List.replicate_zero, List.append_nil] at hc
    exact Option.mem_unique hc hd ▸ isBlank_of_isNamed hn
  | succ k =>
    rw [List.replicate_succ', ← List.append_assoc, List.getLast?_concat] at hc
    cases hc
    decide

/-- The brackets around arguments are taken off, those that close the last of them too. -/
theorem argumentsText_text (n : TypeName) (as : TypeTerms) (k : Nat) :
    argumentsText (String.ofList n.chars).utf8ByteSize
      (n.chars ++ '[' :: (as.front ++ List.replicate k ']')) = as.front := by
  obtain ⟨⟨c, hc, hfirst⟩, d, hd, hlast⟩ := as.enclosed
  have hne : as.front ≠ [] := List.ne_nil_of_mem (List.mem_of_mem_head? hc)
  have htrim : trim ('[' :: (as.front ++ List.replicate k ']')) =
      '[' :: (as.front ++ List.replicate k ']') := by
    refine trim_eq_self (by simp [isBlank]) fun c hc => ?_
    rw [List.getLast?_cons_of_ne_nil (List.append_ne_nil_of_left_ne_nil hne _)] at hc
    exact last_closed as.enclosed k c hc
  have hopen : ('[' :: (as.front ++ List.replicate k ']')).dropWhile (· = '[') =
      as.front ++ List.replicate k ']' := by
    rw [List.dropWhile_cons_of_pos (by simp)]
    refine dropWhile_of_head fun e he => ?_
    rw [List.head?_append_of_ne_nil _ hne] at he
    exact decide_eq_false (Option.mem_unique he hc ▸ isNamed_ne hfirst (by decide))
  have hclose : (as.front ++ List.replicate k ']').reverse.dropWhile (· = ']') =
      as.front.reverse := by
    rw [List.reverse_append, List.reverse_replicate]
    refine dropWhile_append (fun e he => decide_eq_true (List.eq_of_mem_replicate he)) ?_
    intro e he
    rw [List.head?_reverse] at he
    exact decide_eq_false (Option.mem_unique he hd ▸ isNamed_ne hlast (by decide))
  rw [argumentsText, dropBytes?_append, Option.getD_some]
  simp only [htrim, hopen, hclose, List.reverse_reverse]

theorem head_chars (n : TypeName) {tail : List Char} (ht : ∀ c ∈ tail.head?, c = '[') :
    trim ((n.chars ++ tail).takeWhile (· ≠ '[')) = n.chars := by
  have hnamed : ∀ c ∈ n.chars, decide (c ≠ '[') = true := fun c hc =>
    decide_eq_true (isNamed_ne (n.isNamed_chars c hc) (by decide))
  rw [takeWhile_append hnamed fun c hc => by simp [ht c hc]]
  exact trim_of_all fun c hc => isBlank_of_isNamed (n.isNamed_chars c hc)

/-- One round of the reader, behind the blanks and the module in front of a name. -/
theorem ofAnnotationChars_succ (n : TypeName) (gap : Gap) {tail : List Char}
    (ht : ∀ c ∈ tail.head?, c = '[') (hl : ∀ c ∈ (n.text ++ tail).getLast?, isBlank c = false)
    (fuel : Nat) :
    ofAnnotationChars (fuel + 1) (gap.1 ++ (n.text ++ tail)) =
      if n.chars ++ tail = "int".toList then .int
      else if n.chars ++ tail = "float".toList then .float
      else if n.chars ++ tail = "list".toList || n.chars ++ tail = "tuple".toList then .list
      else if n.isList then .list
      else if n.isUnion then
        if (members 0 (argumentsText (String.ofList n.chars).utf8ByteSize (n.chars ++ tail))).any
          fun m => ofAnnotationChars fuel m = .list then .list else .str
      else .str := by
  have hne := n.text_ne_nil
  have htrim : trim (gap.1 ++ (n.text ++ tail)) = n.text ++ tail := by
    refine trim_of_ends gap.2 (fun c hc => ?_) hl
    rw [List.head?_append_of_ne_nil _ hne] at hc
    exact isBlank_of_isNamed (n.isNamed_text c (List.mem_of_mem_head? hc))
  have hdrop : dropLeads "typing.".toList (n.text ++ tail).length (n.text ++ tail) =
      n.chars ++ tail := by
    refine TypeName.dropLeads_text (fun c hc => ?_) ?_
    · rw [ht c hc]
      decide
    · exact List.length_pos_of_ne_nil (List.append_ne_nil_of_left_ne_nil hne _)
  have hname : ∀ s : String, decide (String.ofList n.chars = s) = decide (n.chars = s.toList) :=
    fun s => decide_eq_decide.2
      ⟨fun h => by rw [← h, String.toList_ofList], fun h => by rw [h, String.ofList_toList]⟩
  have hlist : ["List", "Tuple", "Sequence", "list", "tuple"].contains (String.ofList n.chars) =
      n.isList := by
    rw [List.contains_eq_any_beq, TypeName.isList]
    exact congrArg (List.any _) (funext hname)
  have hunion : (decide (String.ofList n.chars = "Union") ||
      decide (String.ofList n.chars = "Optional")) = n.isUnion := by
    rw [hname, hname, TypeName.isUnion, List.any_cons, List.any_cons, List.any_nil, Bool.or_false]
  rw [ofAnnotationChars]
  simp only [htrim, hdrop, head_chars n ht, hlist, hunion, decide_eq_true_eq]

/-- A name without arguments has no member that is a list. -/
theorem ofAnnotationChars_bare (n : TypeName) (gap : Gap) (fuel : Nat) :
    ofAnnotationChars (fuel + 1) (gap.1 ++ n.text) = (TypeTerm.bare n).kind := by
  have hnil : ofAnnotationChars fuel [] = .str := by cases fuel <;> rfl
  have hdrop : dropBytes? (String.ofList n.chars).utf8ByteSize n.chars = some [] := by
    simpa using dropBytes?_append n.chars []
  have hmembers : members 0 (argumentsText (String.ofList n.chars).utf8ByteSize n.chars) =
      [[]] := by
    rw [argumentsText, hdrop]
    rfl
  have htail : ∀ c ∈ ([] : List Char).head?, c = '[' := by simp
  have hround := ofAnnotationChars_succ n gap htail (by simpa using last_closed n.enclosed 0) fuel
  have hunion : (if n.isUnion = true then if (decide (ArgumentKind.str = .list) || false) = true
      then ArgumentKind.list else .str else .str) = .str := by cases n.isUnion <;> rfl
  -- The bare names of lists are among the names of lists with arguments.
  have hlist : n.chars = "list".toList ∨ n.chars = "tuple".toList → n.isList = true := by
    rintro (h | h) <;> (rw [TypeName.isList, h]; decide)
  have hmerge : (if (decide (n.chars = "list".toList) || decide (n.chars = "tuple".toList)) = true
      then ArgumentKind.list else if n.isList then .list else .str) =
        if n.isList then .list else .str := by
    split
    · rename_i h
      rw [Bool.or_eq_true, decide_eq_true_eq, decide_eq_true_eq] at h
      rw [if_pos (hlist h)]
    · rfl
  simp only [List.append_nil, hmembers, List.any_cons, List.any_nil, hnil, hunion,
    hmerge] at hround
  exact hround

theorem ne_of_applied {cs ds : List Char} {s : String} (h : '[' ∉ s.toList) :
    cs ++ '[' :: ds ≠ s.toList := by
  intro he
  rw [← he] at h
  simp at h

/-- A name with arguments, of which `k` closing brackets are left. -/
theorem ofAnnotationChars_applied (n : TypeName) (as : TypeTerms) (gap : Gap) (k fuel : Nat) :
    ofAnnotationChars (fuel + 1)
        (gap.1 ++ (n.text ++ '[' :: (as.front ++ List.replicate k ']'))) =
      if n.isList || (n.isUnion && (members 0 as.front).any
        fun m => ofAnnotationChars fuel m = .list) then .list else .str := by
  have hlast := last_closed (TypeTerm.applied n as).enclosed k
  rw [TypeTerm.front, List.append_assoc, List.cons_append] at hlast
  have hbare : ¬(decide (n.chars ++ '[' :: (as.front ++ List.replicate k ']') = "list".toList) ||
      decide (n.chars ++ '[' :: (as.front ++ List.replicate k ']') = "tuple".toList)) = true := by
    rw [Bool.or_eq_true, decide_eq_true_eq, decide_eq_true_eq, not_or]
    exact ⟨ne_of_applied (by decide), ne_of_applied (by decide)⟩
  rw [ofAnnotationChars_succ n gap (by simp) hlast, argumentsText_text,
    if_neg (ne_of_applied (by decide)), if_neg (ne_of_applied (by decide)), if_neg hbare]
  cases n.isList <;> cases n.isUnion <;> rfl

def noGap : Gap := ⟨[], List.forall_mem_nil _⟩

mutual
/-- Closing brackets that are missing at the end change nothing. -/
theorem ofAnnotationChars_front (a : TypeTerm) (gap : Gap) {k : Nat} (hk : k ≤ a.closers)
    {fuel : Nat} (hf : (gap.1 ++ (a.front ++ List.replicate k ']')).length < fuel) :
    ofAnnotationChars fuel (gap.1 ++ (a.front ++ List.replicate k ']')) = a.kind := by
  obtain ⟨fuel, rfl⟩ := Nat.exists_eq_add_one.2 (Nat.zero_lt_of_lt hf)
  cases a with
  | bare n =>
    obtain rfl : k = 0 := Nat.le_zero.1 hk
    rw [List.replicate_zero, List.append_nil]
    exact ofAnnotationChars_bare n gap fuel
  | applied n as =>
    have hlength : (noGap.1 ++ as.front).length < fuel := by
      simp only [TypeTerm.front, noGap, List.length_append, List.length_cons,
        List.length_nil] at hf ⊢
      omega
    have hmembers : members 0 as.front = pieces noGap as := members_arguments as noGap
    rw [TypeTerm.front, List.append_assoc, List.cons_append, ofAnnotationChars_applied,
      hmembers, any_pieces as noGap hlength, TypeTerm.kind]

theorem any_pieces (as : TypeTerms) (gap : Gap) {fuel : Nat}
    (hf : (gap.1 ++ as.front).length < fuel) :
    ((pieces gap as).any fun m => ofAnnotationChars fuel m = .list) = as.holdsList := by
  cases as with
  | last a =>
    have hlength : (gap.1 ++ (a.front ++ List.replicate 0 ']')).length < fuel := by
      simpa [TypeTerms.front] using hf
    have hkind := ofAnnotationChars_front a gap (Nat.zero_le _) hlength
    rw [List.replicate_zero, List.append_nil] at hkind
    rw [pieces, List.any_cons, List.any_nil, Bool.or_false, hkind, TypeTerms.holdsList]
  | more a next as =>
    have hlength : (gap.1 ++ a.text).length < fuel ∧ (next.1 ++ as.front).length < fuel := by
      simp only [TypeTerms.front, List.length_append, List.length_cons] at hf ⊢
      omega
    rw [a.text_eq] at hlength
    have hkind := ofAnnotationChars_front a gap (Nat.le_refl _) hlength.1
    rw [← a.text_eq] at hkind
    rw [pieces, List.any_cons, hkind, any_pieces as next hlength.2, TypeTerms.holdsList]
end

/-- The kind of an annotation is what its structure gives, with as many rounds as its text has
characters and with more. -/
theorem ofAnnotation_text (a : TypeTerm) :
    ofAnnotation (String.ofList a.text) = a.kind ∧
      ∀ fuel, a.text.length < fuel → ofAnnotationChars fuel a.text = a.kind := by
  have hkind : ∀ fuel, a.text.length < fuel → ofAnnotationChars fuel a.text = a.kind := by
    intro fuel hf
    rw [a.text_eq] at hf ⊢
    exact ofAnnotationChars_front a noGap (Nat.le_refl _) hf
  refine ⟨?_, hkind⟩
  rw [ ofAnnotation, String.toList_ofList, String.length_ofList]
  exact hkind _ (Nat.lt_succ_self _)

/-- Lists of numbers, if there are any. -/
def optionalSizes : TypeTerm :=
  let name (c : Char) (cs : List Char) (h : Source.isWordStart c = true)
      (hs : cs.all Source.isWordChar = true) : TypeName :=
    ⟨true, ⟨c, cs, h, List.all_eq_true.1 hs⟩, [], nofun⟩
  .applied (name 'U' "nion".toList rfl rfl) (.more (.bare (name 's' "tr".toList rfl rfl))
    ⟨[' '], forall_mem_of_all rfl⟩ (.last (.applied (name 'O' "ptional".toList rfl rfl)
      (.last (.applied (name 'L' "ist".toList rfl rfl)
        (.last (.bare (name 'i' "nt".toList rfl rfl))))))))

example : optionalSizes.text =
      "typing.Union[typing.str, typing.Optional[typing.List[typing.int]]]".toList ∧
    optionalSizes.kind = .list := by decide

end ArgumentKind
end Pipewright
