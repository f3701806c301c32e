import Mathlib.Data.List.DropRight
import Pipewright.Source.Definition

/-! Parameter lists from which the first item is cut, as tokens. -/
namespace Pipewright.Source

/-! Pieces of token lists -/

/-- The bracket depth behind a token. -/
def depthAfter (depth : Nat) (t : Token) : Nat :=
  if t.opens then depth + 1 else if t.closes then depth - 1 else depth

/-- The open parameter lists of `lambda`s behind a token. -/
def lambdasAfter (depth lambdas : Nat) (t : Token) : Nat :=
  if depth ≠ 0 then lambdas
  else if t.isWord "lambda" then lambdas + 1
  else if t.isMark ":" then lambdas - 1
  else lambdas

/-- What a split leaves from the token on at which it was made. -/
def fromSplit : Option (Token × List Token) → List Token
  | some (t, ts) => t :: ts
  | none => []

section
variable {p : Token → Bool} {depth lambdas : Nat} {t : Token} {ts a r : List Token}

theorem splitAtTop_cons (ht : (depth = 0 && lambdas = 0 && p t) = false) :
    splitAtTop p depth lambdas (t :: ts) =
      (t :: (splitAtTop p (depthAfter depth t) (lambdasAfter depth lambdas t) ts).1,
        (splitAtTop p (depthAfter depth t) (lambdasAfter depth lambdas t) ts).2) := by
  rw [splitAtTop, if_neg (by simpa using ht)]
  rfl

theorem splitAtTop_here (ht : p t = true) : splitAtTop p 0 0 (t :: ts) = ([], some (t, ts)) := by
  rw [splitAtTop, if_pos (by simpa using ht)]

theorem splitAtTop_join (p : Token → Bool) (depth lambdas : Nat) (ts : List Token) :
    (splitAtTop p depth lambdas ts).1 ++ fromSplit (splitAtTop p depth lambdas ts).2 = ts := by
  induction ts generalizing depth lambdas with
  | nil => rfl
  | cons t ts ih =>
    cases ht : depth = 0 && lambdas = 0 && p t with
    | true => rw [splitAtTop, if_pos ht]; rfl
    | false => rw [splitAtTop_cons ht, List.cons_append, ih]

theorem splitAtTop_marked (h : (splitAtTop p depth lambdas ts).2 = some (t, r)) : p t = true := by
  induction ts generalizing depth lambdas with
  | nil => cases h
  | cons u ts ih =>
    cases hu : depth = 0 && lambdas = 0 && p u with
    | true =>
      rw [splitAtTop, if_pos hu] at h
      cases h
      simp only [Bool.and_eq_true] at hu
      exact hu.2
    | false =>
      rw [splitAtTop_cons hu] at h
      exact ih h

/-- The piece that a list starts with at a depth of zero, and the pieces behind it. -/
def pieces (p : Token → Bool) (ts : List Token) : List (List Token) := splitAllTop p ts.length ts

theorem length_of_split {c : Token} (h : splitAtTop p depth lambdas ts = (a, some (c, r))) :
    r.length < ts.length := by
  have hjoin := splitAtTop_join p depth lambdas ts
  rw [h] at hjoin
  simp only [← hjoin, fromSplit, List.length_append, List.length_cons]
  omega

/-- Any room that is enough gives the same pieces. -/
theorem splitAllTop_eq {n m : Nat} (hn : ts.length ≤ n) (hm : ts.length ≤ m) :
    splitAllTop p n ts = splitAllTop p m ts := by
  induction n generalizing ts m with
  | zero =>
    obtain rfl : ts = [] := List.length_eq_zero_iff.1 (Nat.le_zero.1 hn)
    cases m <;> rfl
  | succ n ih =>
    cases m with
    | zero =>
      obtain rfl : ts = [] := List.length_eq_zero_iff.1 (Nat.le_zero.1 hm)
      rfl
    | succ m =>
      rw [splitAllTop, splitAllTop]
      cases hs : splitAtTop p 0 0 ts with
      | mk a r =>
        cases r with
        | none => rfl
        | some r =>
          have hlen := length_of_split hs
          exact congrArg (a :: ·) (ih (by omega) (by omega))

theorem pieces_eq (p : Token → Bool) (ts : List Token) : pieces p ts =
    (splitAtTop p 0 0 ts).1 :: ((splitAtTop p 0 0 ts).2.elim [] fun (_, r) => pieces p r) := by
  have hroom : pieces p ts = splitAllTop p (ts.length + 1) ts :=
    splitAllTop_eq (Nat.le_refl _) (Nat.le_succ _)
  rw [hroom, splitAllTop]
  cases hs : splitAtTop p 0 0 ts with
  | mk a r =>
    cases r with
    | none => rfl
    | some r =>
      have hlen := length_of_split hs
      exact congrArg (a :: ·) (splitAllTop_eq (by omega) (Nat.le_refl _))

end

/-! Parameters of a list -/

theorem Token.isMark_of_trivia {t : Token} (h : t.isTrivia = true) (s : String) :
    t.isMark s = false := by
  simp only [isTrivia, isMark] at *
  cases hk : t.kind <;> simp_all

theorem Token.isWord_of_trivia {t : Token} (h : t.isTrivia = true) (s : String) :
    t.isWord s = false := by
  simp only [isTrivia, isWord] at *
  cases hk : t.kind <;> simp_all

theorem depthAfter_of_trivia {t : Token} (h : t.isTrivia = true) (depth : Nat) :
    depthAfter depth t = depth := by
  simp [depthAfter, Token.opens, Token.closes, Token.isMark_of_trivia h]

theorem lambdasAfter_of_trivia {t : Token} (h : t.isTrivia = true) (depth lambdas : Nat) :
    lambdasAfter depth lambdas t = lambdas := by
  simp [lambdasAfter, Token.isMark_of_trivia h, Token.isWord_of_trivia h]

def Token.isComma (t : Token) : Bool := t.isMark ","

/-- Comments, newlines and commas. -/
def Token.isSpacing (t : Token) : Bool := Literal.isSpacer t || t.isComma

theorem Token.trivia_of_spacer {t : Token} (h : Literal.isSpacer t = true) : t.isTrivia = true := by
  rw [isTrivia, Bool.or_eq_true]
  exact .inl h

section
variable {keywords : Bool} {t : Token} {ts us front : List Token}

theorem trimTrivia_cons (h : t.isTrivia = true) (ts : List Token) :
    trimTrivia (t :: ts) = trimTrivia ts := by
  rw [trimTrivia, List.dropWhile_cons_of_pos h, trimTrivia]

theorem trimTrivia_of_head (ht : t.isTrivia = false) (ts : List Token) :
    ∃ us, trimTrivia (t :: ts) = t :: us := by
  have hsplit : (t :: ts).dropWhile Token.isTrivia = t :: ts :=
    List.dropWhile_cons_of_neg (by simp [ht])
  rw [trimTrivia, hsplit, List.reverse_cons, List.dropWhile_append]
  split
  · exact ⟨[], by simp [ht]⟩
  · exact ⟨(ts.reverse.dropWhile Token.isTrivia).reverse, by simp⟩

theorem trimTrivia_trimTrivia (ts : List Token) : trimTrivia (trimTrivia ts) = trimTrivia ts := by
  induction ts with
  | nil => rfl
  | cons t ts ih =>
    cases ht : t.isTrivia with
    | true => rw [trimTrivia_cons ht, ih]
    | false =>
      obtain ⟨us, hus⟩ := trimTrivia_of_head ht ts
      have hends : (trimTrivia (t :: ts)).reverse.dropWhile Token.isTrivia =
          (trimTrivia (t :: ts)).reverse := by
        rw [trimTrivia, List.reverse_reverse, List.dropWhile_idempotent]
      rw [hus] at hends ⊢
      rw [trimTrivia, List.dropWhile_cons_of_neg (by simp [ht]), hends, List.reverse_reverse]

theorem paramItem_congr (h : trimTrivia ts = trimTrivia us) (keywords : Bool) :
    paramItem keywords ts = paramItem keywords us := by
  rw [paramItem, h, paramItem]

/-! Items -/

/-- The items of a list without the trivia around them, where there is more than trivia between
two commas. -/
def items (ts : List Token) : List (List Token) :=
  ((pieces Token.isComma ts).map trimTrivia).filter fun i => !i.isEmpty

/-- The items behind the first comma of a list. -/
def laterItems (ts : List Token) : List (List Token) :=
  (splitAtTop Token.isComma 0 0 ts).2.elim [] fun q => items q.2

theorem items_eq (ts : List Token) : items ts =
    [trimTrivia (splitAtTop Token.isComma 0 0 ts).1].filter (fun i => !i.isEmpty) ++
      laterItems ts := by
  rw [items, pieces_eq, List.map_cons, ← List.singleton_append, List.filter_append, laterItems]
  cases (splitAtTop Token.isComma 0 0 ts).2 <;> rfl

theorem items_trivia (h : t.isTrivia = true) : items (t :: ts) = items ts := by
  have hcomma : t.isComma = false := t.isMark_of_trivia h ","
  rw [items_eq, items_eq, laterItems, laterItems, splitAtTop_cons (by simp [hcomma]),
    depthAfter_of_trivia h, lambdasAfter_of_trivia h, trimTrivia_cons h]

theorem items_comma (h : t.isComma = true) : items (t :: ts) = items ts := by
  rw [items_eq, laterItems, splitAtTop_here h]
  rfl

theorem items_append (h : ∀ t ∈ front, t.isTrivia = true) : items (front ++ ts) = items ts := by
  induction front with
  | nil => rfl
  | cons t front ih =>
    rw [List.forall_mem_cons] at h
    rw [List.cons_append, items_trivia h.1, ih h.2]

theorem items_spacing : items (ts.dropWhile Token.isSpacing) = items ts := by
  induction ts with
  | nil => rfl
  | cons t ts ih =>
    cases ht : t.isSpacing with
    | false => rw [List.dropWhile_cons_of_neg (by simp [ht])]
    | true =>
      rw [List.dropWhile_cons_of_pos ht, ih]
      rw [Token.isSpacing, Bool.or_eq_true] at ht
      obtain ht | ht := ht
      · rw [items_trivia (t.trivia_of_spacer ht)]
      · rw [items_comma ht]

/-- The parameters of a list; `keywords` says that plain ones are passed by keyword only. -/
def listParams (keywords : Bool) (ts : List Token) : List Param :=
  paramsOf keywords (pieces Token.isComma ts)

theorem listParams_items (keywords : Bool) (ts : List Token) :
    listParams keywords ts = paramsOf keywords (items ts) := by
  rw [listParams, items]
  induction pieces Token.isComma ts generalizing keywords with
  | nil => rfl
  | cons i is ih =>
    have htrim := paramItem_congr (trimTrivia_trimTrivia i) keywords
    rw [paramsOf, List.map_cons]
    cases hi : trimTrivia i with
    | nil =>
      have hnone : paramItem keywords i = .unnamed := by rw [← htrim, hi]; rfl
      rw [hnone, ih, List.filter_cons_of_neg (by simp)]
    | cons t us =>
      rw [List.filter_cons_of_pos (by simp), paramsOf, ← hi, htrim]
      simp only [ih]

end

/-! What an item says -/

def itemFront (ts : List Token) : List Token := (splitAtTop (·.isMark "=") 0 0 ts).1

def itemDefault? (ts : List Token) : Option (List Token) :=
  (splitAtTop (·.isMark "=") 0 0 ts).2.map fun (_, v) => trimTrivia v

def itemTarget (ts : List Token) : List Token :=
  trimTrivia (splitAtTop (·.isMark ":") 0 0 (itemFront ts)).1

def itemAnnotation? (ts : List Token) : Option (List Token) :=
  (splitAtTop (·.isMark ":") 0 0 (itemFront ts)).2.map fun (_, v) => trimTrivia v

def itemParam (kind : ParamKind) (ts : List Token) : Param :=
  ⟨paramName (itemTarget ts), kind,
    (itemAnnotation? ts).map fun v => String.ofList (Literal.exprText v),
    (itemDefault? ts).map Literal.ofTokens⟩

section
variable {keywords : Bool} {t : Token} {ts us front : List Token}

theorem paramItem_eq (h : trimTrivia ts = t :: us) : paramItem keywords ts =
    if t.isMark "*" then
      if us.isEmpty then .separator true else .param (itemParam .rest (t :: us))
    else if t.isMark "/" then .separator false
    else if t.isMark "**" then .param (itemParam .keywordRest (t :: us))
    else if t.kind = .word then
      .param (itemParam (if keywords then .keywordOnly else .positional) (t :: us))
    else .unnamed := by
  rw [paramItem, h]
  simp only [itemParam, itemDefault?, itemTarget, itemAnnotation?, itemFront]
  rcases splitAtTop (·.isMark "=") 0 0 (t :: us) with ⟨a, _ | ⟨_, v⟩⟩
  all_goals
    dsimp only
    rcases splitAtTop (·.isMark ":") 0 0 a with ⟨b, _ | ⟨_, w⟩⟩ <;> rfl

theorem isMark_of_word (h : t.kind = .word) (s : String) : t.isMark s = false := by
  simp [Token.isMark, h]

theorem paramItem_word (h : trimTrivia ts = t :: us) (ht : t.kind = .word) : paramItem keywords ts =
    .param (itemParam (if keywords then .keywordOnly else .positional) (t :: us)) := by
  simp [paramItem_eq h, isMark_of_word ht, ht]

/-- What an item says where plain parameters are passed by keyword differs in the kind at most. -/
theorem paramItem_keywords (keywords : Bool) (ts : List Token) :
    paramItem keywords ts = paramItem false ts ∨
      ∃ p q, paramItem keywords ts = .param p ∧ paramItem false ts = .param q := by
  cases h : trimTrivia ts with
  | nil => exact .inl (by rw [paramItem, h, paramItem, h])
  | cons t us =>
    by_cases ht : t.kind = .word
    · exact .inr ⟨_, _, paramItem_word h ht, paramItem_word h ht⟩
    · left
      simp only [paramItem_eq h, ht, if_false]

/-- How many parameters a list has does not depend on what stands before it. -/
theorem length_paramsOf (keywords : Bool) (is : List (List Token)) :
    (paramsOf keywords is).length = (paramsOf false is).length := by
  induction is generalizing keywords with
  | nil => rfl
  | cons i is ih =>
    rw [paramsOf, paramsOf]
    obtain h | ⟨p, q, hp, hq⟩ := paramItem_keywords keywords i
    · rw [h]
      cases paramItem false i with
      | separator k => exact (ih _).trans (ih _).symm
      | param p => exact congrArg (· + 1) ((ih _).trans (ih _).symm)
      | unnamed => exact ih _
    · rw [hp, hq]
      exact congrArg (· + 1) ((ih _).trans (ih _).symm)

end

/-! The list without its first item -/

/-- The trivia at the end of tokens. -/
def trail (ts : List Token) : List Token := ts.rtakeWhile Token.isTrivia

/-- What stands behind the first item, which starts with a token; a joint is taken for an item. -/
def behindItem (t : Token) (ts : List Token) : List Token :=
  if t.kind = .joint then ts
  else trail (splitAtTop Token.isComma 0 0 (t :: ts)).1 ++
    fromSplit (splitAtTop Token.isComma 0 0 (t :: ts)).2

/-- The tokens from the next item on, or all that stand behind the first one if none does. -/
def nextItems (ts : List Token) : List Token :=
  if (ts.dropWhile Token.isSpacing).isEmpty then ts else ts.dropWhile Token.isSpacing

/-- The tokens that are left of a list when its first item is cut. -/
def cutItems (inside : List Token) : List Token :=
  match inside.dropWhile Literal.isSpacer with
  | [] => inside
  | t :: ts => inside.takeWhile Literal.isSpacer ++ nextItems (behindItem t ts)

/-- Whether tokens start like parameters, or have none: with a name, a star or a bracket. -/
def Starts (ts : List Token) : Prop :=
  ∀ t ∈ (ts.filter fun t => !t.isTrivia).head?,
    t.kind = .word ∨ t.isMark "*" = true ∨ t.isMark "**" = true ∨ t.opens = true

/-- A list whose first item starts with a name, and has no comma behind it or one right behind it
that a parameter follows. A joint at the end of the list may stand for the parameter. -/
def CutsWell (inside : List Token) : Prop :=
  ∃ t ts, inside.dropWhile Literal.isSpacer = t :: ts ∧ t.kind = .word ∧
    ∀ c r, (splitAtTop Token.isComma 0 0 (t :: ts)).2 = some (c, r) →
      (∀ u ∈ trail (splitAtTop Token.isComma 0 0 (t :: ts)).1, u.kind ≠ .joint) ∧
      r.dropWhile Token.isSpacing ≠ [] ∧ Starts (r.dropWhile Token.isSpacing)

section
variable {keywords : Bool} {t c : Token} {ts r front inside : List Token}

theorem trivia_of_mem_trail {u : Token} (h : u ∈ trail ts) : u.isTrivia = true :=
  List.mem_rtakeWhile_imp h

theorem starts_append (h : ∀ t ∈ front, t.isTrivia = true) : Starts (front ++ ts) ↔ Starts ts := by
  have hnone : (front.filter fun t => !t.isTrivia) = [] :=
    List.filter_eq_nil_iff.2 fun t ht => by simp [h t ht]
  rw [Starts, List.filter_append, hnone, List.nil_append, Starts]

theorem starts_trivia (h : ∀ t ∈ ts, t.isTrivia = true) : Starts ts := by
  have hnone : (ts.filter fun t => !t.isTrivia) = [] :=
    List.filter_eq_nil_iff.2 fun t ht => by simp [h t ht]
  rw [Starts, hnone]
  simp

theorem not_starts_comma (h : c.isComma = true) : ¬Starts (c :: ts) := by
  rw [Token.isComma, Token.isMark, Bool.and_eq_true, decide_eq_true_eq, decide_eq_true_eq] at h
  obtain ⟨hk, htext⟩ := h
  have htrivia : c.isTrivia = false := by simp [Token.isTrivia, hk]
  intro hs
  have hc := hs c (by simp [htrivia])
  simp only [Token.isMark, Token.opens, hk, htext] at hc
  revert hc
  decide

theorem items_nextItems : items (nextItems ts) = items ts := by
  rw [nextItems]
  split
  · rfl
  · exact items_spacing

theorem items_behindItem (ht : t.kind ≠ .joint) :
    items (behindItem t ts) = laterItems (t :: ts) := by
  rw [behindItem, if_neg ht, items_append fun _ h => trivia_of_mem_trail h, laterItems]
  cases hs : (splitAtTop Token.isComma 0 0 (t :: ts)).2 with
  | none => rfl
  | some q => exact items_comma (splitAtTop_marked hs)

theorem trivia_of_mem_spacers {u : Token} (h : u ∈ inside.takeWhile Literal.isSpacer) :
    u.isTrivia = true := u.trivia_of_spacer (List.mem_takeWhile_imp h)

theorem items_inside (hd : inside.dropWhile Literal.isSpacer = ts) : items inside = items ts := by
  have happend := @items_append (inside.dropWhile Literal.isSpacer)
    (inside.takeWhile Literal.isSpacer) fun _ => trivia_of_mem_spacers
  rwa [List.takeWhile_append_dropWhile, hd] at happend

theorem items_cutItems (hd : inside.dropWhile Literal.isSpacer = t :: ts) :
    items (cutItems inside) = items (behindItem t ts) := by
  rw [cutItems, hd]
  exact (items_append fun _ => trivia_of_mem_spacers).trans items_nextItems

/-- The first item of a list. -/
theorem items_cons (ht : t.isTrivia = false) (hcomma : t.isComma = false) (ts : List Token) :
    ∃ us, trimTrivia (t :: us) = t :: us ∧ items (t :: ts) = (t :: us) :: laterItems (t :: ts) := by
  obtain ⟨us, hus⟩ : ∃ us, trimTrivia (splitAtTop Token.isComma 0 0 (t :: ts)).1 = t :: us := by
    rw [splitAtTop_cons (by simp [hcomma])]
    exact trimTrivia_of_head ht _
  refine ⟨us, hus ▸ trimTrivia_trimTrivia _, ?_⟩
  rw [items_eq, hus]
  rfl

/-- The first parameter of a list that starts with a name, and the ones behind it. -/
theorem listParams_word (ht : t.kind = .word) (ts : List Token) :
    ∃ p, listParams false (t :: ts) = p :: paramsOf false (laterItems (t :: ts)) := by
  have htrivia : t.isTrivia = false := by simp [Token.isTrivia, ht]
  obtain ⟨us, hus, hitems⟩ := items_cons htrivia (isMark_of_word ht ",") ts
  rw [listParams_items, hitems, paramsOf, paramItem_word hus ht]
  exact ⟨_, rfl⟩

/-- Where the first item is no parameter that can be filled, all that can be stand behind it. -/
theorem length_later_of_not_word (ht : t.kind ≠ .word) (htrivia : t.isTrivia = false) {p : Param}
    (hp : p ∈ (listParams false (t :: ts)).head?) (hexposed : p.isExposed = true) :
    (paramsOf false (laterItems (t :: ts))).length = (listParams false (t :: ts)).length := by
  cases hcomma : t.isComma with
  | true =>
    have hlater : laterItems (t :: ts) = items ts := by rw [laterItems, splitAtTop_here hcomma]; rfl
    rw [hlater, listParams_items, items_comma hcomma]
  | false =>
    obtain ⟨us, hus, hitems⟩ := items_cons htrivia hcomma ts
    rw [listParams_items, hitems, paramsOf, paramItem_eq hus, if_neg ht] at hp ⊢
    split_ifs at hp ⊢ with hstar hempty hslash hstars
    · exact (length_paramsOf _ _).symm
    · obtain rfl := Option.some.inj hp
      cases hexposed
    · rfl
    · obtain rfl := Option.some.inj hp
      cases hexposed
    · rfl

theorem ne_tail_of_length {L M : List Param} {p : Param} (hp : p ∈ M.head?)
    (h : L.length = M.length) : L ≠ M.tail := by
  rintro rfl
  cases M with
  | nil => cases hp
  | cons q M => simp at h

theorem nextItems_of_nil (h : ts.dropWhile Token.isSpacing = []) : nextItems ts = ts := by
  rw [nextItems, h]
  rfl

theorem nextItems_of_ne_nil (h : ts.dropWhile Token.isSpacing ≠ []) :
    nextItems ts = ts.dropWhile Token.isSpacing := by
  rw [nextItems, if_neg (by simpa using h)]

/-- What follows trivia in front of a comma. A joint among the trivia keeps the comma. -/
theorem starts_nextItems_comma (hfront : ∀ t ∈ front, t.isTrivia = true) (hc : c.isComma = true) :
    Starts (nextItems (front ++ c :: r)) ↔ (∀ u ∈ front, u.kind ≠ .joint) ∧
      r.dropWhile Token.isSpacing ≠ [] ∧ Starts (r.dropWhile Token.isSpacing) := by
  have hspacing : c.isSpacing = true := by simp [Token.isSpacing, hc]
  by_cases hjoint : ∀ u ∈ front, u.kind ≠ .joint
  · have hall : front.dropWhile Token.isSpacing = [] := by
      refine List.dropWhile_eq_nil_iff.2 fun u hu => ?_
      have htrivia := hfront u hu
      simp only [Token.isTrivia, Bool.or_eq_true, decide_eq_true_eq, hjoint u hu, or_false]
        at htrivia
      simpa [Token.isSpacing, Literal.isSpacer] using .inl htrivia
    have hdrop : (front ++ c :: r).dropWhile Token.isSpacing = r.dropWhile Token.isSpacing := by
      rw [List.dropWhile_append, hall, List.isEmpty_nil, if_pos rfl,
        List.dropWhile_cons_of_pos hspacing]
    by_cases hnil : r.dropWhile Token.isSpacing = []
    · rw [nextItems_of_nil (hdrop.trans hnil), starts_append hfront]
      exact iff_of_false (not_starts_comma hc) fun h => h.2.1 hnil
    · rw [nextItems_of_ne_nil (hdrop ▸ hnil), hdrop]
      exact ⟨fun h => ⟨hjoint, hnil, h⟩, fun h => h.2.2⟩
  · refine iff_of_false ?_ fun h => hjoint h.1
    have hstop : front.dropWhile Token.isSpacing ≠ [] := by
      rw [Ne, List.dropWhile_eq_nil_iff]
      intro hall
      refine hjoint fun u hu hk => ?_
      have hu' := hall u hu
      simp [Token.isSpacing, Literal.isSpacer, Token.isComma, Token.isMark, hk] at hu'
    have hdrop : (front ++ c :: r).dropWhile Token.isSpacing =
        front.dropWhile Token.isSpacing ++ c :: r := by
      rw [List.dropWhile_append, if_neg (by simpa using hstop)]
    rw [nextItems_of_ne_nil (by simp [hdrop]), hdrop,
      starts_append fun t ht => hfront t (List.dropWhile_subset _ ht)]
    exact not_starts_comma hc

/-- How the tokens behind a name start when the item of the name is cut. -/
theorem starts_nextItems_iff (ht : t.kind ≠ .joint) : Starts (nextItems (behindItem t ts)) ↔
    ∀ c r, (splitAtTop Token.isComma 0 0 (t :: ts)).2 = some (c, r) →
      (∀ u ∈ trail (splitAtTop Token.isComma 0 0 (t :: ts)).1, u.kind ≠ .joint) ∧
      r.dropWhile Token.isSpacing ≠ [] ∧ Starts (r.dropWhile Token.isSpacing) := by
  have htrail : ∀ u ∈ trail (splitAtTop Token.isComma 0 0 (t :: ts)).1, u.isTrivia = true :=
    fun u hu => trivia_of_mem_trail hu
  rw [behindItem, if_neg ht]
  cases hr : (splitAtTop Token.isComma 0 0 (t :: ts)).2 with
  | none =>
    refine iff_of_true ?_ (by simp)
    rw [fromSplit, List.append_nil, nextItems]
    split
    · exact starts_trivia htrail
    · exact starts_trivia fun u hu => htrail u (List.dropWhile_subset _ hu)
  | some p =>
    obtain ⟨c, r⟩ := p
    rw [fromSplit, starts_nextItems_comma htrail (splitAtTop_marked hr)]
    exact ⟨fun h c' r' he => by cases he; exact h, fun h => h c r rfl⟩

theorem listParams_inside (hd : inside.dropWhile Literal.isSpacer = ts) :
    listParams false inside = listParams false ts := by
  rw [listParams_items, items_inside hd, listParams_items]

theorem cutsWell_iff (hd : inside.dropWhile Literal.isSpacer = t :: ts) (ht : t.kind = .word) :
    CutsWell inside ↔ Starts (nextItems (behindItem t ts)) := by
  rw [starts_nextItems_iff (by simp [ht]), CutsWell]
  constructor
  · rintro ⟨u, us, he, -, h⟩
    obtain ⟨rfl, rfl⟩ := List.cons.inj (hd.symm.trans he)
    exact h
  · exact fun h => ⟨t, ts, hd, ht, h⟩

theorem not_cutsWell (hd : inside.dropWhile Literal.isSpacer = t :: ts) (ht : t.kind ≠ .word) :
    ¬CutsWell inside := by
  rintro ⟨u, us, he, hu, -⟩
  obtain ⟨rfl, -⟩ := List.cons.inj (hd.symm.trans he)
  exact ht hu

/-- Where the first item is no parameter that can be filled, cutting it leaves as many. -/
theorem length_behindItem_of_not_word (hd : inside.dropWhile Literal.isSpacer = t :: ts)
    (ht : t.kind ≠ .word) {p : Param} (hp : p ∈ (listParams false (t :: ts)).head?)
    (hexposed : p.isExposed = true) : (paramsOf false (items (behindItem t ts))).length =
      (listParams false (t :: ts)).length := by
  have hspacer : Literal.isSpacer t = false := by
    have := List.head?_dropWhile_not Literal.isSpacer inside
    rwa [hd] at this
  by_cases hjoint : t.kind = .joint
  · -- The joint is all that is cut.
    rw [behindItem, if_pos hjoint, listParams_items, items_trivia (by simp [Token.isTrivia, hjoint])]
  · have htrivia : t.isTrivia = false := by
      rw [Token.isTrivia]
      rw [Literal.isSpacer] at hspacer
      simp [hspacer, hjoint]
    rw [items_behindItem hjoint]
    exact length_later_of_not_word ht htrivia hp hexposed

/-- Cutting the first item of a list leaves a list with the parameters behind the first one, and
one that starts like parameters, just if the list is one that cuts well. -/
theorem cutItems_iff {p : Param} (hp : p ∈ (listParams false inside).head?)
    (hexposed : p.isExposed = true) :
    (Starts (cutItems inside) ∧
      listParams false (cutItems inside) = (listParams false inside).tail) ↔ CutsWell inside := by
  cases hd : inside.dropWhile Literal.isSpacer with
  | nil =>
    rw [listParams_inside hd] at hp
    cases hp
  | cons t ts =>
    have hstarts : Starts (cutItems inside) ↔ Starts (nextItems (behindItem t ts)) := by
      rw [cutItems, hd]
      exact starts_append fun _ => trivia_of_mem_spacers
    rw [listParams_inside hd] at hp ⊢
    rw [hstarts, listParams_items _ (cutItems inside), items_cutItems hd]
    by_cases hword : t.kind = .word
    · obtain ⟨q, hq⟩ := listParams_word hword ts
      rw [cutsWell_iff hd hword, items_behindItem (by simp [hword]), hq, List.tail_cons]
      exact and_iff_left rfl
    · refine iff_of_false (fun h => ?_) (not_cutsWell hd hword)
      exact ne_tail_of_length hp (length_behindItem_of_not_word hd hword hp hexposed) h.2

end

end Pipewright.Source
