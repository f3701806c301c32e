import Pipewright.Proofs.Source.LogicalLines

/-! What stands in front of the parameters of a function, and where they end. -/
namespace Pipewright.Source

/-! Brackets -/

/-- Whether brackets at a depth are closed at the end of tokens, and none is that was not opened. -/
def Enclosed (depth : Nat) : List Token → Prop
  | [] => depth = 0
  | t :: ts => (t.closes = true → depth ≠ 0) ∧ Enclosed (depthAfter depth t) ts

section
variable {start dangling : Bool} {depth : Nat} {t c : Token} {ts us r front : List Token}

theorem bracketed_cons (ht : t.closes = true → depth ≠ 0) : bracketed depth (t :: ts) =
    (t :: (bracketed (depthAfter depth t) ts).1, (bracketed (depthAfter depth t) ts).2) := by
  rw [bracketed, if_neg]
  · rfl
  · simpa using ht

theorem bracketed_here (ht : t.closes = true) : bracketed 0 (t :: ts) = ([], t :: ts) := by
  rw [bracketed, if_pos (by simp [ht])]

theorem bracketed_join (depth : Nat) (ts : List Token) :
    (bracketed depth ts).1 ++ (bracketed depth ts).2 = ts := by
  induction ts generalizing depth with
  | nil => rfl
  | cons t ts ih =>
    by_cases ht : t.closes = true → depth ≠ 0
    · rw [bracketed_cons ht, List.cons_append, ih]
    · simp only [Classical.not_imp, not_not] at ht
      obtain ⟨ht, rfl⟩ := ht
      rw [bracketed_here ht]
      rfl

theorem bracketed_of_enclosed (h : Enclosed depth ts) (hc : c.closes = true) :
    bracketed depth (ts ++ c :: r) = (ts, c :: r) := by
  induction ts generalizing depth with
  | nil =>
    obtain rfl : depth = 0 := h
    exact bracketed_here hc
  | cons t ts ih => rw [List.cons_append, bracketed_cons h.1, ih h.2]

theorem enclosed_bracketed (h : (bracketed depth ts).2 = c :: r) :
    Enclosed depth (bracketed depth ts).1 ∧ c.closes = true := by
  induction ts generalizing depth with
  | nil => cases h
  | cons t ts ih =>
    by_cases ht : t.closes = true → depth ≠ 0
    · rw [bracketed_cons ht] at h ⊢
      exact ⟨⟨ht, (ih h).1⟩, (ih h).2⟩
    · simp only [Classical.not_imp, not_not] at ht
      obtain ⟨ht, rfl⟩ := ht
      rw [bracketed_here ht] at h ⊢
      cases h
      exact ⟨rfl, ht⟩

theorem Relays.enclosed (h : Relays start ts us) (hts : Enclosed depth ts) : Enclosed depth us := by
  induction h generalizing depth with
  | nil => exact hts
  | cons ht _ ih =>
    rw [Enclosed] at hts ⊢
    rw [ht.closes, ht.depthAfter]
    exact ⟨hts.1, ih hts.2⟩

/-- Whether a token is no bracket. -/
def Token.isFlat (t : Token) : Bool := !t.opens && !t.closes

theorem Token.flat_of_trivia (h : t.isTrivia = true) : t.isFlat = true := by
  simp [isFlat, opens, closes, isMark_of_trivia h]

theorem Token.flat_of_comma (h : t.isComma = true) : t.isFlat = true := by
  rw [isComma, isMark, Bool.and_eq_true, decide_eq_true_eq, decide_eq_true_eq] at h
  simp only [isFlat, opens, closes, isMark, h.1, h.2]
  decide

theorem enclosed_flat (h : t.isFlat = true) : Enclosed depth (t :: ts) ↔ Enclosed depth ts := by
  simp only [Token.isFlat, Bool.and_eq_true, Bool.not_eq_true'] at h
  simp [Enclosed, depthAfter, h.1, h.2]

theorem enclosed_append (h : ∀ t ∈ front, t.isFlat = true) :
    Enclosed depth (front ++ ts) ↔ Enclosed depth ts := by
  induction front with
  | nil => rfl
  | cons t front ih =>
    rw [List.forall_mem_cons] at h
    rw [List.cons_append, enclosed_flat h.1, ih h.2]

/-- What follows a comma outside of brackets. -/
theorem Enclosed.behind {p : Token → Bool} {depth lambdas : Nat} {ts : List Token}
    (h : Enclosed depth ts) (hr : (splitAtTop p depth lambdas ts).2 = some (c, r)) :
    Enclosed 0 (c :: r) := by
  induction ts generalizing depth lambdas with
  | nil => cases hr
  | cons t ts ih =>
    cases ht : depth = 0 && lambdas = 0 && p t with
    | true =>
      rw [splitAtTop, if_pos ht] at hr
      cases hr
      simp only [Bool.and_eq_true, decide_eq_true_eq] at ht
      exact ht.1.1 ▸ h
    | false =>
      rw [splitAtTop_cons ht] at hr
      exact ih h.2 hr

theorem Token.flat_of_spacing (h : t.isSpacing = true) : t.isFlat = true := by
  rw [isSpacing, Bool.or_eq_true] at h
  exact h.elim (fun h => flat_of_trivia (trivia_of_spacer h)) flat_of_comma

theorem Enclosed.nextItems (h : Enclosed 0 ts) : Enclosed 0 (nextItems ts) := by
  rw [Source.nextItems]
  split
  · exact h
  · have hfront : ∀ t ∈ ts.takeWhile Token.isSpacing, t.isFlat = true :=
      fun t ht => t.flat_of_spacing (List.mem_takeWhile_imp ht)
    rw [← List.takeWhile_append_dropWhile (p := Token.isSpacing) (l := ts)] at h
    exact (enclosed_append hfront).1 h

/-- A list is still enclosed when its first item is cut. -/
theorem Enclosed.cutItems {inside : List Token} (h : Enclosed 0 inside) :
    Enclosed 0 (cutItems inside) := by
  have hfront : ∀ t ∈ inside.takeWhile Literal.isSpacer, t.isFlat = true :=
    fun t ht => t.flat_of_trivia (t.trivia_of_spacer (List.mem_takeWhile_imp ht))
  rw [Source.cutItems]
  rw [← List.takeWhile_append_dropWhile (p := Literal.isSpacer) (l := inside)] at h
  have hrest := (enclosed_append hfront).1 h
  cases hd : inside.dropWhile Literal.isSpacer with
  | nil => simpa [List.takeWhile_append_dropWhile] using h
  | cons t ts =>
    rw [hd] at hrest
    refine (enclosed_append hfront).2 (Enclosed.nextItems ?_)
    rw [behindItem]
    split
    · rename_i hjoint
      exact (enclosed_flat (t.flat_of_trivia (by simp [Token.isTrivia, hjoint]))).1 hrest
    · refine (enclosed_append fun u hu => u.flat_of_trivia (trivia_of_mem_trail hu)).2 ?_
      cases hr : (splitAtTop Token.isComma 0 0 (t :: ts)).2 with
      | none => exact rfl
      | some q => exact hrest.behind hr

/-- No newline within brackets ends a line. -/
theorem Enclosed.holds {outer : Nat} (h : Enclosed depth ts) (ho : outer ≠ 0) :
    Holds (outer + depth) dangling ts ∧ depthBehind (outer + depth) ts = outer := by
  induction ts generalizing depth dangling with
  | nil =>
    obtain rfl : depth = 0 := h
    exact ⟨trivial, rfl⟩
  | cons t ts ih =>
    have hafter : depthAfter (outer + depth) t = outer + depthAfter depth t := by
      have hclose := h.1
      rw [depthAfter, depthAfter]
      split
      · omega
      · split
        · have := hclose ‹_›
          omega
        · rfl
    have hbehind : depthBehind (outer + depth) (t :: ts) =
        depthBehind (depthAfter (outer + depth) t) ts := rfl
    rw [Holds, hbehind, hafter]
    exact ⟨⟨fun _ => .inl (by omega), (ih h.2).1⟩, (@ih dangling _ h.2).2⟩

end

/-! Fronts -/

section
variable {start : Bool} {t u : Token} {ts us a r : List Token}

theorem firstSignificant_append (ha : ∀ t ∈ a, t.isTrivia = true) (ht : t.isTrivia = false) :
    firstSignificant (a ++ t :: r) = some (a, t, r) := by
  induction a with
  | nil => rw [List.nil_append, firstSignificant, if_neg (by simp [ht])]
  | cons u a ih =>
    rw [List.forall_mem_cons] at ha
    rw [List.cons_append, firstSignificant, if_pos ha.1, ih ha.2]
    rfl

theorem firstSignificant_some (h : firstSignificant ts = some (a, t, r)) :
    ts = a ++ t :: r ∧ (∀ t ∈ a, t.isTrivia = true) ∧ t.isTrivia = false := by
  induction ts generalizing a with
  | nil => cases h
  | cons u ts ih =>
    rw [firstSignificant] at h
    split at h
    · rename_i hu
      obtain ⟨⟨a', t', r'⟩, hfirst, he⟩ := Option.map_eq_some_iff.1 h
      simp only [Prod.mk.injEq] at he
      obtain ⟨rfl, rfl, rfl⟩ := he
      obtain ⟨rfl, ha, ht⟩ := ih hfirst
      exact ⟨rfl, List.forall_mem_cons.2 ⟨hu, ha⟩, ht⟩
    · rename_i hu
      cases h
      exact ⟨rfl, by simp, by simpa using hu⟩

/-- The words in front of the name of a function. -/
inductive Opener : List Token → Prop
  | plain {a : List Token} {d : Token} (ha : ∀ t ∈ a, t.isTrivia = true)
      (hd : d.isWord "def" = true) : Opener (a ++ [d])
  | async {a b : List Token} {s d : Token} (ha : ∀ t ∈ a, t.isTrivia = true)
      (hs : s.isWord "async" = true) (hb : ∀ t ∈ b, t.isTrivia = true)
      (hd : d.isWord "def" = true) : Opener (a ++ s :: (b ++ [d]))

/-- The type parameters behind the name of a function, if it has any. -/
inductive TypeParams : List Token → Prop
  | none : TypeParams []
  | some {a inner : List Token} {o c : Token} (ha : ∀ t ∈ a, t.isTrivia = true)
      (ho : o.isMark "[" = true) (hi : Enclosed 0 inner) (hc : c.closes = true) :
      TypeParams (a ++ o :: (inner ++ [c]))

/-- Tokens up to and with the bracket that opens the parameters of a function. -/
inductive Front : List Token → Prop
  | intro {opener b types a : List Token} {name paren : Token} (hopener : Opener opener)
      (hb : ∀ t ∈ b, t.isTrivia = true) (hname : name.isTrivia = false) (htypes : TypeParams types)
      (ha : ∀ t ∈ a, t.isTrivia = true) (hp : paren.isMark "(" = true) :
      Front (opener ++ (b ++ name :: (types ++ (a ++ [paren]))))

theorem shown_of_mark {s : String} (h : t.isMark s = true) : t.isTrivia = false := by
  cases ht : t.isTrivia with
  | false => rfl
  | true => simp [Token.isMark_of_trivia ht] at h

theorem not_joint_of_mark {s : String} (h : t.isMark s = true) : t.kind ≠ .joint := by
  intro hk
  have hshown := shown_of_mark h
  simp [Token.isTrivia, hk] at hshown

theorem shown_of_word {s : String} (h : t.isWord s = true) : t.isTrivia = false := by
  cases ht : t.isTrivia with
  | false => rfl
  | true => simp [Token.isWord_of_trivia ht] at h

theorem not_isWord {s s' : String} (h : t.isWord s = true) (hs : s ≠ s') : t.isWord s' = false := by
  rw [Token.isWord, Bool.and_eq_true, decide_eq_true_eq, decide_eq_true_eq] at h
  rw [Token.isWord, h.2]
  simp [String.toList_inj, hs]

theorem not_isMark {s s' : String} (h : t.isMark s = true) (hs : s ≠ s') : t.isMark s' = false := by
  rw [Token.isMark, Bool.and_eq_true, decide_eq_true_eq, decide_eq_true_eq] at h
  rw [Token.isMark, h.2]
  simp [String.toList_inj, hs]

theorem skipTypeParams_eq {types front : List Token} (htypes : TypeParams types)
    (ha : ∀ t ∈ a, t.isTrivia = true) (hp : t.isMark "(" = true) :
    skipTypeParams front (types ++ (a ++ t :: r)) = (front ++ types, a ++ t :: r) := by
  cases htypes with
  | none =>
    have hopen : t.isMark "[" = false := not_isMark hp (by decide)
    rw [List.nil_append, skipTypeParams, firstSignificant_append ha (shown_of_mark hp)]
    simp [hopen]
  | @some b inner o c hb ho hi hc =>
    rw [List.append_assoc, List.cons_append, skipTypeParams,
      firstSignificant_append hb (shown_of_mark ho)]
    simp [ho, bracketed_of_enclosed hi hc]

theorem headerFrom_eq {name : String} {front : List Token} (ha : ∀ t ∈ a, t.isTrivia = true)
    (hp : t.isMark "(" = true) : ∃ h, headerFrom name front (a ++ t :: r) = some h ∧
      h.front = front ++ a ++ [t] ∧ h.inside = (bracketed 0 r).1 ∧
      h.behind = (bracketed 0 r).2 := by
  simp only [headerFrom, firstSignificant_append ha (shown_of_mark hp), Option.bind_eq_bind,
    Option.bind_some, hp, if_true]
  exact ⟨_, rfl, rfl, rfl, rfl⟩

/-- A header is read from its front, whatever follows it. -/
theorem Front.header? (h : Front ts) (r : List Token) : ∃ e, header? (ts ++ r) = some e ∧
    e.front = ts ∧ e.inside = (bracketed 0 r).1 ∧ e.behind = (bracketed 0 r).2 := by
  obtain @⟨opener, b, types, a, name, paren, hopener, hb, hname, htypes, ha, hp⟩ := h
  cases hopener with
  | @plain o d ho hd =>
    have hasync : d.isWord "async" = false := not_isWord hd (by decide)
    obtain ⟨e, he, hfront, hinside, hbehind⟩ := @headerFrom_eq paren a r
      (String.ofList name.text) (o ++ d :: b ++ [name] ++ types) ha hp
    refine ⟨e, ?_, by rw [hfront]; simp, hinside, hbehind⟩
    have hshape : o ++ [d] ++ (b ++ name :: (types ++ (a ++ [paren]))) ++ r =
        o ++ d :: (b ++ name :: (types ++ (a ++ paren :: r))) := by simp
    rw [hshape, Source.header?]
    simp only [firstSignificant_append ho (shown_of_word hd), Option.bind_eq_bind,
      Option.bind_some, hasync, Bool.false_eq_true, if_false, hd, if_true,
      firstSignificant_append hb hname, skipTypeParams_eq htypes ha hp]
    exact he
  | @async o m s d ho hs hm hd =>
    obtain ⟨e, he, hfront, hinside, hbehind⟩ := @headerFrom_eq paren a r
      (String.ofList name.text) (o ++ s :: m ++ d :: b ++ [name] ++ types) ha hp
    refine ⟨e, ?_, by rw [hfront]; simp, hinside, hbehind⟩
    have hshape : o ++ s :: (m ++ [d]) ++ (b ++ name :: (types ++ (a ++ [paren]))) ++ r =
        o ++ s :: (m ++ d :: (b ++ name :: (types ++ (a ++ paren :: r)))) := by simp
    rw [hshape, Source.header?]
    simp only [firstSignificant_append ho (shown_of_word hs), Option.bind_eq_bind,
      Option.bind_some, hs, if_true, firstSignificant_append hm (shown_of_word hd),
      Option.map_some, hd, firstSignificant_append hb hname, skipTypeParams_eq htypes ha hp]
    exact he

/-- What type parameters take, if something is left behind them. -/
theorem typeParams_skip {front : List Token} (h : (skipTypeParams front ts).2 ≠ []) :
    ∃ types, TypeParams types ∧ (skipTypeParams front ts).1 = front ++ types ∧
      ts = types ++ (skipTypeParams front ts).2 := by
  have hnone : ∃ types, TypeParams types ∧ front = front ++ types ∧ ts = types ++ ts :=
    ⟨[], .none, by simp, rfl⟩
  rw [skipTypeParams] at h ⊢
  cases hf : firstSignificant ts with
  | none => exact hnone
  | some q =>
    obtain ⟨b, o, r⟩ := q
    obtain ⟨rfl, hb, -⟩ := firstSignificant_some hf
    simp only [hf] at h ⊢
    split
    · rename_i ho
      rw [if_pos ho] at h
      cases hr : (bracketed 0 r).2 with
      | nil => simp [hr] at h
      | cons c rest =>
        obtain ⟨hi, hc⟩ := enclosed_bracketed hr
        have hjoin := bracketed_join 0 r
        rw [hr] at hjoin
        refine ⟨b ++ o :: ((bracketed 0 r).1 ++ [c]), .some hb ho hi hc, by simp, ?_⟩
        simp [hjoin]
    · exact hnone

theorem headerFrom_some {name : String} {front : List Token} {e : Header}
    (h : headerFrom name front ts = some e) : ∃ a p r, ts = a ++ p :: r ∧
      (∀ t ∈ a, t.isTrivia = true) ∧ p.isMark "(" = true ∧ e.front = front ++ (a ++ [p]) ∧
      e.inside = (bracketed 0 r).1 ∧ e.behind = (bracketed 0 r).2 := by
  simp only [headerFrom, Option.bind_eq_bind, Option.bind_eq_some_iff] at h
  obtain ⟨⟨a, p, r⟩, hf, h⟩ := h
  obtain ⟨rfl, ha, -⟩ := firstSignificant_some hf
  dsimp only at h
  split at h
  · rename_i hp
    obtain rfl := Option.some.inj h
    exact ⟨a, p, r, rfl, ha, hp, by simp, rfl, rfl⟩
  · cases h

/-- What is read behind the word that a definition starts with. -/
theorem header?_opener {e : Header} (h : header? ts = some e) : ∃ opener b name r,
    Opener opener ∧ ts = opener ++ (b ++ name :: r) ∧ (∀ t ∈ b, t.isTrivia = true) ∧
    name.isTrivia = false ∧
    headerFrom (String.ofList name.text) (skipTypeParams (opener ++ (b ++ [name])) r).1
      (skipTypeParams (opener ++ (b ++ [name])) r).2 = some e := by
  simp only [header?, Option.bind_eq_bind, Option.bind_eq_some_iff] at h
  obtain ⟨⟨a, t, r⟩, hfirst, h⟩ := h
  obtain ⟨rfl, ha, -⟩ := firstSignificant_some hfirst
  dsimp only at h
  split at h
  · rename_i hs
    obtain ⟨q, hq, hdef⟩ := Option.bind_eq_some_iff.1 h
    obtain ⟨⟨m, d, r'⟩, hnext, rfl⟩ := Option.map_eq_some_iff.1 hq
    obtain ⟨rfl, hm, -⟩ := firstSignificant_some hnext
    split at hdef
    · rename_i hd
      obtain ⟨⟨b, name, rest⟩, hname, hfrom⟩ := Option.bind_eq_some_iff.1 hdef
      obtain ⟨rfl, hb, hshown⟩ := firstSignificant_some hname
      exact ⟨_, b, name, rest, .async ha hs hm hd, by simp, hb, hshown, by simpa using hfrom⟩
    · cases hdef
  · rw [Option.bind_some] at h
    split at h
    · rename_i hd
      obtain ⟨⟨b, name, rest⟩, hname, hfrom⟩ := Option.bind_eq_some_iff.1 h
      obtain ⟨rfl, hb, hshown⟩ := firstSignificant_some hname
      exact ⟨_, b, name, rest, .plain ha hd, by simp, hb, hshown, by simpa using hfrom⟩
    · cases h

theorem header?_some {e : Header} (h : header? ts = some e) : Front e.front ∧
    ∃ r, ts = e.front ++ r ∧ e.inside = (bracketed 0 r).1 ∧ e.behind = (bracketed 0 r).2 := by
  obtain ⟨opener, b, name, r, hopener, rfl, hb, hname, h⟩ := header?_opener h
  obtain ⟨a, p, rest, hrest, ha, hp, hfront, hinside, hbehind⟩ := headerFrom_some h
  obtain ⟨types, htypes, hskip, hbefore⟩ := typeParams_skip (by rw [hrest]; simp)
  have hshown : e.front = opener ++ (b ++ name :: (types ++ (a ++ [p]))) := by
    rw [hfront, hskip]
    simp
  refine ⟨hshown ▸ .intro hopener hb hname htypes ha hp, rest, ?_, hinside, hbehind⟩
  rw [hbefore, hrest, hshown]
  simp

theorem Opener.relays (hts : Opener ts) (h : Relays start ts us) : Opener us := by
  cases hts with
  | plain ha hd =>
    obtain ⟨a', us, rfl, ha', h⟩ := h.append_left
    obtain ⟨d', us, rfl, hd', h⟩ := h.cons_left
    rw [h.eq_nil]
    exact .plain (ha'.all_trivia ha) ((hd'.isWord _).trans hd)
  | async ha hs hb hd =>
    obtain ⟨a', us, rfl, ha', h⟩ := h.append_left
    obtain ⟨s', us, rfl, hs', h⟩ := h.cons_left
    obtain ⟨b', us, rfl, hb', h⟩ := h.append_left
    obtain ⟨d', us, rfl, hd', h⟩ := h.cons_left
    rw [h.eq_nil]
    exact .async (ha'.all_trivia ha) ((hs'.isWord _).trans hs) (hb'.all_trivia hb)
      ((hd'.isWord _).trans hd)

theorem TypeParams.relays (hts : TypeParams ts) (h : Relays start ts us) : TypeParams us := by
  cases hts with
  | none =>
    rw [h.eq_nil]
    exact .none
  | some ha ho hi hc =>
    obtain ⟨a', us, rfl, ha', h⟩ := h.append_left
    obtain ⟨o', us, rfl, ho', h⟩ := h.cons_left
    obtain ⟨inner', us, rfl, hi', h⟩ := h.append_left
    obtain ⟨c', us, rfl, hc', h⟩ := h.cons_left
    rw [h.eq_nil]
    exact .some (ha'.all_trivia ha) ((ho'.isMark _).trans ho) (hi'.enclosed hi)
      (hc'.closes.trans hc)

theorem Front.relays (hts : Front ts) (h : Relays start ts us) : Front us := by
  obtain ⟨hopener, hb, hname, htypes, ha, hp⟩ := hts
  obtain ⟨opener', us, rfl, hopener', h⟩ := h.append_left
  obtain ⟨b', us, rfl, hb', h⟩ := h.append_left
  obtain ⟨name', us, rfl, hname', h⟩ := h.cons_left
  obtain ⟨types', us, rfl, htypes', h⟩ := h.append_left
  obtain ⟨a', us, rfl, ha', h⟩ := h.append_left
  obtain ⟨p', us, rfl, hp', h⟩ := h.cons_left
  rw [h.eq_nil]
  exact .intro (hopener.relays hopener') (hb'.all_trivia hb) (hname'.isTrivia.trans hname)
    (htypes.relays htypes') (ha'.all_trivia ha) ((hp'.isMark _).trans hp)

theorem skipJoints_append (ht : t.isTrivia = false) :
    Literal.skipJoints (a ++ t :: r) = Literal.skipJoints a ++ t :: r := by
  have hstop : Literal.skipJoints (t :: r) = t :: r := by
    rw [Literal.skipJoints, List.dropWhile_cons_of_neg]
    simp only [Token.isTrivia, Bool.or_eq_false_iff, decide_eq_false_iff_not] at ht
    simpa using ht.2
  rw [Literal.skipJoints, List.dropWhile_append]
  split
  · rename_i hempty
    rw [Literal.skipJoints, List.isEmpty_iff.1 hempty]
    exact hstop
  · rfl

/-- A front stays one without the joints in front of it. -/
theorem Front.skipJoints (h : Front ts) : Front (Literal.skipJoints ts) ∧
    ∀ r, Literal.skipJoints (ts ++ r) = Literal.skipJoints ts ++ r := by
  have htrivia : ∀ {b : List Token}, (∀ t ∈ b, t.isTrivia = true) →
      ∀ t ∈ Literal.skipJoints b, t.isTrivia = true :=
    fun hb t ht => hb t (List.dropWhile_subset _ ht)
  obtain ⟨hopener, hb, hname, htypes, ha, hp⟩ := h
  cases hopener with
  | plain ho hd =>
    simp only [List.append_assoc, List.cons_append, List.nil_append,
      skipJoints_append (shown_of_word hd)]
    exact ⟨by simpa using Front.intro (.plain (htrivia ho) hd) hb hname htypes ha hp,
      fun _ => trivial⟩
  | async ho hs hm hd =>
    simp only [List.append_assoc, List.cons_append, List.nil_append,
      skipJoints_append (shown_of_word hs)]
    exact ⟨by simpa using Front.intro (.async (htrivia ho) hs hm hd) hb hname htypes ha hp,
      fun _ => trivial⟩

theorem Front.last (h : Front ts) : ∃ a p, ts = a ++ [p] ∧ p.isMark "(" = true := by
  obtain @⟨opener, b, types, a, name, p, -, -, -, -, -, hp⟩ := h
  exact ⟨opener ++ (b ++ name :: (types ++ a)), p, by simp, hp⟩

theorem kind_of_isWord {s : String} (h : t.isWord s = true) : t.kind = .word := by
  rw [Token.isWord, Bool.and_eq_true, decide_eq_true_eq] at h
  exact h.1

theorem head?_shown (ha : ∀ t ∈ a, t.isTrivia = true) (ht : t.isTrivia = false) :
    ((a ++ t :: r).filter fun u => !u.isTrivia).head? = some t := by
  rw [List.filter_append, List.filter_eq_nil_iff.2 fun u hu => by simp [ha u hu]]
  simp [ht]

/-- The first token with syntax of a definition is a word. -/
theorem Front.head (h : Front ts) (r : List Token) :
    ∃ t, ((ts ++ r).filter fun u => !u.isTrivia).head? = some t ∧ t.kind = .word := by
  obtain ⟨hopener, -, -, -, -, -⟩ := h
  cases hopener with
  | plain ho hd =>
    simp only [List.append_assoc, List.cons_append]
    exact ⟨_, head?_shown ho (shown_of_word hd), kind_of_isWord hd⟩
  | async ho hs _ _ =>
    simp only [List.append_assoc, List.cons_append]
    exact ⟨_, head?_shown ho (shown_of_word hs), kind_of_isWord hs⟩

theorem header?_eq_none (h : ∀ t ∈ (ts.filter fun u => !u.isTrivia).head?, t.kind ≠ .word) :
    header? ts = none := by
  cases he : header? ts with
  | none => rfl
  | some e =>
    obtain ⟨hfront, r, rfl, -⟩ := header?_some he
    obtain ⟨t, ht, hk⟩ := hfront.head r
    exact absurd hk (h t ht)

theorem Relays.head?_shown (h : Relays start ts us) :
    ∀ u ∈ (us.filter fun t => !t.isTrivia).head?,
      ∃ t ∈ (ts.filter fun t => !t.isTrivia).head?, Same true t u := by
  induction h with
  | nil => simp
  | @cons _ t u ts us ht h ih =>
    cases htrivia : t.isTrivia with
    | true =>
      have hu := ht.isTrivia.trans htrivia
      simpa [htrivia, hu] using ih
    | false =>
      have hu := ht.isTrivia.trans htrivia
      simpa [htrivia, hu] using ht.weaken

end

/-! Definitions among lines -/

theorem shown_of_isComment {l : Line} (h : l.isComment = true) :
    (l.tokens.filter fun t => !t.isTrivia) = [] := by
  refine List.filter_eq_nil_iff.2 fun t ht => ?_
  have hk : t.kind = .comment := by simpa using List.all_eq_true.1 h t ht
  simp [Token.isTrivia, hk]

/-- A line that is a comment or a decorator defines nothing. -/
theorem not_word_of_decorates {l : Line} (h : l.isComment = true ∨ isDecorator l = true) :
    ∀ t ∈ (l.tokens.filter fun t => !t.isTrivia).head?, t.kind ≠ .word := by
  intro t ht
  obtain hc | hd := h
  · simp [shown_of_isComment hc] at ht
  · have hmark : ((l.tokens.filter fun t => !t.isTrivia).head?).any (·.isMark "@") = true := hd
    rw [show (l.tokens.filter fun t => !t.isTrivia).head? = some t from ht] at hmark
    intro hk
    simp [isMark_of_word hk] at hmark

theorem header?_of_decorates {l : Line} (h : l.isComment = true ∨ isDecorator l = true) :
    header? l.tokens = none := header?_eq_none (not_word_of_decorates h)

/-- The headers of the definitions among lines. -/
theorem header_definitionsOf (decorators ls : List Line) :
    (definitionsOf decorators ls).map Definition.header =
      (ls.map Line.tokens).filterMap header? := by
  induction ls generalizing decorators with
  | nil => rfl
  | cons l ls ih =>
    rw [definitionsOf, List.map_cons]
    by_cases hc : l.isComment = true
    · rw [if_pos hc, ih, List.filterMap_cons_none (header?_of_decorates (.inl hc))]
    by_cases hd : isDecorator l = true
    · rw [if_neg hc, if_pos hd, ih, List.filterMap_cons_none (header?_of_decorates (.inr hd))]
    rw [if_neg hc, if_neg hd]
    cases hh : header? l.tokens with
    | none => rw [List.filterMap_cons_none hh]; exact ih []
    | some e => rw [List.filterMap_cons_some hh, List.map_cons, ih]

end Pipewright.Source
