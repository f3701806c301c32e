import Pipewright.Proofs.Literal.Bare
import Pipewright.Proofs.Source.Cuts
import Pipewright.Proofs.Source.Relaid

/-! What tokens say when the text they stand in is laid out anew. -/
namespace Pipewright.Source

/-! One token -/

section
variable {start : Bool} {t u : Token}

theorem Same.weaken (h : Same start t u) : Same true t u := ⟨h.kind, h.text, by simp⟩

theorem Same.refl (start : Bool) (t : Token) : Same start t t :=
  ⟨rfl, fun _ => rfl, fun _ _ _ => rfl⟩

theorem Same.isTrivia (h : Same start t u) : u.isTrivia = t.isTrivia := by
  rw [Token.isTrivia, Token.isTrivia, h.kind]

theorem Same.breaks (h : Same start t u) : u.breaks = t.breaks := by
  rw [Token.breaks, Token.breaks, h.kind]

theorem Same.isMark (h : Same start t u) (s : String) : u.isMark s = t.isMark s := by
  cases ht : t.isTrivia with
  | true => rw [Token.isMark_of_trivia ht, Token.isMark_of_trivia (h.isTrivia.trans ht)]
  | false => rw [Token.isMark, h.kind, h.text ht, Token.isMark]

theorem Same.isWord (h : Same start t u) (s : String) : u.isWord s = t.isWord s := by
  cases ht : t.isTrivia with
  | true => rw [Token.isWord_of_trivia ht, Token.isWord_of_trivia (h.isTrivia.trans ht)]
  | false => rw [Token.isWord, h.kind, h.text ht, Token.isWord]

theorem Same.opens (h : Same start t u) : u.opens = t.opens := by
  simp only [Token.opens, h.isMark]

theorem Same.closes (h : Same start t u) : u.closes = t.closes := by
  simp only [Token.closes, h.isMark]

theorem Same.bare (h : Same start t u) : u.bare = t.bare := by
  rw [Token.bare, Token.bare, h.isTrivia, h.kind]
  cases ht : t.isTrivia with
  | true => rfl
  | false => rw [h.text ht]

theorem Same.steady (h : Same start t u) (ht : t.Steady) : u.Steady := by
  refine ⟨h.kind ▸ ht.kind, fun hk => ?_⟩
  have hkt : t.kind = .string := h.kind.symm.trans hk
  rw [h.text (by simp [Token.isTrivia, hkt])]
  exact ht.line hkt

theorem Same.depthAfter (h : Same start t u) (depth : Nat) :
    depthAfter depth u = depthAfter depth t := by
  simp only [Source.depthAfter, h.opens, h.closes]

theorem Same.lambdasAfter (h : Same start t u) (depth lambdas : Nat) :
    lambdasAfter depth lambdas u = lambdasAfter depth lambdas t := by
  simp only [Source.lambdasAfter, h.isWord, h.isMark]

end

/-! Parts of lists -/

section
variable {start : Bool} {t u : Token} {ts us as bs : List Token}

theorem Relays.weaken (h : Relays start ts us) : Relays true ts us := by
  cases h with
  | nil => exact .nil true
  | cons ht h => exact .cons ht.weaken h

theorem Relays.eq_nil (h : Relays start [] us) : us = [] := by
  cases h
  rfl

theorem Relays.refl (start : Bool) (ts : List Token) : Relays start ts ts := by
  induction ts generalizing start with
  | nil => exact .nil start
  | cons t ts ih => exact .cons (.refl start t) (ih t.breaks)

theorem Relays.trans {start' : Bool} {vs : List Token} (h : Relays start ts us)
    (h' : Relays start' us vs) : Relays (start || start') ts vs := by
  induction h generalizing start' vs with
  | nil =>
    rw [h'.eq_nil]
    exact .nil _
  | @cons start t u ts us ht _ ih =>
    cases h' with
    | @cons _ _ v _ vs hu h' =>
      refine .cons ⟨hu.kind.trans ht.kind, fun htrivia => ?_, fun hs hk hgap => ?_⟩ ?_
      · rw [hu.text (ht.isTrivia.trans htrivia), ht.text htrivia]
      · simp only [Bool.or_eq_false_iff] at hs
        have hsame := ht.gap hs.1 hk hgap
        rw [hu.gap hs.2 (ht.kind ▸ hk) (hsame ▸ hgap), hsame]
      · have hrest := ih h'
        rwa [ht.breaks, Bool.or_self] at hrest

theorem Relays.append (has : Relays start as ts)
    (hbs : Relays (as.getLast?.elim start Token.breaks) bs us) :
    Relays start (as ++ bs) (ts ++ us) := by
  induction has with
  | nil => exact hbs
  | @cons start a t as ts ha has ih =>
    rw [List.cons_append, List.cons_append]
    refine .cons ha (ih ?_)
    cases as with
    | nil => exact hbs
    | cons b as => rwa [List.getLast?_cons_cons] at hbs

theorem Relays.append_left (h : Relays start (as ++ bs) us) :
    ∃ as' bs', us = as' ++ bs' ∧ Relays start as as' ∧ Relays true bs bs' := by
  induction as generalizing start us with
  | nil => exact ⟨[], us, rfl, .nil start, h.weaken⟩
  | cons a as ih =>
    rw [List.cons_append] at h
    cases h with
    | @cons _ _ u _ us ha h =>
      obtain ⟨as', bs', rfl, has, hbs⟩ := ih h
      exact ⟨u :: as', bs', rfl, .cons ha has, hbs⟩

theorem Relays.cons_left (h : Relays start (t :: ts) us) :
    ∃ u us', us = u :: us' ∧ Same start t u ∧ Relays true ts us' := by
  cases h with
  | cons ht h => exact ⟨_, _, rfl, ht, h.weaken⟩

theorem Relays.nil_right (h : Relays start ts []) : ts = [] := by
  cases h
  rfl

theorem Relays.all {p : Token → Bool} (hp : ∀ {start t u}, Same start t u → p u = p t)
    (h : Relays start ts us) (hts : ∀ t ∈ ts, p t = true) : ∀ u ∈ us, p u = true := by
  induction h with
  | nil => exact hts
  | cons ht _ ih =>
    rw [List.forall_mem_cons] at hts ⊢
    exact ⟨(hp ht).trans hts.1, ih hts.2⟩

theorem Relays.all_trivia (h : Relays start ts us) (hts : ∀ t ∈ ts, t.isTrivia = true) :
    ∀ u ∈ us, u.isTrivia = true :=
  h.all (fun hs => hs.isTrivia) hts

theorem Relays.all_newline (h : Relays start ts us) (hts : ∀ t ∈ ts, t.kind = .newline) :
    ∀ u ∈ us, u.kind = .newline := by
  have hall := @Relays.all start ts us (fun t => t.kind = .newline) (fun hs => by rw [hs.kind]) h
    fun t ht => decide_eq_true (hts t ht)
  exact fun u hu => of_decide_eq_true (hall u hu)

theorem Relays.steady (h : Relays start ts us) (hts : ∀ t ∈ ts, t.Steady) :
    ∀ u ∈ us, u.Steady := by
  induction h with
  | nil => exact hts
  | cons ht _ ih =>
    rw [List.forall_mem_cons] at hts ⊢
    exact ⟨ht.steady hts.1, ih hts.2⟩

theorem Relays.dropWhile {p : Token → Bool} (hp : ∀ {start t u}, Same start t u → p u = p t)
    (h : Relays start ts us) : Relays true (ts.dropWhile p) (us.dropWhile p) := by
  induction h with
  | nil => exact .nil true
  | @cons _ t u ts us ht h ih =>
    cases hpt : p t with
    | true =>
      rw [List.dropWhile_cons_of_pos hpt, List.dropWhile_cons_of_pos ((hp ht).trans hpt)]
      exact ih
    | false =>
      rw [List.dropWhile_cons_of_neg (by simp [hpt]),
        List.dropWhile_cons_of_neg (by simp [(hp ht).trans hpt])]
      exact .cons ht.weaken h

theorem Relays.getLast? (h : Relays start ts us) (hts : ∀ t ∈ ts.getLast?, t.isTrivia = false) :
    ∀ u ∈ us.getLast?, u.isTrivia = false := by
  induction h with
  | nil => exact hts
  | @cons _ t u ts us ht h ih =>
    cases h with
    | nil => simpa using ht.isTrivia.trans (hts t rfl)
    | cons hs h =>
      rw [List.getLast?_cons_cons] at hts ⊢
      exact ih hts

theorem rdropWhile_trivia (has : ∀ t ∈ as.getLast?, t.isTrivia = false)
    (hbs : ∀ t ∈ bs, t.isTrivia = true) : (as ++ bs).rdropWhile Token.isTrivia = as := by
  induction bs using List.reverseRecOn with
  | nil =>
    rw [List.append_nil, List.rdropWhile_eq_self_iff]
    intro hne
    simp [has _ (List.getLast?_eq_some_getLast hne)]
  | append_singleton bs b ih =>
    rw [List.forall_mem_append] at hbs
    rw [← List.append_assoc, List.rdropWhile_concat_pos _ _ _ (hbs.2 b (by simp)), ih hbs.1]

theorem Relays.trimTrivia (h : Relays start ts us) :
    Relays true (trimTrivia ts) (trimTrivia us) := by
  have htrim : ∀ vs, Source.trimTrivia vs =
      (vs.dropWhile Token.isTrivia).rdropWhile Token.isTrivia := fun _ => rfl
  have hdrop := h.dropWhile fun hs => hs.isTrivia
  rw [htrim, htrim]
  generalize ts.dropWhile Token.isTrivia = as at hdrop ⊢
  generalize us.dropWhile Token.isTrivia = bs at hdrop ⊢
  have hparts : as.rdropWhile Token.isTrivia ++ as.rtakeWhile Token.isTrivia = as :=
    List.rdropWhile_append_rtakeWhile
  rw [← hparts] at hdrop
  obtain ⟨ms, rs, rfl, hms, hrs⟩ := hdrop.append_left
  rw [rdropWhile_trivia]
  · exact hms
  · refine hms.getLast? fun t ht => ?_
    have hne := List.ne_nil_of_mem (List.mem_of_getLast? ht)
    have hlast := List.rdropWhile_last_not Token.isTrivia as hne
    rw [List.getLast?_eq_some_getLast hne, Option.mem_some_iff] at ht
    simpa [ht] using hlast
  · exact hrs.all_trivia fun t ht => List.mem_rtakeWhile_imp ht

theorem Relays.splitAtTop {p : Token → Bool} (hp : ∀ {start t u}, Same start t u → p u = p t)
    (h : Relays start ts us) (depth lambdas : Nat) :
    Relays start (splitAtTop p depth lambdas ts).1 (splitAtTop p depth lambdas us).1 ∧
      Relays true (fromSplit (splitAtTop p depth lambdas ts).2)
        (fromSplit (splitAtTop p depth lambdas us).2) := by
  induction h generalizing depth lambdas with
  | nil start => exact ⟨.nil start, .nil true⟩
  | @cons _ t u ts us ht h ih =>
    cases hpt : depth = 0 && lambdas = 0 && p t with
    | true =>
      have hpu : (depth = 0 && lambdas = 0 && p u) = true := by rw [hp ht, hpt]
      rw [Source.splitAtTop, Source.splitAtTop, if_pos hpt, if_pos hpu]
      exact ⟨.nil _, .cons ht.weaken h⟩
    | false =>
      have hpu : (depth = 0 && lambdas = 0 && p u) = false := by rw [hp ht, hpt]
      rw [splitAtTop_cons hpt, splitAtTop_cons hpu, ht.depthAfter, ht.lambdasAfter]
      exact ⟨.cons ht (ih _ _).1, (ih _ _).2⟩

/-- Either both splits find a token or neither does. -/
theorem Relays.fromSplit_cases {r r' : Option (Token × List Token)}
    (h : Relays true (fromSplit r) (fromSplit r')) : (r = none ∧ r' = none) ∨
      ∃ t ts u us, r = some (t, ts) ∧ r' = some (u, us) ∧ Same true t u ∧ Relays true ts us := by
  obtain _ | ⟨t, ts⟩ := r <;> obtain _ | ⟨u, us⟩ := r'
  · exact .inl ⟨rfl, rfl⟩
  · cases h
  · cases h
  · obtain ⟨v, vs, he, hv, hvs⟩ := h.cons_left
    cases he
    exact .inr ⟨t, ts, u, us, rfl, rfl, hv, hvs⟩

theorem Relays.pieces {p : Token → Bool} (hp : ∀ {start t u}, Same start t u → p u = p t)
    (h : Relays true ts us) : List.Forall₂ (Relays true) (pieces p ts) (pieces p us) := by
  induction hn : ts.length using Nat.strong_induction_on generalizing ts us with
  | h n ih =>
    obtain ⟨hfirst, hrest⟩ := h.splitAtTop hp 0 0
    rw [pieces_eq, pieces_eq]
    obtain ⟨hr, hr'⟩ | ⟨t, as, u, bs, hr, hr', ht, has⟩ := hrest.fromSplit_cases
    · rw [hr, hr']
      exact .cons hfirst .nil
    · rw [hr, hr']
      have hlen := length_of_split (Prod.ext rfl hr)
      exact .cons hfirst (ih _ (hn ▸ hlen) has rfl)

theorem Relays.starts_iff (h : Relays start ts us) : Starts us ↔ Starts ts := by
  induction h with
  | nil => rfl
  | @cons _ t u ts us ht h ih =>
    cases htrivia : t.isTrivia with
    | true =>
      have hu := ht.isTrivia.trans htrivia
      have happend := @starts_append ts [t] (by simp [htrivia])
      have happend' := @starts_append us [u] (by simp [hu])
      exact happend'.trans (ih.trans happend.symm)
    | false =>
      have hu := ht.isTrivia.trans htrivia
      simp only [Starts, htrivia, hu, Bool.not_false, List.filter_cons_of_pos, List.head?_cons,
        Option.mem_some_iff, forall_eq', ht.kind, ht.isMark, ht.opens]

end

/-! Items -/

/-- Tokens without a line break between them. -/
structure OnOneLine (ts : List Token) : Prop where
  shown : ∀ t ∈ ts, t.isTrivia = false
  gaps : ∀ t ∈ ts.tail, '\n' ∉ t.gap

/-- An item with its name and its annotation on one line each, and so with a default that is no
literal. -/
structure Plain (ts : List Token) : Prop where
  target : OnOneLine (itemTarget ts)
  annotation : ∀ v ∈ itemAnnotation? ts, OnOneLine v
  default : ∀ v ∈ itemDefault? ts, OnOneLine v ∨ (Literal.ofTokens? v).isSome = true

section
variable {start keywords : Bool} {ts us : List Token}

theorem Relays.map_bare (h : Relays start ts us) : us.map Token.bare = ts.map Token.bare := by
  induction h with
  | nil => rfl
  | cons ht _ ih => rw [List.map_cons, List.map_cons, ht.bare, ih]

/-- What stands behind a token on its line is kept. -/
theorem Relays.eq_of_line (h : Relays false ts us)
    (hts : ∀ t ∈ ts, t.isTrivia = false ∧ '\n' ∉ t.gap) : us = ts := by
  generalize hs : false = start at h
  induction h with
  | nil => rfl
  | @cons _ t u ts us ht h ih =>
    rw [List.forall_mem_cons] at hts
    obtain ⟨⟨htrivia, hgap⟩, hts⟩ := hts
    have hkind : t.kind ≠ .newline ∧ t.kind ≠ .joint := by
      simp only [Token.isTrivia, Bool.or_eq_false_iff, decide_eq_false_iff_not] at htrivia
      exact ⟨htrivia.1.2, htrivia.2⟩
    have hbreaks : t.breaks = false := by simp [Token.breaks, hkind]
    rw [ih hts hbreaks.symm]
    have hu : u = t := by
      cases u
      cases t
      simp only [Token.mk.injEq]
      exact ⟨ht.gap hs.symm hkind.1 hgap, ht.kind, ht.text htrivia⟩
    rw [hu]

theorem Relays.exprText (h : Relays start ts us) (hts : OnOneLine ts) :
    Literal.exprText us = Literal.exprText ts := by
  cases h with
  | nil => rfl
  | @cons _ t u ts us ht h =>
    obtain ⟨hshown, hgaps⟩ := hts
    rw [List.forall_mem_cons] at hshown
    have htrivia := hshown.1
    have hbreaks : t.breaks = false := by
      simp only [Token.isTrivia, Bool.or_eq_false_iff, decide_eq_false_iff_not] at htrivia
      simp [Token.breaks, htrivia]
    rw [hbreaks] at h
    rw [h.eq_of_line fun s hs => ⟨hshown.2 s hs, hgaps s hs⟩, Literal.exprText, Literal.exprText,
      ht.text htrivia]

theorem Relays.ofTokens (h : Relays start ts us)
    (hts : OnOneLine ts ∨ (Literal.ofTokens? ts).isSome = true) :
    Literal.ofTokens us = Literal.ofTokens ts := by
  rw [Literal.ofTokens, Literal.ofTokens, Literal.ofTokens?_of_bare h.map_bare]
  obtain hline | hsome := hts
  · rw [h.exprText hline]
  · obtain ⟨l, hl⟩ := Option.isSome_iff_exists.1 hsome
    rw [hl]
    rfl

theorem Relays.itemFront (h : Relays start ts us) : Relays start (itemFront ts) (itemFront us) :=
  (h.splitAtTop (fun hs => hs.isMark "=") 0 0).1

theorem Relays.itemTarget (h : Relays start ts us) :
    Relays true (itemTarget ts) (itemTarget us) :=
  (h.itemFront.splitAtTop (fun hs => hs.isMark ":") 0 0).1.trimTrivia

/-- What is read from the text behind a mark, if there is one. -/
theorem Relays.map_marked {α : Type} {r r' : Option (Token × List Token)} {f : List Token → α}
    (h : Relays true (fromSplit r) (fromSplit r'))
    (hf : ∀ v ∈ r.map fun q => Source.trimTrivia q.2, ∀ w, Relays true v w → f w = f v) :
    (r'.map fun q => Source.trimTrivia q.2).map f =
      (r.map fun q => Source.trimTrivia q.2).map f := by
  obtain ⟨rfl, rfl⟩ | ⟨t, as, u, bs, rfl, rfl, -, h⟩ := h.fromSplit_cases
  · rfl
  · exact congrArg some (hf _ rfl _ h.trimTrivia)

theorem Relays.itemParam (h : Relays start ts us) (hts : Plain ts) (kind : ParamKind) :
    itemParam kind us = itemParam kind ts := by
  have hannotation := (h.itemFront.splitAtTop (fun hs => hs.isMark ":") 0 0).2.map_marked
    fun v hv w hw => congrArg String.ofList (hw.exprText (hts.annotation v hv))
  have hdefault := (h.splitAtTop (fun hs => hs.isMark "=") 0 0).2.map_marked
    fun v hv w hw => hw.ofTokens (hts.default v hv)
  rw [Source.itemParam, Source.itemParam, paramName, paramName, h.itemTarget.exprText hts.target]
  exact congr (congrArg _ hannotation) hdefault

theorem Relays.paramItem (h : Relays start ts us) (hts : Plain (Source.trimTrivia ts)) :
    paramItem keywords us = paramItem keywords ts := by
  have htrim := h.trimTrivia
  cases ht : Source.trimTrivia ts with
  | nil =>
    rw [ht] at htrim
    rw [Source.paramItem, Source.paramItem, ht, htrim.eq_nil]
  | cons t as =>
    rw [ht] at htrim hts
    obtain ⟨u, bs, hu, hsame, has⟩ := htrim.cons_left
    have hempty : bs.isEmpty = as.isEmpty := by cases has <;> rfl
    have hparam : ∀ kind, Source.itemParam kind (u :: bs) = Source.itemParam kind (t :: as) :=
      fun kind => (hu ▸ htrim).itemParam hts kind
    simp only [paramItem_eq ht, paramItem_eq hu, hsame.isMark, hsame.kind, hparam, hempty]

theorem paramsOf_congr {is js : List (List Token)} (h : List.Forall₂ (Relays true) is js)
    (his : ∀ i ∈ is, Plain (Source.trimTrivia i)) (keywords : Bool) :
    paramsOf keywords js = paramsOf keywords is := by
  induction h generalizing keywords with
  | nil => rfl
  | cons hi _ ih =>
    rw [List.forall_mem_cons] at his
    simp only [paramsOf, hi.paramItem his.1, ih his.2]

theorem plain_nil : Plain [] :=
  ⟨⟨List.forall_mem_nil _, List.forall_mem_nil _⟩, (fun v h => by cases h), (fun v h => by cases h)⟩

theorem Relays.listParams (h : Relays true ts us) (hts : ∀ i ∈ items ts, Plain i)
    (keywords : Bool) : listParams keywords us = listParams keywords ts := by
  refine paramsOf_congr (h.pieces fun hs => hs.isMark ",") (fun i hi => ?_) keywords
  cases hempty : (Source.trimTrivia i).isEmpty with
  | true =>
    rw [List.isEmpty_iff.1 hempty]
    exact plain_nil
  | false =>
    exact hts _ (List.mem_filter.2 ⟨List.mem_map_of_mem hi, by simp [hempty]⟩)

end
end Pipewright.Source
