import Mathlib.Tactic.TypeStar

/-! What a computation that succeeds went through, and where one that fails stopped. -/
namespace Pipewright
variable {ε : Type*} {α β : Type _}

theorem bind_ok {x : Except ε α} {f : α → Except ε β} {b : β} (h : (x >>= f) = .ok b) :
    ∃ a, x = .ok a ∧ f a = .ok b := by
  cases x with
  | error e => cases h
  | ok a => exact ⟨a, rfl, h⟩

/-- A computation with a state goes on from the state that its first part leaves. -/
theorem run_bind {ε σ α β : Type} (x : ExceptT ε (StateM σ) α) (f : α → ExceptT ε (StateM σ) β)
    (s : σ) : (x >>= f).run s =
      match x.run s with
      | (.ok a, t) => (f a).run t
      | (.error e, t) => (.error e, t) := by
  change (ExceptT.bindCont f (x.run s).1).run (x.run s).2 = _
  cases hx : x.run s with
  | mk r t => cases r <;> rfl

theorem foldlM_cons_of_ok {f : β → α → Except ε β} {s t : β} {a : α} {as : List α}
    (h : f s a = .ok t) : (a :: as).foldlM f s = as.foldlM f t := by
  rw [List.foldlM_cons, h]
  rfl

theorem map_error_iff {x : Except ε α} {f : α → β} {e : ε} :
    x.map f = .error e ↔ x = .error e := by
  cases x <;> simp [Except.map]

/-- A run fails at its first step that fails. -/
theorem foldlM_error_iff {f : β → α → Except ε β} {s : β} {as : List α} {e : ε} :
    as.foldlM f s = .error e ↔ ∃ before a after t, as = before ++ a :: after ∧
      before.foldlM f s = .ok t ∧ f t a = .error e := by
  constructor
  · intro h
    induction as generalizing s with
    | nil => cases h
    | cons a as ih =>
      cases hstep : f s a with
      | error e' =>
        rw [List.foldlM_cons, hstep] at h
        cases h
        exact ⟨[], a, as, s, rfl, rfl, hstep⟩
      | ok t =>
        rw [foldlM_cons_of_ok hstep] at h
        obtain ⟨before, b, after, u, rfl, hrun, hb⟩ := ih h
        exact ⟨a :: before, b, after, u, rfl, by rw [foldlM_cons_of_ok hstep, hrun], hb⟩
  · rintro ⟨before, a, after, t, rfl, hrun, ha⟩
    rw [List.foldlM_append, hrun]
    change f t a >>= _ = _
    rw [ha]
    rfl

section
variable {σ τ : Type _}

/-- A run whose steps can be told from a part of the state can be told from that part. -/
theorem map_foldlM {g : σ → τ} {f : σ → α → Except ε σ} {h : τ → α → Except ε τ}
    (hf : ∀ s a, (f s a).map g = h (g s) a) (as : List α) (s : σ) :
    (as.foldlM f s).map g = as.foldlM h (g s) := by
  induction as generalizing s with
  | nil => rfl
  | cons a as ih =>
    rw [List.foldlM_cons, List.foldlM_cons, ← hf]
    cases f s a with
    | error e => rfl
    | ok t => exact ih t

end

end Pipewright
