import Mathlib.Data.List.Forall2
import Pipewright.Proofs.Success
import Pipewright.Storage.Job

/-! What a job that succeeds went through, step by step. -/
namespace Pipewright.Job
variable {α β : Type} {w w' : Workspace}

theorem runOn_bind (x : Job α) (f : α → Job β) (w : Workspace) :
    (x >>= f).runOn w =
      match x.runOn w with
      | (.ok a, w₁) => (f a).runOn w₁
      | (.error e, w₁) => (.error e, w₁) := by
  refine (run_bind x f w).trans ?_
  rw [runOn, StateT.run]
  cases x.run w with
  | mk r w₁ => cases r <;> rfl

theorem bind_ok {x : Job α} {f : α → Job β} {b : β} (h : (x >>= f).runOn w = (.ok b, w')) :
    ∃ a w₁, x.runOn w = (.ok a, w₁) ∧ (f a).runOn w₁ = (.ok b, w') := by
  rw [runOn_bind] at h
  cases hx : x.runOn w with
  | mk r w₁ =>
    rw [hx] at h
    cases r with
    | error e => cases h
    | ok a => exact ⟨a, w₁, rfl, h⟩

theorem pure_ok {a b : α} (h : (pure a : Job α).runOn w = (.ok b, w')) : a = b ∧ w = w' := by
  cases h
  exact ⟨rfl, rfl⟩

theorem ofExcept_ok {r : Except Fault α} {a : α} (h : (ofExcept r).runOn w = (.ok a, w')) :
    r = .ok a ∧ w = w' := by
  cases h
  exact ⟨rfl, rfl⟩

theorem runOn_workingDirectory (f : String → Job β) (w : Workspace) :
    (workingDirectory >>= f).runOn w = (f w.here.text).runOn w := rfl

theorem runOn_askOr (tell : FileFault → Fault) (f : FileTree → Place → Except FileFault α)
    (w : Workspace) : (askOr tell f).runOn w = ((f w.files w.here).mapError tell, w) := by
  have hget : (get : Job Workspace).runOn w = (.ok w, w) := rfl
  rw [askOr, runOn_bind, hget]
  dsimp only
  cases f w.files w.here <;> rfl

/-- A change of the files leaves the working directory alone, and all of it if it fails. -/
theorem runOn_change (f : FileTree → Place → Except FileFault FileTree) (w : Workspace) :
    (change f).runOn w =
      match f w.files w.here with
      | .ok t => (.ok (), { w with files := t })
      | .error e => (.error (.file e), w) := by
  rw [change, runOn_bind, ask, runOn_askOr]
  cases f w.files w.here <;> rfl

theorem change_ok {f : FileTree → Place → Except FileFault FileTree} {u : Unit}
    (h : (change f).runOn w = (.ok u, w')) : ∃ t, f w.files w.here = .ok t ∧
      w' = { w with files := t } := by
  rw [runOn_change] at h
  split at h
  · rename_i t ht
    exact ⟨t, ht, (Prod.mk.inj h).2.symm⟩
  · cases h

/-- If a job succeeds for each of the values and changes nothing, so does the job for all. -/
theorem runOn_mapM {f : α → Job β} {as : List α}
    (h : ∀ a ∈ as, ∃ b, (f a).runOn w = (.ok b, w)) :
    ∃ bs, (as.mapM f).runOn w = (.ok bs, w) ∧
      List.Forall₂ (fun a b => (f a).runOn w = (.ok b, w)) as bs := by
  induction as with
  | nil => exact ⟨[], rfl, .nil⟩
  | cons a as ih =>
    obtain ⟨ha, has⟩ := List.forall_mem_cons.1 h
    obtain ⟨b, hb⟩ := ha
    obtain ⟨bs, hbs, hall⟩ := ih has
    refine ⟨b :: bs, ?_, .cons hb hall⟩
    rw [List.mapM_cons, runOn_bind, hb]
    dsimp only
    rw [runOn_bind, hbs]
    rfl

/-! Jobs that leave files alone -/

section
variable {x : Job α}

/-- A job that only tells. -/
def Quiet (x : Job α) : Prop :=
  ∀ w, (x.runOn w).2.files = w.files ∧ (x.runOn w).2.here = w.here

theorem Quiet.ofExcept (r : Except Fault α) : Quiet (Job.ofExcept r) := fun _ => ⟨rfl, rfl⟩

theorem Quiet.warn (texts : List String) : Quiet (Job.warn texts) := fun _ => ⟨rfl, rfl⟩

theorem Quiet.bind {f : α → Job β} (hx : Quiet x) (hf : ∀ a, Quiet (f a)) : Quiet (x >>= f) := by
  intro w
  have hfirst := hx w
  rw [runOn_bind]
  cases hr : x.runOn w with
  | mk r w₁ =>
    rw [hr] at hfirst
    cases r with
    | error e => exact hfirst
    | ok a => exact ⟨(hf a w₁).1.trans hfirst.1, (hf a w₁).2.trans hfirst.2⟩

theorem runOn_tryCatch (x : Job α) (f : Fault → Job α) (w : Workspace) :
    (tryCatch x f).runOn w =
      match x.runOn w with
      | (.ok a, w₁) => (.ok a, w₁)
      | (.error e, w₁) => (f e).runOn w₁ := by
  simp only [runOn, ExceptT.run, StateT.run, tryCatch, tryCatchThe, MonadExceptOf.tryCatch,
    ExceptT.tryCatch, ExceptT.mk, bind, StateT.bind]
  cases x w with
  | mk r w₁ => cases r <;> rfl

theorem Quiet.tryCatch {f : Fault → Job α} (hx : Quiet x) (hf : ∀ e, Quiet (f e)) :
    Quiet (tryCatch x f) := by
  intro w
  have hfirst := hx w
  rw [runOn_tryCatch]
  cases hr : x.runOn w with
  | mk r w₁ =>
    rw [hr] at hfirst
    cases r with
    | ok a => exact hfirst
    | error e => exact ⟨(hf e w₁).1.trans hfirst.1, (hf e w₁).2.trans hfirst.2⟩

end
end Pipewright.Job
