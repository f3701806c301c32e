import Pipewright.Container
import Pipewright.Proofs.Entries
import Pipewright.Proofs.Storage.Jobs
import Pipewright.Proofs.Storage.Paths

/-! Calls for the images of references over one cache: what the builder is asked for, and what the
cache holds after a run of them. -/
namespace Pipewright.Container

/-- The path that the image for a reference is built at. -/
def imagePath (dir reference : String) : String := Path.join dir (imageFileName reference)

/-- A call for the image of a reference, with what it works on. -/
structure Call where
  builder : Builder
  reference : String
  space : Workspace

namespace Call

def isFile (q : Call) : Bool := q.space.files.isFile q.space.here q.reference

def outcome (q : Call) (dir : String) (cache : Cache) : Except Fault (String × Cache) :=
  ((resolve q.builder dir q.reference cache).runOn q.space).1

/-- What the builder says when the call asks it. -/
def build (q : Call) (dir : String) : Except Fault Unit :=
  ((q.builder (imagePath dir q.reference) q.reference).runOn q.space).1

end Call

/-- Refuses to build anything, and tells what it was asked for. -/
def refusing : Builder := fun target reference => Job.fail (.container reference target)

def Call.refused (q : Call) : Call := { q with builder := refusing }

/-- The path and the reference that a call asks the builder for: those that a builder tells of that
refuses. -/
def Call.asked? (q : Call) (dir : String) (cache : Cache) : Option (String × String) :=
  match q.refused.outcome dir cache with
  | .error (.container reference target) => some (target, reference)
  | _ => none

/-- What happens at a call. -/
structure Event where
  reference : String
  asked : Option (String × String)
  answer : Except Fault String
  deriving DecidableEq

/-- A cache with the events so far. -/
structure Session where
  cache : Cache
  events : List Event

namespace Session
variable {dir : String} {s : Session} {q : Call}

/-- A call in a session. One that fails leaves the cache as it is. -/
def call (dir : String) (s : Session) (q : Call) : Session where
  cache := ((q.outcome dir s.cache).map Prod.snd).toOption.getD s.cache
  events := s.events ++
    [⟨q.reference, q.asked? dir s.cache, (q.outcome dir s.cache).map Prod.fst⟩]

def run (dir : String) (qs : List Call) : Session := qs.foldl (call dir) ⟨[], []⟩

theorem run_append_singleton (dir : String) (qs : List Call) (q : Call) :
    run dir (qs ++ [q]) = call dir (run dir qs) q := by
  rw [run, List.foldl_append]
  rfl

end Session

/-! The steps of a call -/

section
variable {dir : String} {cache : Cache} {q : Call}

theorem runOn_isFile (q : Call) :
    (Job.isFile q.reference).runOn q.space = (.ok q.isFile, q.space) := rfl

theorem outcome_file (h : q.isFile = true) : q.outcome dir cache = .ok (q.reference, cache) := by
  rw [Call.outcome, resolve, Job.runOn_bind, runOn_isFile, h]
  rfl

theorem outcome_known {path : String} (h : q.isFile = false)
    (hc : Entries.get? q.reference cache = some path) :
    q.outcome dir cache = .ok (path, cache) := by
  rw [Call.outcome, resolve, Job.runOn_bind, runOn_isFile, h]
  simp only [hc]
  rfl

theorem outcome_new (h : q.isFile = false) (hc : Entries.get? q.reference cache = none) :
    q.outcome dir cache = (q.build dir).map fun _ =>
      (imagePath dir q.reference, Entries.put q.reference (imagePath dir q.reference) cache) := by
  rw [Call.outcome, resolve, Job.runOn_bind, runOn_isFile, h]
  simp only [hc, Bool.false_eq_true, if_false]
  rw [Job.runOn_bind, Call.build, imagePath]
  cases hb : (q.builder (Path.join dir (imageFileName q.reference)) q.reference).runOn q.space with
  | mk r w => cases r <;> rfl

end

namespace Session
variable {dir : String} {isFile : String → Bool} {s : Session} {q : Call}

theorem call_file (h : q.isFile = true) :
    call dir s q = ⟨s.cache, s.events ++ [⟨q.reference, none, .ok q.reference⟩]⟩ := by
  have hasked : q.asked? dir s.cache = none := by
    rw [Call.asked?, outcome_file (q := q.refused) h]
  rw [call, hasked, outcome_file h]
  rfl

theorem call_known {path : String} (h : q.isFile = false)
    (hc : Entries.get? q.reference s.cache = some path) :
    call dir s q = ⟨s.cache, s.events ++ [⟨q.reference, none, .ok path⟩]⟩ := by
  have hasked : q.asked? dir s.cache = none := by
    rw [Call.asked?, outcome_known (q := q.refused) h hc]
  rw [call, hasked, outcome_known h hc]
  rfl

/-- A call for a reference that is no file and not in the cache asks the builder. -/
theorem asked?_new (h : q.isFile = false) (hc : Entries.get? q.reference s.cache = none) :
    q.asked? dir s.cache = some (imagePath dir q.reference, q.reference) := by
  rw [Call.asked?, outcome_new (q := q.refused) h hc]
  rfl

theorem call_built (h : q.isFile = false) (hc : Entries.get? q.reference s.cache = none)
    (hb : q.build dir = .ok ()) :
    call dir s q = ⟨Entries.put q.reference (imagePath dir q.reference) s.cache,
      s.events ++ [⟨q.reference, some (imagePath dir q.reference, q.reference),
        .ok (imagePath dir q.reference)⟩]⟩ := by
  rw [call, asked?_new h hc, outcome_new h hc, hb]
  simp only [Except.map, Except.toOption, Option.getD_some]

theorem call_failed {e : Fault} (h : q.isFile = false)
    (hc : Entries.get? q.reference s.cache = none) (hb : q.build dir = .error e) :
    call dir s q = ⟨s.cache, s.events ++
      [⟨q.reference, some (imagePath dir q.reference, q.reference), .error e⟩]⟩ := by
  rw [call, asked?_new h hc, outcome_new h hc, hb]
  simp only [Except.map, Except.toOption, Option.getD_none]

/-- A call that asks the builder comes to what the builder says. -/
theorem outcome_of_asked {cache : Cache} (h : q.asked? dir cache ≠ none) :
    q.outcome dir cache = (q.build dir).map fun _ =>
      (imagePath dir q.reference, Entries.put q.reference (imagePath dir q.reference) cache) := by
  cases hfile : q.isFile with
  | true => exact absurd (by rw [Call.asked?, outcome_file (q := q.refused) hfile]) h
  | false =>
    cases hc : Entries.get? q.reference cache with
    | some path => exact absurd (by rw [Call.asked?, outcome_known (q := q.refused) hfile hc]) h
    | none => exact outcome_new hfile hc

/-- Where references are files or not once and for all: the path of the image for a reference. -/
def settled (dir : String) (isFile : String → Bool) (reference : String) : String :=
  if isFile reference then reference else imagePath dir reference

/-- Some event before has told the image for the reference. -/
def Known (events : List Event) (reference : String) : Prop :=
  ∃ e ∈ events, e.reference = reference ∧ e.answer.toBool

/-- What holds of a session when references are files or not once and for all. -/
structure Sound (dir : String) (isFile : String → Bool) (s : Session) : Prop where
  distinct : (s.cache.map Prod.fst).Nodup
  /-- The cache holds the references that have been built, and no others. -/
  cached : ∀ r p, Entries.get? r s.cache = some p ↔
    isFile r = false ∧ p = imagePath dir r ∧ Known s.events r
  answers : ∀ e ∈ s.events, ∀ p, e.answer = .ok p → p = settled dir isFile e.reference
  /-- The builder is asked unless the reference is a file or its image is known. -/
  asks : ∀ before e after, s.events = before ++ e :: after →
    (isFile e.reference = false ∧ ¬Known before e.reference →
      e.asked = some (imagePath dir e.reference, e.reference)) ∧
    (isFile e.reference ∨ Known before e.reference → e.asked = none ∧ e.answer.toBool)

theorem known_append_singleton {events : List Event} {e : Event} {r : String} :
    Known (events ++ [e]) r ↔ Known events r ∨ e.reference = r ∧ e.answer.toBool := by
  simp only [Known, List.mem_append, List.mem_singleton, or_and_right, exists_or,
    exists_eq_left]

/-- What holds of each event in view of those before it holds when one more comes. -/
theorem forall_before_append {P : List Event → Event → Prop} {events : List Event} {e : Event}
    (h : ∀ before d after, events = before ++ d :: after → P before d) (he : P events e) :
    ∀ before d after, events ++ [e] = before ++ d :: after → P before d := by
  intro before d after heq
  rcases List.eq_nil_or_concat after with rfl | ⟨init, last, rfl⟩
  · obtain ⟨rfl, hed⟩ := List.append_inj' heq rfl
    cases hed
    exact he
  · rw [List.concat_eq_append, ← List.cons_append, ← List.append_assoc] at heq
    exact h before d init (List.append_inj' heq rfl).1

/-- A call of a reference whose image is told without asking the builder. -/
theorem Sound.call_told (h : s.Sound dir isFile) {r : String} (hr : isFile r ∨ Known s.events r) :
    (Session.mk s.cache (s.events ++ [⟨r, none, .ok (settled dir isFile r)⟩])).Sound dir isFile := by
  refine ⟨h.distinct, fun r' p => ?_, ?_, forall_before_append h.asks ⟨?_, fun _ => ⟨rfl, rfl⟩⟩⟩
  · rw [h.cached, known_append_singleton]
    refine and_congr_right fun hr' => and_congr_right fun _ => ⟨.inl, ?_⟩
    rintro (hk | ⟨rfl, -⟩)
    · exact hk
    · exact hr.resolve_left (by simp [hr'])
  · refine List.forall_mem_append.2 ⟨h.answers, List.forall_mem_singleton.2 fun p hp => ?_⟩
    cases hp
    rfl
  · rintro ⟨hfile, hk⟩
    exact absurd hr (by simp [hfile, hk])

/-- A call of a reference whose image the builder is asked for. The cache gains just the image, if
it is built. -/
theorem Sound.call_asked (h : s.Sound dir isFile) {r : String} {cache : Cache}
    {answer : Except Fault String} (hr : isFile r = false) (hk : ¬Known s.events r)
    (hanswer : ∀ p, answer = .ok p → p = imagePath dir r) (hd : (cache.map Prod.fst).Nodup)
    (hcache : ∀ r' p, Entries.get? r' cache = some p ↔
      Entries.get? r' s.cache = some p ∨ r = r' ∧ answer.toBool ∧ p = imagePath dir r) :
    (Session.mk cache (s.events ++ [⟨r, some (imagePath dir r, r), answer⟩])).Sound dir isFile := by
  refine ⟨hd, fun r' p => ?_, ?_, forall_before_append h.asks ⟨fun _ => rfl, fun hor => ?_⟩⟩
  · rw [hcache, h.cached, known_append_singleton]
    constructor
    · rintro (⟨hr', hp, hk'⟩ | ⟨rfl, ha, hp⟩)
      · exact ⟨hr', hp, .inl hk'⟩
      · exact ⟨hr, hp, .inr ⟨rfl, ha⟩⟩
    · rintro ⟨hr', hp, hk' | ⟨rfl, ha⟩⟩
      · exact .inl ⟨hr', hp, hk'⟩
      · exact .inr ⟨rfl, ha, hp⟩
  · refine List.forall_mem_append.2 ⟨h.answers, List.forall_mem_singleton.2 fun p hp => ?_⟩
    simpa [settled, hr] using hanswer p hp
  · exact absurd hor (by simp [hr, hk])

/-- One more call keeps what holds of a session. -/
theorem Sound.call (h : s.Sound dir isFile) (hq : q.isFile = isFile q.reference) :
    (call dir s q).Sound dir isFile := by
  cases hfile : q.isFile with
  | true =>
    have hr : isFile q.reference = true := hq ▸ hfile
    have htold := h.call_told (.inl hr)
    rw [settled, if_pos hr] at htold
    rw [call_file hfile]
    exact htold
  | false =>
    have hr : isFile q.reference = false := hq ▸ hfile
    cases hc : Entries.get? q.reference s.cache with
    | some path =>
      obtain ⟨-, rfl, hk⟩ := (h.cached _ _).1 hc
      have htold := h.call_told (.inr hk)
      rw [settled, hr, if_neg Bool.false_ne_true] at htold
      rw [call_known hfile hc]
      exact htold
    | none =>
      have hk : ¬Known s.events q.reference := by
        intro hk
        have hsome := (h.cached q.reference _).2 ⟨hr, rfl, hk⟩
        rw [hc] at hsome
        cases hsome
      cases hb : q.build dir with
      | error e =>
        rw [call_failed hfile hc hb]
        refine h.call_asked hr hk (fun p hp => by cases hp) h.distinct fun r p => ?_
        simp [Except.toBool]
      | ok u =>
        rw [call_built hfile hc hb]
        refine h.call_asked hr hk (fun p hp => (Except.ok.inj hp).symm)
          (Entries.nodup_names_put h.distinct _ _) fun r p => ?_
        by_cases hrq : r = q.reference
        · subst hrq
          simp [Entries.get?_put_self, hc, Except.toBool, eq_comm]
        · simp [Entries.get?_put_of_ne hrq, Ne.symm hrq]

theorem sound_run (dir : String) (isFile : String → Bool) {qs : List Call}
    (hqs : ∀ q ∈ qs, q.isFile = isFile q.reference) : (run dir qs).Sound dir isFile := by
  induction qs using List.reverseRecOn with
  | nil =>
    constructor
    · exact List.nodup_nil
    · intro r p
      simp [run, Entries.get?, Known]
    · intro e he
      cases he
    · intro before e after h
      simp [run] at h
  | append_singleton qs q ih =>
    rw [run_append_singleton]
    exact (ih fun q hq => hqs q (List.mem_append_left _ hq)).call
      (hqs q (List.mem_append_right _ (List.mem_singleton_self q)))

end Session

end Pipewright.Container
