import Pipewright.Proofs.CommandLine.Waiting
import Pipewright.Proofs.Storage.Jobs
import Pipewright.Proofs.Text.Trimming
import Pipewright.Tool.Perform

/-! The command that saves results takes its limits from the word behind the option, unless that
word starts with a dash. -/
namespace Pipewright

/-! The words that are limits -/

namespace Peek
open Text

theorem exists_digit_of_rows? {cs : List Char} {n : Int} (h : rows? ('-' :: cs) = some n) :
    ∃ d r, cs = d :: r ∧ isDigit d = true := by
  obtain ⟨hread, -⟩ := Option.filter_eq_some_iff.1 h
  obtain ⟨i, hi, -⟩ := Option.map_eq_some_iff.1 hread
  obtain ⟨m, hm, -⟩ := Option.bind_eq_some_iff.1 hi
  exact exists_of_number? hm

/-- The first part of limits is empty or a number of rows. -/
theorem rows_of_read? {s : String} {p : Peek} (h : read? s = some p) :
    ∃ part parts, splitAt ',' s.toList = part :: parts ∧ limit? rows? (trim part) = some p.rows := by
  rw [read?] at h
  split at h
  · rename_i rows hparts
    obtain ⟨part, parts, hsplit, rfl, -⟩ := List.map_eq_cons_iff.1 hparts
    obtain ⟨n, hn, hp⟩ := Option.bind_eq_some_iff.1 h
    cases hp
    exact ⟨part, parts, hsplit, hn⟩
  · rename_i rows chars hparts
    obtain ⟨part, parts, hsplit, rfl, -⟩ := List.map_eq_cons_iff.1 hparts
    obtain ⟨n, hn, hrest⟩ := Option.bind_eq_some_iff.1 h
    obtain ⟨m, -, hp⟩ := Option.bind_eq_some_iff.1 hrest
    cases hp
    exact ⟨part, parts, hsplit, hn⟩
  · cases h

theorem trim_dash (cs : List Char) : ∃ t, trim ('-' :: cs) = '-' :: t ∧ t <+: cs := by
  have hdash : isBlank '-' = false := by decide
  have hstart : trimStart ('-' :: cs) = '-' :: cs := by
    rw [trimStart, List.dropWhile_cons, hdash]
    rfl
  rw [trim, hstart]
  obtain hnil | h := List.prefix_cons_iff.1 (trimEnd_isPrefix ('-' :: cs))
  · have hall := List.dropWhile_eq_nil_iff.1 (List.reverse_eq_nil_iff.1 hnil)
    exact absurd (hall '-' (by simp)) (by simp [hdash])
  · exact h

/-- A limit that starts with a dash goes on with a digit. -/
theorem exists_digit_of_dash {s : String} {p : Peek} {cs : List Char} (h : read? s = some p)
    (hs : s.toList = '-' :: cs) : ∃ d r, cs = d :: r ∧ isDigit d = true := by
  obtain ⟨part, parts, hsplit, hrows⟩ := rows_of_read? h
  obtain ⟨front, fronts, hfront⟩ := List.exists_cons_of_ne_nil (splitAt_ne_nil ',' cs)
  have hpart : part = '-' :: front := by
    rw [hs, splitAt, if_neg (by decide), hfront] at hsplit
    exact (List.cons.inj hsplit).1.symm
  obtain ⟨t, htrim, ht⟩ := trim_dash front
  rw [hpart, htrim] at hrows
  obtain ⟨n, hn, -⟩ := Option.map_eq_some_iff.1 hrows
  obtain ⟨d, r, rfl, hd⟩ := exists_digit_of_rows? hn
  obtain ⟨rest, hrest⟩ := ht.trans (isPrefix_of_splitAt hfront)
  exact ⟨d, r ++ rest, hrest.symm, hd⟩

end Peek

namespace Tool
open CommandLine Subcommand

/-- The words that save results with a limit. -/
def saveWords (limit : String) : List String := ["save", "--peek", limit]

/-- The job that saves what comes in. -/
def saving (input : String) (peek : Option Peek) : Job SaveReport := do
  ResultEntry.saveAll (← Job.ofExcept (ResultEntry.readAll input)) peek

/-- How a run of the tool ends with a job. -/
def exitOf {α : Type} (job : Job α) : StateM Workspace Exit := fun w =>
  match job.runOn w with
  | (.ok _, w') => (⟨0, "", false⟩, w')
  | (.error e, w') => (⟨1, "Error: " ++ (Failure.fault e).text ++ "\n", false⟩, w')

variable {limit : String} {peek : Peek}

theorem runOn_saving (input : String) (peek : Option Peek) (w : Workspace) :
    (saving input peek).runOn w =
      match ResultEntry.readAll input with
      | .ok entries => (ResultEntry.saveAll entries peek).runOn w
      | .error e => (.error e, w) := by
  rw [saving, Job.runOn_bind]
  cases h : ResultEntry.readAll input <;> rfl

theorem Deed.run_ofJob {α : Type} (job : Job α) (w : Workspace) :
    (Deed.ofJob job).run w = ((job.runOn w).1.mapError .fault, (job.runOn w).2) := rfl

theorem run_performSave (around : Surroundings) (peek : Option Peek) (w : Workspace) :
    (performSave around peek).run w =
      (((saving around.input peek).runOn w).1.map (fun _ => ()) |>.mapError .fault,
        ((saving around.input peek).runOn w).2) := by
  have hread : (Job.ofExcept (ResultEntry.readAll around.input)).runOn w =
      (ResultEntry.readAll around.input, w) := rfl
  rw [runOn_saving, performSave, run_bind, Deed.run_ofJob, hread]
  cases ResultEntry.readAll around.input with
  | error e => rfl
  | ok entries =>
    change (Deed.ofJob (ResultEntry.saveAll entries peek) >>= fun _ => pure ()).run w = _
    rw [run_bind, Deed.run_ofJob]
    dsimp only
    cases (ResultEntry.saveAll entries peek).runOn w with
    | mk r w₁ => cases r <;> rfl

theorem run_command (around : Surroundings) {words : List String} {command : Command}
    (h : read words = .ok command) (w : Workspace) :
    run around words w =
      match (perform around command).run w with
      | (.ok (), w₁) => (⟨0, "", isBuild command⟩, w₁)
      | (.error e, w₁) => (⟨1, "Error: " ++ e.text ++ "\n", false⟩, w₁) := by
  rw [run, h]
  cases hrun : (perform around command).run w with
  | mk r w₁ =>
    have hbind : ∀ f : Except Failure Unit → StateM Workspace Exit,
        ((perform around command).run >>= f) w = f r w₁ := fun f => by
      show f ((perform around command).run w).1 ((perform around command).run w).2 = _
      rw [hrun]
    refine (hbind _).trans ?_
    cases r <;> rfl

/-- Saving what comes in is all that the tool does for the command. -/
theorem run_save (around : Surroundings) {words : List String} {peek : Option Peek}
    (h : read words = .ok (.save peek)) : run around words = exitOf (saving around.input peek) := by
  funext w
  rw [run_command around h, perform, run_performSave, exitOf]
  cases (saving around.input peek).runOn w with
  | mk r w₁ => cases r <;> rfl

theorem read_saveWords : read (saveWords limit) = readWords save ["--peek", limit] := by
  have hname : isOption "save" = false := by decide +kernel
  rw [saveWords, read, readFrom, hname]
  rfl

theorem parse_saveWords : CommandLine.parse save.spec ["--peek", limit] =
    step save.spec (waiting [] 0 peekSetting) limit >>= settle := by
  have hfirst : step save.spec State.initial "--peek" = .ok (waiting [] 0 peekSetting) := rfl
  rw [parse_pair, hfirst]
  rfl

theorem read?_of_read {peek : Peek} (hp : Peek.read limit = .ok peek) :
    Peek.read? limit = some peek := by
  rw [Peek.read] at hp
  split at hp
  · rename_i p hread
    cases hp
    exact hread
  · cases hp

theorem refuses_of_read {peek : Peek} (hp : Peek.read limit = .ok peek) :
    peekSetting.refuses limit = none := by
  simp only [peekSetting, hp]

theorem read_limit {peek : Peek} (hp : Peek.read limit = .ok peek)
    (hw : limit.toList.head? ≠ some '-') : read (saveWords limit) = .ok (.save (some peek)) := by
  have hstep : step save.spec (waiting [] 0 peekSetting) limit =
      .ok (holding [] 0 peekSetting limit) := step_of_head hw rfl
  have hsettle : settle (holding [] 0 peekSetting limit) = .ok (ready [("peek", [limit])] 0) := by
    have hrefused : ([limit].findSome? fun w => (peekSetting.refuses w).map fun reason =>
        (w, reason)) = none := by
      rw [List.findSome?_singleton, refuses_of_read hp]
      rfl
    have htake : take (ready [] 0) peekSetting [limit] = .ok (ready [("peek", [limit])] 0) := by
      rw [take]
      simp only [hrefused]
      rfl
    rw [settle_holding rfl, htake]
  have hmeant : ofState save (ready [("peek", [limit])] 0) = some (.save (Peek.read? limit)) := rfl
  have hparse : CommandLine.parse save.spec ["--peek", limit] =
      .ok (ready [("peek", [limit])] 0) := by
    rw [parse_saveWords, hstep]
    exact hsettle
  rw [read_saveWords, readWords, hparse]
  simp only [hmeant, read?_of_read hp]

theorem short?_of_isDigit {d : Char} (hd : Text.isDigit d = true) : save.spec.short? d = none :=
  Text.of_isDigit (p := fun d => save.spec.short? d = none) hd (by decide)

theorem read_dashed {d : Char} {r : List Char} (hd : Text.isDigit d = true)
    (hw : limit.toList = '-' :: d :: r) : read (saveWords limit) =
      .error (.misused ("error: unexpected argument '-" ++ d.toString ++ "' found")) := by
  have hdash : d ≠ '-' := Text.of_isDigit (p := fun d => d ≠ '-') hd (by decide)
  have hstep : step save.spec (waiting [] 0 peekSetting) limit =
      .error (.unexpected ("-" ++ d.toString)) := by
    rw [step_cluster hdash hw rfl rfl, cluster, short?_of_isDigit hd]
  have hline : (Usage.unexpected ("-" ++ d.toString)).firstLine "" "" =
      "error: unexpected argument '-" ++ d.toString ++ "' found" := by
    change "error: unexpected argument '" ++ ("-" ++ d.toString) ++ "' found" = _
    rw [← String.append_assoc]
    rfl
  rw [read_saveWords, readWords, parse_saveWords, hstep, ← hline]
  rfl

theorem run_misused (around : Surroundings) {words : List String} {line : String}
    (h : read words = .error (.misused line)) (w : Workspace) :
    run around words w = (⟨2, line ++ "\n", false⟩, w) := by
  rw [run, h]
  rfl

theorem code_exitOf {α : Type} (job : Job α) (w : Workspace) : (exitOf job w).1.code ≠ 2 := by
  rw [exitOf]
  split
  · exact Nat.zero_ne_add_one 1
  · exact Nat.succ_ne_succ_iff.2 Nat.zero_ne_one

/-- A limit on the command line is the one that results are saved with just if it does not start
with a dash. Such a one is taken for an option that is none, and nothing is saved. -/
theorem save_limited_iff (hp : Peek.read limit = .ok peek) :
    ((∀ around, run around (saveWords limit) = exitOf (saving around.input (some peek))) ↔
      limit.toList.head? ≠ some '-') ∧
    (limit.toList.head? = some '-' → ∃ d, limit.toList[1]? = some d ∧ Text.isDigit d = true ∧
      ∀ around w, run around (saveWords limit) w =
        (⟨2, "error: unexpected argument '-" ++ d.toString ++ "' found" ++ "\n", false⟩, w)) := by
  have hrefused : limit.toList.head? = some '-' → ∃ d, limit.toList[1]? = some d ∧
      Text.isDigit d = true ∧ ∀ around w, run around (saveWords limit) w =
        (⟨2, "error: unexpected argument '-" ++ d.toString ++ "' found" ++ "\n", false⟩, w) := by
    intro hdash
    obtain ⟨cs, hcs⟩ := List.head?_eq_some_iff.1 hdash
    obtain ⟨d, r, rfl, hd⟩ := Peek.exists_digit_of_dash (read?_of_read hp) hcs
    refine ⟨d, by rw [hcs]; rfl, hd, fun around w => ?_⟩
    exact run_misused around (read_dashed hd hcs) w
  refine ⟨⟨fun hsaved hdash => ?_, fun hdash around => run_save around (read_limit hp hdash)⟩,
    hrefused⟩
  obtain ⟨d, -, -, hrun⟩ := hrefused hdash
  have hcode : (exitOf (saving (default : Surroundings).input (some peek)) default).1.code = 2 := by
    rw [← hsaved default, hrun]
  exact code_exitOf _ _ hcode

theorem save_limited_rows : Peek.read "-1" = .ok ⟨some (-1), none⟩ ∧
    Peek.read "2,80" = .ok ⟨some 2, some 80⟩ ∧
    (∀ around, run around (saveWords "2,80") =
      exitOf (saving around.input (some ⟨some 2, some 80⟩))) ∧
    ∃ d, "-1".toList[1]? = some d ∧ ∀ around w, run around (saveWords "-1") w =
      (⟨2, "error: unexpected argument '-" ++ d.toString ++ "' found" ++ "\n", false⟩, w) := by
  have htail : Peek.read "-1" = .ok ⟨some (-1), none⟩ := rfl
  have hboth : Peek.read "2,80" = .ok ⟨some 2, some 80⟩ := rfl
  obtain ⟨d, hd, -, hrun⟩ := (save_limited_iff htail).2 rfl
  exact ⟨htail, hboth, (save_limited_iff hboth).1.2 (by decide), d, hd, hrun⟩

/-- A limit that drops the last row is refused. -/
theorem not_save_limited : ¬∀ limit peek, Peek.read limit = .ok peek → ∀ around,
    run around (saveWords limit) = exitOf (saving around.input (some peek)) := by
  intro h
  have hread : read (saveWords "-1") =
      .error (.misused "error: unexpected argument '-1' found") := by
    rw [read_saveWords]
    rfl
  have htail : Peek.read "-1" = .ok ⟨some (-1), none⟩ := rfl
  have hcode : (exitOf (saving (default : Surroundings).input (some ⟨some (-1), none⟩))
      default).1.code = 2 := by
    rw [← h "-1" _ htail default, run_misused default hread]
  exact code_exitOf _ _ hcode

end Tool
end Pipewright
