import Pipewright.Proofs.Binding.ReadBack
import Pipewright.Proofs.CommandLine.Frames
import Pipewright.Tool.Command

/-! The command that captures a run hands on the command line of the script, unless that starts
with a word that is an option of the command itself. -/
namespace Pipewright.Tool
open CommandLine Subcommand

/-- The words that capture a run of a script with a command line. -/
def captureWords (title target function script : String) (argv : List String) : List String :=
  ["capture", "--notebooktitle", title, "--capturednotebook", target, "--function", function,
    script] ++ argv

/-- The command to capture a run of a script. -/
def captureOf (title target function script : String) (argv : List String) : Command :=
  .capture { script, function, words := argv, title } (some target)

def titleOption : Opt := setting "notebooktitle" none "NOTEBOOKTITLE"
def targetOption : Opt := setting "capturednotebook" none "CAPTUREDNOTEBOOK"
def functionOption : Opt := setting "function" none "FUNCTION"

def titleGiven (title : String) : Given := [("notebooktitle", [title])]

def targetGiven (title target : String) : Given :=
  titleGiven title ++ [("capturednotebook", [target])]

def functionGiven (title target function : String) : Given :=
  targetGiven title target ++ [("function", [function])]

def scriptGiven (title target function script : String) : Given :=
  functionGiven title target function ++ [("script", [script])]

variable {title target function script : String} {argv : List String}

/-- The words in front of the script's own are all taken. -/
theorem read_front (htitle : isPlainWord title) (htarget : isPlainWord target)
    (hfunction : isPlainWord function) (hscript : isPlainWord script) :
    ["--notebooktitle", title, "--capturednotebook", target, "--function", function,
      script].foldlM (step capture.spec) State.initial =
      .ok (ready (scriptGiven title target function script) 1) := by
  have hfirst : step capture.spec State.initial "--notebooktitle" =
      .ok (waiting [] 0 titleOption) := rfl
  have hsecond : step capture.spec (holding [] 0 titleOption title) "--capturednotebook" =
      .ok (waiting (titleGiven title) 0 targetOption) := rfl
  have hthird : step capture.spec (holding (titleGiven title) 0 targetOption target)
      "--function" = .ok (waiting (targetGiven title target) 0 functionOption) := rfl
  have hsettled : settle (holding (targetGiven title target) 0 functionOption function) =
      .ok (ready (functionGiven title target function) 0) := rfl
  have hposition : capture.spec.positionals[0]? = some "script" := rfl
  have hlast : step capture.spec (holding (targetGiven title target) 0 functionOption function)
      script = .ok (ready (scriptGiven title target function script) 1) :=
    step_positional hsettled hscript hposition
  rw [foldlM_cons_of_ok hfirst, foldlM_cons_of_ok (step_waiting htitle _),
    foldlM_cons_of_ok hsecond, foldlM_cons_of_ok (step_waiting htarget _),
    foldlM_cons_of_ok hthird, foldlM_cons_of_ok (step_waiting hfunction _),
    foldlM_cons_of_ok hlast]
  rfl

theorem read_captureWords : read (captureWords title target function script argv) =
    readWords capture (["--notebooktitle", title, "--capturednotebook", target, "--function",
      function, script] ++ argv) := by
  have hname : isOption "capture" = false := by decide +kernel
  rw [captureWords, List.cons_append, read, readFrom, hname]
  rfl

theorem parse_captureWords (htitle : isPlainWord title) (htarget : isPlainWord target)
    (hfunction : isPlainWord function) (hscript : isPlainWord script) :
    CommandLine.parse capture.spec (["--notebooktitle", title, "--capturednotebook", target,
      "--function", function, script] ++ argv) =
      (argv.foldlM (step capture.spec) (ready (scriptGiven title target function script) 1) >>=
        settle) := by
  rw [CommandLine.parse, List.foldlM_append, read_front htitle htarget hfunction hscript]
  rfl

theorem ofState_capture (st : State) : ofState capture st = (one? st "script").map fun script =>
    .capture { script, function := (one? st "function").getD standardFunction, words := st.rest,
               title := (one? st "notebooktitle").getD "" } (one? st "capturednotebook") := rfl

theorem words_of_ofState {st : State} (h : ofState capture st =
    some (captureOf title target function script argv)) : st.rest = argv := by
  obtain ⟨s, -, hs⟩ := Option.map_eq_some_iff.1 (ofState_capture st ▸ h)
  rw [captureOf, Command.capture.injEq, CaptureRequest.mk.injEq] at hs
  exact hs.1.2.2.1

theorem ofState_given {st : State} (hg : st.given = scriptGiven title target function script)
    (hr : st.rest = argv) :
    ofState capture st = some (captureOf title target function script argv) := by
  simp [ofState_capture, one?, State.values?, hg, hr, scriptGiven, functionGiven, targetGiven,
    titleGiven, Entries.get?, captureOf]

/-- A command line is handed on just if its first word is not claimed. -/
theorem read_captureWords_iff (htitle : isPlainWord title) (htarget : isPlainWord target)
    (hfunction : isPlainWord function) (hscript : isPlainWord script) (argv : List String) :
    read (captureWords title target function script argv) =
        .ok (captureOf title target function script argv) ↔
      ∀ w ∈ argv.head?, capture.spec.claims w = false := by
  rw [read_captureWords, readWords, parse_captureWords htitle htarget hfunction hscript]
  constructor
  · intro h
    split at h
    · cases h
    · rename_i st hst
      split at h
      · rename_i command hc
        cases h
        exact not_claims_of_rest rfl rfl hst (words_of_ofState hc)
      · cases h
  · intro h
    have hfirst : ∀ w ∈ argv.head?, step capture.spec
        (ready (scriptGiven title target function script) 1) w =
        plain capture.spec (ready (scriptGiven title target function script) 1) w :=
      fun w hw => step_of_not_claims rfl rfl (h w hw)
    have hopen : capture.spec.hasRest = true := rfl
    obtain ⟨t, ht, hgiven, hrest⟩ := read_rest hopen (Nat.le_refl 1) rfl hfirst
    rw [ht]
    simp only [ofState_given hgiven hrest]

/-- A run is captured with its own command line just if that does not start with a word that the
command claims. So it is for every line that a process writes, where the script takes a positional
word; otherwise the first flag decides. -/
theorem capture_handsOver_iff (htitle : isPlainWord title) (htarget : isPlainWord target)
    (hfunction : isPlainWord function) (hscript : isPlainWord script) :
    (∀ argv, read (captureWords title target function script argv) =
        .ok (captureOf title target function script argv) ↔
      ∀ w ∈ argv.head?, capture.spec.claims w = false) ∧
    ∀ (b : Binding) (value : Argument → String) (order : List Argument) (rest : List String),
      (∀ a ∈ b.arguments, isPlainWord (value a)) → (∀ w ∈ rest, isPlainWord w) →
      (read (captureWords title target function script (b.composed value order rest)) =
          .ok (captureOf title target function script (b.composed value order rest)) ↔
        (b.positional = [] → ∀ a ∈ order.head?, ∀ w ∈ (a.passed (value a)).head?,
          capture.spec.claims w = false)) := by
  refine ⟨read_captureWords_iff htitle htarget hfunction hscript, ?_⟩
  intro b value order rest hv hw
  rw [read_captureWords_iff htitle htarget hfunction hscript, Binding.composed]
  cases hp : b.positional with
  | cons a as =>
    have ha : a ∈ b.arguments := (List.mem_filter.1 (hp ▸ List.mem_cons_self)).1
    simpa using claims_of_isPlainWord (hv a ha)
  | nil =>
    cases order with
    | nil =>
      have hrest : ∀ w ∈ rest.head?, capture.spec.claims w = false := fun w hm =>
        claims_of_isPlainWord (hw w (List.mem_of_mem_head? hm))
      simpa using hrest
    | cons a as =>
      have hhead : ((a :: as).flatMap (fun a => a.passed (value a)) ++ rest).head? =
          (a.passed (value a)).head? := by
        obtain ⟨w, ws, hpassed⟩ := List.exists_cons_of_ne_nil (a.passed_ne_nil (value a))
        rw [List.flatMap_cons, hpassed]
        rfl
      simp only [List.map_nil, List.nil_append, hhead, forall_const, List.head?_cons,
        Option.mem_some_iff, forall_eq']

theorem handsOver_sized : isPlainWord "t" ∧ isPlainWord "out.md" ∧ isPlainWord "process" ∧
    isPlainWord "Count.py" ∧
    read (captureWords "t" "out.md" "process" "Count.py" ["--limit", "3", "-v"]) =
      .ok (captureOf "t" "out.md" "process" "Count.py" ["--limit", "3", "-v"]) ∧
    read (captureWords "t" "out.md" "process" "Count.py" ["--verbose", "3"]) ≠
      .ok (captureOf "t" "out.md" "process" "Count.py" ["--verbose", "3"]) ∧
    read (captureWords "t" "out.md" "process" "Count.py" ["t.tsv", "-s=a,b", "c"]) =
      .ok (captureOf "t" "out.md" "process" "Count.py" ["t.tsv", "-s=a,b", "c"]) := by
  have ht : isPlainWord "t" := by decide
  have hf : isPlainWord "out.md" := by decide
  have hg : isPlainWord "process" := by decide
  have hs : isPlainWord "Count.py" := by decide
  obtain ⟨hline, hcomposed⟩ := capture_handsOver_iff ht hf hg hs
  have hv : ∀ a ∈ (Binding.sized "-s").arguments,
      isPlainWord (if a.param = "table" then "t.tsv" else "a,b") := by
    intro a _
    split <;> decide
  have hw : ∀ w ∈ ["c"], isPlainWord w := by decide
  refine ⟨ht, hf, hg, hs, (hline _).2 (by decide), fun h => ?_, ?_⟩
  · exact absurd ((hline _).1 h "--verbose" rfl) (by decide)
  · refine (hcomposed (.sized "-s") _ (Binding.sized "-s").flagged ["c"] hv hw).2 fun hp => ?_
    exact absurd hp (by decide)

/-- A script without positional words: its flag sets the command's own switch. -/
theorem verbose_taken : read (captureWords "t" "out.md" "process" "Count.py" ["--verbose", "3"]) =
      .ok (captureOf "t" "out.md" "process" "Count.py" ["3"]) ∧
    read (captureWords "t" "out.md" "process" "Count.py" ["--verbose", "3"]) ≠
      .ok (captureOf "t" "out.md" "process" "Count.py" ["--verbose", "3"]) := by
  have hread : read (captureWords "t" "out.md" "process" "Count.py" ["--verbose", "3"]) =
      .ok (captureOf "t" "out.md" "process" "Count.py" ["3"]) := by
    rw [read_captureWords]
    rfl
  refine ⟨hread, fun h => ?_⟩
  rw [hread, Except.ok.injEq, captureOf, captureOf, Command.capture.injEq,
    CaptureRequest.mk.injEq] at h
  exact absurd h.1.2.2.1 (by decide)

end Pipewright.Tool
