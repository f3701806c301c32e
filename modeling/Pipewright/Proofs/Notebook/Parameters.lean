import Pipewright.Notebook.Capture
import Pipewright.Proofs.Literal.Gathered
import Pipewright.Proofs.Literal.Whole
import Pipewright.Proofs.Storage.Files
import Pipewright.Proofs.Storage.Jobs

/-! The parameters of a captured run: which lines assign the values that the run had. -/
namespace Pipewright.CaptureRequest
open Literal Text Source

/-- What stands for a value that names no file. -/
def shown : Literal → String
  | .str s => String.ofList (bare s.toList)
  | v => v.script

/-- Whether a value is a path of a file. -/
def namesFile (w : Workspace) : Literal → Bool
  | .str s => w.files.isFile w.here s
  | _ => false

/-- Whether what stands for a value is one line that is read as the value. A string stands between
quotes as it is, so none of its characters may mean anything there; an integer must be one that can
be read. -/
def IsKept : Literal → Prop
  | .str s => '\n' ∉ s.toList ∧ unescape s.toList = s.toList ∧ Quotable s.toList
  | v => Plain IsText IsWhole v

section
variable {whole : Int → Prop} {v : Literal} {w w' : Workspace}

theorem shown_of_not_str (h : ∀ s, v ≠ .str s) : shown v = v.script := by
  cases v with
  | str s => exact absurd rfl (h s)
  | _ => rfl

theorem isKept_of_not_str (h : ∀ s, v ≠ .str s) : IsKept v ↔ Plain IsText IsWhole v := by
  cases v with
  | str s => exact absurd rfl (h s)
  | _ => exact Iff.rfl

theorem read_shown_iff (h : Plain IsText whole v) :
    (read (shown v) = v ∧ '\n' ∉ (shown v).toList) ↔ IsKept v := by
  by_cases hstr : ∃ s, v = .str s
  · obtain ⟨s, rfl⟩ := hstr
    have hz : '\x00' ∉ s.toList := by
      cases h with
      | str h => exact h
    have hline : '\n' ∉ (shown (.str s)).toList ↔ '\n' ∉ s.toList := by simp [shown, bare]
    rw [hline, IsKept, and_comm]
    refine and_congr_right fun hn => ?_
    have hread := read_bare_iff hz hn
    rwa [String.ofList_toList] at hread
  · have hother : ∀ s, v ≠ .str s := fun s hs => hstr ⟨s, hs⟩
    have hline : '\n' ∉ v.script.toList := by simpa [Literal.script] using h.newline_not_mem
    rw [shown_of_not_str hother, isKept_of_not_str hother, h.read_iff]
    exact and_iff_left hline

theorem runOn_tablePath? (w : Workspace) (path : String) :
    ∃ p, (tablePath? path).runOn w = (.ok p, w) ∧
      (w.files.isFile w.here path = false → p = Option.none) := by
  have hlook : (Job.isFile path).runOn w = (.ok (w.files.isFile w.here path), w) := rfl
  rw [tablePath?, Job.runOn_bind, hlook]
  cases hfile : w.files.isFile w.here path with
  | false => exact ⟨Option.none, rfl, fun _ => rfl⟩
  | true =>
    obtain ⟨p, hp⟩ := FileTree.locate_of_isFile hfile
    have hask : (Job.ask fun t here => t.locate here path).runOn w = (.ok p, w) := by
      rw [Job.ask, Job.runOn_askOr, hp]
      rfl
    simp only [Bool.not_true, Bool.false_eq_true, if_false, reduceCtorEq, false_implies, and_true]
    rw [Job.runOn_bind, hask]
    dsimp only
    split
    · exact ⟨_, rfl⟩
    · exact ⟨_, rfl⟩

theorem runOn_valueCode (w : Workspace) (v : Literal) :
    ∃ text, (valueCode v).runOn w = (.ok text, w) ∧ (namesFile w v = false → text = shown v) := by
  cases v with
  | str s =>
    obtain ⟨p, hp, hnone⟩ := runOn_tablePath? w s
    rw [valueCode, Job.runOn_bind, hp]
    refine ⟨_, rfl, fun hfile => ?_⟩
    rw [hnone hfile, shown, bare]
    apply String.toList_inj.1
    simp
  | _ => exact ⟨_, rfl, fun _ => rfl⟩

theorem runOn_paramLine (w : Workspace) (p : String × Literal) :
    ∃ text, (paramLine p).runOn w = (.ok (p.1 ++ " = " ++ text), w) ∧
      (namesFile w p.2 = false → text = shown p.2) := by
  obtain ⟨text, htext, hshown⟩ := runOn_valueCode w p.2
  refine ⟨text, ?_, hshown⟩
  rw [paramLine, Job.runOn_bind, htext]
  rfl

theorem quiet_bindWith (m : ScriptModule) (function : String) (os : Overrides)
    (words : List String) : Job.Quiet (bindWith m function os words) :=
  .bind (.ofExcept _) fun _ => .bind (.warn _) fun _ => .ofExcept _

theorem quiet_bindWords (m : ScriptModule) (function : String) (words : List String) :
    Job.Quiet (bindWords m function words) := by
  rw [bindWords]
  split
  · split
    · exact quiet_bindWith m function _ words
    · exact .ofExcept _
  · refine .tryCatch (quiet_bindWith m function _ words) fun e => ?_
    split
    · exact quiet_bindWith m function [] words
    · exact .ofExcept _

theorem namesFile_bindWords {m : ScriptModule} {function : String} {words : List String}
    {bound : BoundArguments} (h : (bindWords m function words).runOn w = (.ok bound, w'))
    (v : Literal) : namesFile w' v = namesFile w v := by
  obtain ⟨hfiles, hhere⟩ := quiet_bindWords m function words w
  rw [h] at hfiles hhere
  cases v with
  | str s => exact congrArg₂ (fun t here => FileTree.isFile t here s) hfiles hhere
  | _ => rfl

theorem function_of_bindWith {m : ScriptModule} {function : String} {os : Overrides}
    {words : List String} {bound : BoundArguments}
    (h : (bindWith m function os words).runOn w = (.ok bound, w')) :
    ∃ f, m.function function = .ok f := by
  obtain ⟨b, w₁, hb, -⟩ := Job.bind_ok h
  obtain ⟨f, hf, -⟩ := bind_ok (Job.ofExcept_ok hb).1
  exact ⟨f, hf⟩

/-- Words are bound for a function that is there. -/
theorem function_of_bindWords {m : ScriptModule} {function : String} {words : List String}
    {bound : BoundArguments} (h : (bindWords m function words).runOn w = (.ok bound, w')) :
    ∃ f, m.function function = .ok f := by
  rw [bindWords] at h
  split at h
  · split at h
    · exact function_of_bindWith h
    · cases h
  · rw [Job.runOn_tryCatch] at h
    split at h
    · rename_i hfirst
      exact function_of_bindWith hfirst
    · split at h
      · exact function_of_bindWith h
      · cases h

section
variable {r : CaptureRequest} {source : String} {bound : BoundArguments}

/-- A run is captured if its words can be bound. -/
theorem runOn_capture (hsource : w.files.readText w.here r.script = .ok source)
    (hbound : (bindWords (.ofSource r.script source) r.function r.words).runOn w =
      (.ok bound, w')) :
    ∃ d, r.capture.runOn w = (.ok d, w') ∧
      List.Forall₂ (fun p line => (paramLine p).runOn w' = (.ok line, w'))
        bound.values d.params := by
  have hfile : (Job.isFile r.script).runOn w = (.ok true, w) :=
    congrArg (fun b => (Except.ok b, w)) (FileTree.isFile_of_readText hsource)
  have hload : (ScriptModule.load r.script).runOn w = (.ok (.ofSource r.script source), w) := by
    rw [ScriptModule.load, Job.runOn_bind, Job.runOn_askOr, hsource]
    rfl
  obtain ⟨f, hf⟩ := function_of_bindWords hbound
  have hfunction : (Job.ofExcept ((ScriptModule.ofSource r.script source).function
      r.function)).runOn w = (.ok f, w) := by
    rw [hf]
    rfl
  have hlines : ∀ p ∈ bound.values, ∃ line, (paramLine p).runOn w' = (.ok line, w') := by
    intro p _
    obtain ⟨text, htext, -⟩ := runOn_paramLine w' p
    exact ⟨_, htext⟩
  obtain ⟨lines, hparams, hall⟩ := Job.runOn_mapM hlines
  refine ⟨⟨r.title, describe f.docstring, Notebook.importLines source, lines,
    Notebook.sections f.body⟩, ?_, hall⟩
  rw [capture, Job.runOn_bind, hfile]
  simp only [Bool.not_true, Bool.false_eq_true, if_false]
  rw [Job.runOn_bind, hload]
  dsimp only
  rw [Job.runOn_bind, hfunction]
  dsimp only
  rw [Job.runOn_bind, hbound]
  dsimp only
  rw [Job.runOn_bind, hparams]
  rfl

/-- A captured run has a line for each of the values that were bound. Where a value is no path of a
file, the line gives the name that value, just if the name is on one line and the value is kept. -/
theorem params_assign_iff (hsource : w.files.readText w.here r.script = .ok source)
    (hbound : (bindWords (.ofSource r.script source) r.function r.words).runOn w =
      (.ok bound, w')) :
    ∃ d, r.capture.runOn w = (.ok d, w') ∧
      List.Forall₂ (fun p line => ∃ text, line = p.1 ++ " = " ++ text ∧
        (Plain IsText (fun _ => True) p.2 → namesFile w p.2 = false →
          ((read text = p.2 ∧ '\n' ∉ line.toList) ↔ '\n' ∉ p.1.toList ∧ IsKept p.2)))
        bound.values d.params := by
  obtain ⟨d, hcapture, hall⟩ := runOn_capture hsource hbound
  refine ⟨d, hcapture, hall.imp fun p line hline => ?_⟩
  obtain ⟨text, htext, hshown⟩ := runOn_paramLine w' p
  obtain rfl : p.1 ++ " = " ++ text = line := by
    rw [htext] at hline
    exact Except.ok.inj (Prod.mk.inj hline).1
  refine ⟨text, rfl, fun hplain hfile => ?_⟩
  obtain rfl := hshown ((namesFile_bindWords hbound p.2).trans hfile)
  have hbreak : '\n' ∉ " = ".toList := by decide
  have hline : '\n' ∉ (p.1 ++ " = " ++ shown p.2).toList ↔
      '\n' ∉ p.1.toList ∧ '\n' ∉ (shown p.2).toList := by
    simp only [String.toList_append, List.mem_append, not_or, hbreak, not_false_eq_true, and_true]
  rw [hline, and_left_comm, read_shown_iff hplain]

end
end

/-- A script that is given a title and tags. -/
def noteSource : String := "def process(title, tags: list):\n    print(title)\n"

def noteRequest : CaptureRequest := ⟨"Note.py", "process", ["it's", "it's"], ""⟩

def noteSpace : Workspace := ⟨⟨[(["Note.py"], .file noteSource.toUTF8 false)]⟩, [], [], .empty⟩

theorem readText_noteSource :
    noteSpace.files.readText noteSpace.here noteRequest.script = .ok noteSource := by
  have hplace : noteSpace.files.locate noteSpace.here noteRequest.script = .ok ["Note.py"] := by
    decide +kernel
  exact FileTree.readText_of_readBytes (FileTree.readBytes_of_entry hplace rfl)

theorem bindWords_noteRequest : ∃ bound w,
    (bindWords (.ofSource noteRequest.script noteSource) noteRequest.function
        noteRequest.words).runOn noteSpace = (.ok bound, w) ∧
      bound.values =
        [("title", .str "it's"), ("tags", .list [.str "it's"]), ("outFile", .none)] := by
  simp only [ScriptModule.ofSource, Source.linesOf, Source.lex_eq_lexWithin]
  exact ⟨_, _, rfl, rfl⟩

theorem not_isKept_apostrophe : ¬IsKept (.str "it's") := by
  rintro ⟨-, -, h⟩
  have hrest : Quotable ['\'', 's'] :=
    (quotable_char_iff (by decide) (by decide)).1 ((quotable_char_iff (by decide) (by decide)).1 h)
  exact hrest.head '\'' rfl rfl

theorem plain_apostrophe_list (whole : Int → Prop) :
    Plain IsText whole (.list [.str "it's"]) := by
  refine .list fun v hv => ?_
  obtain rfl := List.mem_singleton.1 hv
  exact .str (by decide)

/-- A word with an apostrophe is not read back on its own, and is read back within a list. -/
theorem params_assign_iff_of_noteRequest : ∃ d w title tags last,
    noteRequest.capture.runOn noteSpace = (.ok d, w) ∧
      d.params = ["title = " ++ title, "tags = " ++ tags, last] ∧
      ¬(read title = .str "it's" ∧ '\n' ∉ ("title = " ++ title).toList) ∧
      read tags = .list [.str "it's"] ∧ '\n' ∉ ("tags = " ++ tags).toList := by
  obtain ⟨bound, w, hbound, hvalues⟩ := bindWords_noteRequest
  obtain ⟨d, hcapture, hall⟩ := params_assign_iff readText_noteSource hbound
  rw [hvalues] at hall
  generalize hparams : d.params = params at hall
  cases hall with
  | cons htitle hall =>
    obtain ⟨title, rfl, htitle⟩ := htitle
    cases hall with
    | cons htags hall =>
      obtain ⟨tags, rfl, htags⟩ := htags
      cases hall with
      | @cons _ last _ _ _ hall =>
        cases hall
        have hword := htitle (.str (by decide)) (by decide +kernel)
        have hlist := htags (plain_apostrophe_list _) rfl
        refine ⟨d, w, title, tags, last, hcapture, hparams, fun h => ?_,
          hlist.2 ⟨by decide, plain_apostrophe_list _⟩⟩
        exact not_isKept_apostrophe (hword.1 h).2

end Pipewright.CaptureRequest
