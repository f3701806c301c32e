import Pipewright.Program.EnvFile
import Pipewright.Proofs.Storage.Files
import Pipewright.Proofs.Storage.Jobs
import Pipewright.Proofs.Text.Lines

/-! Files of environment variables set what is written in them. -/
namespace Pipewright

namespace EnvFile
open Text

/-! Values -/

section
variable {v written : List Char} {q : Char}

/-- A text that starts and ends in a quote, and not with one and the same. -/
def Enclosed (q : Char) (cs : List Char) : Prop :=
  2 ≤ cs.length ∧ cs.head? = some q ∧ cs.getLast? = some q

instance (q : Char) (cs : List Char) : Decidable (Enclosed q cs) :=
  inferInstanceAs (Decidable (_ ∧ _ ∧ _))

theorem unquoted?_enclosed (q : Char) (v : List Char) :
    unquoted? q (q :: (v ++ [q])) = some v := by
  simp [unquoted?]

theorem unquoted?_eq_none {cs : List Char} (h : ¬Enclosed q cs) : unquoted? q cs = none := by
  cases cs with
  | nil => rfl
  | cons c r =>
    cases r with
    | nil => simp [unquoted?]
    | cons d r =>
      have hq : ¬(c = q ∧ (d :: r).getLast? = some q) := by
        intro ⟨hc, hlast⟩
        exact h ⟨by simp, congrArg some hc, hlast⟩
      simp only [unquoted?, Bool.and_eq_true, decide_eq_true_eq]
      exact if_neg hq

/-- The texts that stand for a value. -/
inductive Spells (v : List Char) : List Char → Prop
  | double : Spells v ('"' :: (v ++ ['"']))
  | single : Spells v ('\'' :: (v ++ ['\'']))
  | bare (trimmed : trim v = v) (double : ¬Enclosed '"' v) (single : ¬Enclosed '\'' v) : Spells v v

theorem Spells.value_eq (h : Spells v written) : value written = v := by
  cases h with
  | double =>
    rw [value, trim_of_enclosed (by decide) (by decide), unquoted?_enclosed]
    rfl
  | single =>
    have hdouble : ¬Enclosed '"' ('\'' :: (v ++ ['\''])) := fun ⟨_, h, _⟩ => by cases h
    rw [value, trim_of_enclosed (by decide) (by decide), unquoted?_eq_none hdouble,
      unquoted?_enclosed]
    rfl
  | bare htrim hdouble hsingle =>
    rw [value, htrim, unquoted?_eq_none hdouble, unquoted?_eq_none hsingle]
    rfl

theorem value_congr {cs ds : List Char} (h : trim cs = trim ds) : value cs = value ds := by
  rw [value, value, h]

end

/-! Lines -/

/-- Blanks within a line. -/
abbrev Space := {cs : List Char // (∀ c ∈ cs, isBlank c = true) ∧ '\n' ∉ cs}

structure Variable where
  key : List Char
  value : List Char
  key_ne_nil : key ≠ []
  key_trimmed : trim key = key
  key_equals : '=' ∉ key
  key_newline : '\n' ∉ key
  key_comment : key.head? ≠ some '#'
  key_export : key ≠ "export".toList
  key_exported : ¬"export ".toList <+: key
  value_newline : '\n' ∉ value

/-- A variable as a line sets it. The word in front of it may stand with more blanks. -/
structure Setting extends Variable where
  written : List Char
  spelled : Spells value written
  before : Space
  exported : Option Space
  beforeEquals : Space
  afterEquals : Space
  after : Space

inductive Line
  | blank (space : Space)
  | comment (space : Space) (text : List Char) (newline : '\n' ∉ text)
  | other (text : List Char) (equals : '=' ∉ text) (newline : '\n' ∉ text)
  | setting (s : Setting)

namespace Setting
variable (s : Setting)

def lead : List Char := s.exported.elim [] fun space => "export ".toList ++ space.1

def named : List Char := s.lead ++ (s.key ++ s.beforeEquals.1)

def text : List Char :=
  s.before.1 ++ (s.named ++ '=' :: (s.afterEquals.1 ++ (s.written ++ s.after.1)))

def pair : String × String := (String.ofList s.key, String.ofList s.value)

end Setting

namespace Line

def text : Line → List Char
  | blank space => space.1
  | comment space text _ => space.1 ++ '#' :: text
  | other text _ _ => text
  | setting s => s.text

def pair? : Line → Option (String × String)
  | setting s => some s.pair
  | _ => none

end Line

section
variable {cs : List Char} (s : Setting)

theorem Spells.newline {v written : List Char} (h : Spells v written) (hv : '\n' ∉ v) :
    '\n' ∉ written := by
  cases h with
  | double => simp [hv]
  | single => simp [hv]
  | bare => exact hv

theorem Setting.lead_newline : '\n' ∉ s.lead := by
  rw [lead]
  cases s.exported with
  | none => exact List.not_mem_nil
  | some space =>
    rw [Option.elim_some, List.mem_append, not_or]
    exact ⟨by decide, space.2.2⟩

theorem Line.text_newline (l : Line) : '\n' ∉ l.text := by
  cases l with
  | blank space => exact space.2.2
  | comment space text h => simp [Line.text, space.2.2, h]
  | other text _ h => exact h
  | setting s =>
    simp [Line.text, Setting.text, Setting.named, s.before.2.2, s.lead_newline, s.key_newline,
      s.beforeEquals.2.2, s.afterEquals.2.2, s.spelled.newline s.value_newline, s.after.2.2]

theorem assignment?_congr {ds : List Char} (h : trim cs = trim ds) :
    assignment? cs = assignment? ds := by
  rw [assignment?, assignment?, h]

theorem assignment?_blank (h : ∀ c ∈ cs, isBlank c) : assignment? cs = none := by
  have htrim : trim cs = [] := by
    rw [trim, trimStart, List.dropWhile_eq_nil_iff.2 h]
    rfl
  rw [assignment?, htrim]
  rfl

theorem assignment?_comment (space : Space) (cs : List Char) :
    assignment? (space.1 ++ '#' :: cs) = none := by
  have htrim : trim (space.1 ++ '#' :: cs) = '#' :: trimEnd cs := by
    rw [trim, trimStart_blanks space.2.1]
    exact trimEnd_shown (by decide) [] cs
  rw [assignment?, htrim]
  rfl

theorem assignment?_other (h : '=' ∉ cs) : assignment? cs = none := by
  have htrim : '=' ∉ trim cs := fun hm =>
    h ((trimStart_suffix cs).subset ((trimEnd_isPrefix _).subset hm))
  have hlead : '=' ∉ (afterLead? "export ".toList (trim cs)).getD (trim cs) := by
    cases hr : afterLead? "export ".toList (trim cs) with
    | none => exact htrim
    | some r =>
      rw [afterLead?_eq_some_iff.1 hr] at htrim
      exact fun hm => htrim (List.mem_append_right _ hm)
  have hnone : splitOnce ['='] ((afterLead? "export ".toList (trim cs)).getD (trim cs)) = none := by
    rw [← Option.not_isSome_iff_eq_none, splitOnce_isSome_iff]
    exact fun hm => hlead ((List.singleton_infix_iff _ _).1 hm)
  rw [assignment?]
  dsimp only
  rw [hnone]
  split <;> rfl

/-- Nothing but the word itself reads as the word. -/
theorem Variable.not_exported (v : Variable) (space : Space) (rest : List Char) :
    ¬"export ".toList <+: v.key ++ (space.1 ++ '=' :: rest) := by
  intro hword
  obtain hkey | hkey := List.prefix_or_prefix_of_prefix hword (List.prefix_append v.key _)
  · exact v.key_exported hkey
  -- the key is a proper part of the word, so that the word goes on where blanks or `=` stand
  have hpart : v.key <+: "export".toList := by
    have hword : "export ".toList = "export".toList ++ [' '] := by decide
    rw [hword, List.prefix_concat_iff] at hkey
    obtain hkey | hkey := hkey
    · exact absurd (hword ▸ hkey ▸ List.prefix_rfl) v.key_exported
    · exact hkey
  obtain ⟨more, hmore⟩ := hpart
  cases more with
  | nil => exact v.key_export ((List.append_nil _).symm.trans hmore)
  | cons d more =>
    have hletters : ∀ c ∈ "export".toList, isBlank c = false ∧ c ≠ '=' :=
      forall_mem_of_all (by decide)
    have hd := hletters d (hmore ▸ List.mem_append_right _ List.mem_cons_self)
    have hnext : d :: more <+: space.1 ++ '=' :: rest := by
      have hfront : v.key ++ d :: more <+: "export ".toList := hmore ▸ by decide
      exact (List.prefix_append_right_inj v.key).1 (hfront.trans hword)
    cases hspace : space.1 with
    | nil =>
      rw [hspace] at hnext
      exact hd.2 (List.cons_prefix_cons.1 hnext).1
    | cons b bs =>
      have hb : isBlank b = true := space.2.1 b (hspace ▸ List.mem_cons_self)
      rw [hspace] at hnext
      rw [(List.cons_prefix_cons.1 hnext).1, hb] at hd
      cases hd.1

theorem Setting.head_named (rest : List Char) :
    ∃ c r, s.named ++ rest = c :: r ∧ isBlank c = false ∧ c ≠ '#' := by
  rw [named, lead]
  cases s.exported with
  | some space => exact ⟨'e', _, rfl, by decide, by decide⟩
  | none =>
    obtain ⟨c, r, hkey⟩ := List.exists_cons_of_ne_nil s.key_ne_nil
    have hhead : s.key.head? = some c := by rw [hkey]; rfl
    refine ⟨c, _, by rw [hkey]; rfl, head_of_trimmed s.key_trimmed c hhead, ?_⟩
    intro hc
    exact s.key_comment (hc ▸ hhead)

theorem Setting.trim_text :
    trim s.text = s.named ++ '=' :: trimEnd (s.afterEquals.1 ++ (s.written ++ s.after.1)) := by
  obtain ⟨c, r, hnamed, hc, -⟩ :=
    s.head_named ('=' :: (s.afterEquals.1 ++ (s.written ++ s.after.1)))
  have hstart : trimStart (c :: r) = c :: r := dropWhile_of_head (by simpa using hc)
  rw [text, trim, trimStart_blanks s.before.2.1, hnamed, hstart, ← hnamed,
    trimEnd_shown (by decide)]

theorem Setting.afterLead?_named (rest : List Char) :
    ∃ space : Space, (afterLead? "export ".toList (s.named ++ '=' :: rest)).getD
        (s.named ++ '=' :: rest) = (space.1 ++ (s.key ++ s.beforeEquals.1)) ++ '=' :: rest := by
  rw [named, lead]
  cases s.exported with
  | some space =>
    refine ⟨space, ?_⟩
    rw [Option.elim_some, List.append_assoc, List.append_assoc, afterLead?_append,
      Option.getD_some, List.append_assoc, List.append_assoc, List.append_assoc]
  | none =>
    refine ⟨⟨[], List.forall_mem_nil _, List.not_mem_nil⟩, ?_⟩
    have hnone : afterLead? "export ".toList ([] ++ (s.key ++ s.beforeEquals.1) ++ '=' :: rest) =
        none := by
      refine Option.eq_none_iff_forall_ne_some.2 fun r hr => ?_
      refine s.not_exported s.beforeEquals rest ⟨r, ?_⟩
      rw [← afterLead?_eq_some_iff.1 hr, List.nil_append, List.append_assoc]
    rw [Option.elim_none, hnone]
    rfl

theorem Setting.assignment?_text : assignment? s.text = some s.pair := by
  have hequals : ∀ space : Space, '=' ∉ space.1 := fun space hm => by
    cases (space.2.1 _ hm : isBlank '=' = true)
  obtain ⟨c, r, hnamed, -, hc⟩ :=
    s.head_named ('=' :: trimEnd (s.afterEquals.1 ++ (s.written ++ s.after.1)))
  obtain ⟨space, hlead⟩ :=
    s.afterLead?_named (trimEnd (s.afterEquals.1 ++ (s.written ++ s.after.1)))
  have hfront : '=' ∉ space.1 ++ (s.key ++ s.beforeEquals.1) := by
    simp [hequals, s.key_equals]
  have hkey : trim (space.1 ++ (s.key ++ s.beforeEquals.1)) = s.key := by
    rw [trim_between space.2.1 s.beforeEquals.2.1, s.key_trimmed]
  have hvalue : EnvFile.value (trimEnd (s.afterEquals.1 ++ (s.written ++ s.after.1))) = s.value := by
    rw [value_congr ((trim_trimEnd _).trans (trim_between s.afterEquals.2.1 s.after.2.1 s.written)),
      s.spelled.value_eq]
  have hshown : ((c :: r).isEmpty || decide ((c :: r).head? = some '#')) = false := by simp [hc]
  rw [assignment?, s.trim_text]
  dsimp only
  rw [hlead, splitOnce_first hfront, hnamed, hshown, if_neg Bool.false_ne_true, Option.map_some,
    hkey, hvalue, pair]

theorem assignment?_line (l : Line) : assignment? l.text = l.pair? := by
  cases l with
  | blank space => exact assignment?_blank space.2.1
  | comment space text _ => exact assignment?_comment space text
  | other text h _ => exact assignment?_other h
  | setting s => exact s.assignment?_text

end

/-! Files -/

theorem read_lines (ls : List Line) (l : Line) :
    read (String.ofList (ended (ls.map Line.text) ++ l.text)) = (ls ++ [l]).filterMap Line.pair? := by
  have hreturn : ∀ c ∈ ['\r'], isBlank c := forall_mem_of_all (by decide)
  have hls : ∀ cs ∈ ls.map Line.text, '\n' ∉ cs := by
    intro cs hcs
    obtain ⟨m, -, rfl⟩ := List.mem_map.1 hcs
    exact m.text_newline
  have hlines := filterMap_lines (f := assignment?) rfl
    (fun cs => assignment?_congr (trim_blanks hreturn cs)) hls l.text_newline
  rw [read, String.toList_ofList, hlines, ← List.map_singleton (f := Line.text), ← List.map_append,
    List.filterMap_map]
  exact List.filterMap_congr fun m _ => assignment?_line m

theorem runOn_load (path : String) (w : Workspace) :
    (load path).runOn w = match w.files.readText w.here path with
      | .ok s => (.ok (read s), w)
      | .error .notFound => (.ok [], w)
      | .error e => (.error (.file e), w) := by
  have hlook : (load path).runOn w = ((fun r => match r with
      | .ok s => return read s
      | .error .notFound => return []
      | .error e => Job.fail (.file e) : Except FileFault String → Job _)
        (w.files.readText w.here path)).runOn w := rfl
  rw [hlook]
  cases w.files.readText w.here path with
  | ok s => rfl
  | error e => cases e <;> rfl

/-- The variables that lines set are those that are read, in order and as often as they are set. -/
theorem load_lines {w : Workspace} {path : String} (ls : List Line) (l : Line)
    (h : w.files.readBytes w.here path =
      .ok (String.ofList (ended (ls.map Line.text) ++ l.text)).toUTF8) :
    (load path).runOn w = (.ok ((ls ++ [l]).filterMap Line.pair?), w) := by
  rw [runOn_load, FileTree.readText_of_readBytes h]
  dsimp only
  rw [read_lines]

/-! A file of a cluster -/

def noSpace : Space := ⟨[], List.forall_mem_nil _, List.not_mem_nil⟩
def blankSpace : Space := ⟨[' '], forall_mem_of_all (by decide), by decide⟩

def queue : Setting where
  key := "QUEUE".toList
  value := "all.q".toList
  key_ne_nil := by decide
  key_trimmed := by decide
  key_equals := by decide
  key_newline := by decide
  key_comment := by decide
  key_export := by decide
  key_exported := by decide
  value_newline := by decide
  written := "\"all.q\"".toList
  spelled := .double
  before := blankSpace
  exported := some noSpace
  beforeEquals := blankSpace
  afterEquals := blankSpace
  after := ⟨['\r'], forall_mem_of_all (by decide), by decide⟩

/-- The variable set again, to a value with an apostrophe, and without quotes around it. -/
def queueAgain : Setting :=
  { queue with
    value := "it's=\"".toList
    value_newline := by decide
    written := "it's=\"".toList
    spelled := .bare (by decide) (by decide) (by decide)
    exported := none }

def clusterLines : List Line :=
  [.comment noSpace " cluster".toList (by decide), .setting queue, .blank noSpace,
    .other "broken line".toList (by decide) (by decide), .setting queueAgain]

def clusterText : String :=
  "# cluster\n export QUEUE = \"all.q\"\r\n\nbroken line\n QUEUE = it's=\"\r\n"

def clusterSpace : Workspace where
  files := { entries := [(["env"], .file clusterText.toUTF8 false)] }
  here := []
  warnings := []
  output := .empty

theorem load_lines_cluster :
    clusterText = String.ofList (ended (clusterLines.map Line.text) ++ (Line.blank noSpace).text) ∧
      (load "env").runOn clusterSpace =
        (.ok [("QUEUE", "all.q"), ("QUEUE", "it's=\"")], clusterSpace) := by
  have htext : clusterText =
      String.ofList (ended (clusterLines.map Line.text) ++ (Line.blank noSpace).text) := by
    decide
  have hplace : clusterSpace.files.locate clusterSpace.here "env" = .ok ["env"] := by
    decide +kernel
  have hbytes : clusterSpace.files.readBytes clusterSpace.here "env" = .ok clusterText.toUTF8 :=
    FileTree.readBytes_of_entry hplace rfl
  rw [htext] at hbytes
  exact ⟨htext, load_lines clusterLines (.blank noSpace) hbytes⟩

end EnvFile
end Pipewright
