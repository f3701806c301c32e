import Pipewright.Proofs.Result.Shown
import Pipewright.Proofs.Storage.Files
import Pipewright.Proofs.Storage.Jobs
import Pipewright.Result.Saving

/-! Saving of results: what comes of all of them is what comes of each on its own, one after the
other. -/
namespace Pipewright

theorem toUTF8_joined_append (ss ts : List String) :
    (joined "" (ss ++ ts)).toUTF8 = (joined "" ss).toUTF8 ++ (joined "" ts).toUTF8 := by
  have hjoined : joined "" (ss ++ ts) = joined "" ss ++ joined "" ts :=
    String.toList_injective (by simp [toList_joined_empty])
  rw [hjoined]
  exact String.toByteArray_append

theorem joined_singleton (s : String) : joined "" [s] = s :=
  String.toList_injective (by simp [toList_joined_empty])

theorem filterMap_concat {α β : Type} (f : α → Option β) (as : List α) (a : α) :
    (as ++ [a]).filterMap f = as.filterMap f ++ (f a).toList := by
  rw [List.filterMap_append]
  cases h : f a <;> simp [h]

theorem length_parts {α β γ : Type} {f : α → Option β} {g : α → Option γ} {p : α → Bool}
    (h : ∀ a, (f a).toList.length + (g a).toList.length + (if p a then 1 else 0) = 1)
    (as : List α) :
    (as.filterMap f).length + (as.filterMap g).length + (as.filter p).length = as.length := by
  induction as with
  | nil => rfl
  | cons a as ih =>
    have ha := h a
    simp only [List.filterMap_cons, List.filter_cons, List.length_cons]
    cases hf : f a <;> cases hg : g a <;> cases hp : p a <;> simp [hf, hg, hp] at ha ⊢ <;> omega

namespace Delivery

def path? : Delivery → Option String
  | .file path _ => some path
  | _ => none

/-- The text that is sent to the output. -/
def shown? : Delivery → Option String
  | .shown text => some text
  | _ => none

def isSkipped : Delivery → Bool
  | .skipped _ => true
  | _ => false

def warning? (i : Nat) : Delivery → Option String
  | .skipped part => some (ResultEntry.skipWarning i part)
  | _ => none

/-- The content that is left at a place. -/
def contentAt? (here p : Place) : Delivery → Option ByteArray
  | .file path content => if Path.place here path = p then some content else none
  | _ => none

/-- A report with one more delivery, of the result of a number. -/
def reported (i : Nat) (report : SaveReport) (d : Delivery) : SaveReport :=
  ⟨report.written ++ d.path?.toList, report.skipped ++ if d.isSkipped then [i] else []⟩

/-- A workspace with the texts of one more delivery. -/
def told (i : Nat) (w : Workspace) (d : Delivery) : Workspace :=
  { w with output := w.output ++ (joined "" d.shown?.toList).toUTF8
           warnings := w.warnings ++ (d.warning? i).toList }

/-- Files behind a delivery: its content at its place, and elsewhere what was there. -/
structure Stored (here : Place) (d : Delivery) (files files' : FileTree) : Prop where
  filled : FileTree.Filled files files'
  own : ∀ p content, d.contentAt? here p = some content →
    ∃ executable, files'.entry? p = some (.file content executable)
  others : ∀ p, d.contentAt? here p = none → files'.entry? p = files.entry? p

variable {here : Place} {path text : String} {content : ByteArray} {files files' : FileTree}

theorem stored_file (h : files.write here path content = .ok files') :
    (file path content).Stored here files files' := by
  obtain ⟨hfilled, hown, hothers⟩ := FileTree.entry_write h
  refine ⟨hfilled, fun p c hc => ?_, fun p hp => ?_⟩
  · obtain ⟨rfl, hcontent⟩ := Option.ite_none_right_eq_some.1 hc
    exact Option.some.inj hcontent ▸ hown
  · refine hothers p fun hplace => ?_
    rw [contentAt?, if_pos hplace.symm] at hp
    cases hp

theorem stored_shown : (shown text).Stored here files files := ⟨.refl _, nofun, fun _ _ => rfl⟩

theorem stored_skipped {part : Result} : (skipped part).Stored here files files :=
  ⟨.refl _, nofun, fun _ _ => rfl⟩

end Delivery

/-- A sequence or mapping with a table or figure directly in it. -/
def Result.HoldsFormless : Result → Prop
  | .sequence items => ∃ v ∈ items, v.hasForm = false
  | .mapping es => ∃ e ∈ es, e.2.hasForm = false
  | _ => False

namespace ResultEntry
open FileTree
variable {peek : Option Peek} {w w₁ w₂ : Workspace} {entries es : List ResultEntry}
  {e : ResultEntry} {report : SaveReport} {i : Nat} {path : String} {content : ByteArray}

/-- The file of an entry, if it has one, can be written. -/
def Writable (peek : Option Peek) (w : Workspace) (e : ResultEntry) : Prop :=
  ∀ path content, e.deliver peek = .file path content →
    ∃ t, w.files.write w.here path content = .ok t

/-- What is left at a place by the entries that write there, in order. -/
def contentsAt (peek : Option Peek) (here p : Place) (entries : List ResultEntry) :
    List ByteArray :=
  entries.filterMap fun e => (e.deliver peek).contentAt? here p

/-- A report and a workspace account for entries that were saved, each for its own. -/
structure Account (peek : Option Peek) (w : Workspace) (entries : List ResultEntry)
    (report : SaveReport) (w' : Workspace) : Prop where
  here : w'.here = w.here
  filled : Filled w.files w'.files
  written : report.written = entries.filterMap fun e => (e.deliver peek).path?
  skipped : report.skipped =
    (entries.zipIdx.filter fun e => (e.1.deliver peek).isSkipped).map Prod.snd
  output : w'.output =
    w.output ++ (joined "" (entries.filterMap fun e => (e.deliver peek).shown?)).toUTF8
  warnings : w'.warnings =
    w.warnings ++ entries.zipIdx.filterMap fun e => (e.1.deliver peek).warning? e.2
  kept : ∀ p, contentsAt peek w.here p entries = [] → w'.files.entry? p = w.files.entry? p
  last : ∀ p content, (contentsAt peek w.here p entries).getLast? = some content →
    ∃ executable, w'.files.entry? p = some (.file content executable)

/-! One entry -/

/-- What saving one entry does. -/
theorem saveOne_runOn (he : Writable peek w e) (report : SaveReport) (i : Nat) :
    ∃ files, (e.deliver peek).Stored w.here w.files files ∧
      (saveOne peek report e i).runOn w =
        (.ok ((e.deliver peek).reported i report), (e.deliver peek).told i { w with files }) := by
  rw [saveOne]
  cases hd : e.deliver peek with
  | file path content =>
    obtain ⟨files, hfiles⟩ := he path content hd
    have hreport : (Delivery.file path content).reported i report =
        { report with written := report.written ++ [path] } := by
      simp [Delivery.reported, Delivery.path?, Delivery.isSkipped]
    have htold : (Delivery.file path content).told i { w with files } = { w with files } := by
      simp [Delivery.told, Delivery.shown?, Delivery.warning?, joined]
    refine ⟨files, Delivery.stored_file hfiles, ?_⟩
    dsimp only
    rw [Job.runOn_bind, Job.writeBytes, Job.runOn_change, hfiles, hreport, htold]
    rfl
  | shown text =>
    have hreport : (Delivery.shown text).reported i report = report := by
      simp [Delivery.reported, Delivery.path?, Delivery.isSkipped]
    have htold : (Delivery.shown text).told i w = { w with output := w.output ++ text.toUTF8 } := by
      simp [Delivery.told, Delivery.shown?, Delivery.warning?, joined_singleton]
    refine ⟨w.files, Delivery.stored_shown, ?_⟩
    rw [hreport, htold]
    rfl
  | skipped part =>
    have hreport : (Delivery.skipped part).reported i report =
        { report with skipped := report.skipped ++ [i] } := by
      simp [Delivery.reported, Delivery.path?, Delivery.isSkipped]
    have htold : (Delivery.skipped part).told i w =
        { w with warnings := w.warnings ++ [skipWarning i part] } := by
      simp [Delivery.told, Delivery.shown?, Delivery.warning?, joined]
    refine ⟨w.files, Delivery.stored_skipped, ?_⟩
    rw [hreport, htold]
    rfl

theorem writable_of_saveOne {report' : SaveReport} {w' : Workspace}
    (h : (saveOne peek report e i).runOn w = (.ok report', w')) : Writable peek w e := by
  intro path content hd
  rw [saveOne, hd] at h
  obtain ⟨u, w', hwrite, -⟩ := Job.bind_ok h
  obtain ⟨t, ht, -⟩ := Job.change_ok hwrite
  exact ⟨t, ht⟩

theorem saveAll_concat (es : List ResultEntry) (e : ResultEntry) (peek : Option Peek) :
    saveAll (es ++ [e]) peek =
      saveAll es peek >>= fun report => saveOne peek report e es.length := by
  rw [saveAll, saveAll, List.zipIdx_append, List.foldlM_append]
  simp

theorem account_nil (peek : Option Peek) (w : Workspace) : Account peek w [] ⟨[], []⟩ w where
  here := rfl
  filled := .refl _
  written := rfl
  skipped := rfl
  output := by simp [joined]
  warnings := by simp
  kept _ _ := rfl
  last _ _ h := by cases h

theorem contentsAt_concat (here p : Place) : contentsAt peek here p (es ++ [e]) =
    contentsAt peek here p es ++ ((e.deliver peek).contentAt? here p).toList :=
  filterMap_concat _ es e

theorem Account.writable_iff (h : Account peek w es report w₁) :
    Writable peek w₁ e ↔ Writable peek w e := by
  simp only [Writable, h.here, h.filled.write_isOk_iff]

/-- One more entry is accounted for, whatever was saved before it. -/
theorem Account.concat (h : Account peek w es report w₁) {files : FileTree}
    (hfiles : (e.deliver peek).Stored w₁.here w₁.files files) :
    Account peek w (es ++ [e]) ((e.deliver peek).reported es.length report)
      ((e.deliver peek).told es.length { w₁ with files }) := by
  obtain ⟨hfilled, hown, hothers⟩ := hfiles
  rw [h.here] at hown hothers
  constructor
  case here => exact h.here
  case filled => exact h.filled.trans hfilled
  case written => rw [filterMap_concat, ← h.written]; rfl
  case skipped =>
    rw [List.zipIdx_append, List.filter_append, List.map_append, ← h.skipped]
    cases hs : (e.deliver peek).isSkipped <;> simp [Delivery.reported, hs]
  case output =>
    rw [filterMap_concat, toUTF8_joined_append, ← ByteArray.append_assoc, ← h.output]
    rfl
  case warnings =>
    have hconcat : (es ++ [e]).zipIdx = es.zipIdx ++ [(e, es.length)] := by
      simp [List.zipIdx_append]
    rw [hconcat, filterMap_concat, ← List.append_assoc, ← h.warnings]
    rfl
  case kept =>
    intro p hp
    rw [contentsAt_concat, List.append_eq_nil_iff, Option.toList_eq_nil_iff] at hp
    exact (hothers p hp.2).trans (h.kept p hp.1)
  case last =>
    intro p content hp
    rw [contentsAt_concat] at hp
    cases hc : (e.deliver peek).contentAt? w.here p with
    | some c =>
      rw [hc, Option.toList_some, List.getLast?_concat, Option.some.injEq] at hp
      exact hown p content (hp ▸ hc)
    | none =>
      rw [hc, Option.toList_none, List.append_nil] at hp
      obtain ⟨executable, hfile⟩ := h.last p content hp
      exact ⟨executable, (hothers p hc).trans hfile⟩

/-- Results whose files can be written are all saved and accounted for. -/
theorem account_of_writable (h : ∀ e ∈ entries, Writable peek w e) :
    ∃ report w', (saveAll entries peek).runOn w = (.ok report, w') ∧
      Account peek w entries report w' := by
  induction entries using List.reverseRecOn with
  | nil => exact ⟨_, _, rfl, account_nil peek w⟩
  | append_singleton es e ih =>
    obtain ⟨hes, he⟩ := List.forall_mem_append.1 h
    obtain ⟨report, w₁, hrun, haccount⟩ := ih hes
    have hwritable : Writable peek w₁ e := haccount.writable_iff.2 (he e List.mem_cons_self)
    obtain ⟨files, hfiles, hlast⟩ := saveOne_runOn hwritable report es.length
    refine ⟨_, _, ?_, haccount.concat hfiles⟩
    rw [saveAll_concat, Job.runOn_bind, hrun]
    exact hlast

theorem writable_of_saveAll {w' : Workspace}
    (h : (saveAll entries peek).runOn w = (.ok report, w')) : ∀ e ∈ entries, Writable peek w e := by
  induction entries using List.reverseRecOn generalizing report w' with
  | nil => exact List.forall_mem_nil _
  | append_singleton es e ih =>
    rw [saveAll_concat] at h
    obtain ⟨report₁, w₁, hrun, hlast⟩ := Job.bind_ok h
    have hes := ih hrun
    obtain ⟨report₂, w₂, hrun₂, haccount⟩ := account_of_writable hes
    obtain ⟨h₁, rfl⟩ := Prod.mk.inj (hrun.symm.trans hrun₂)
    cases h₁
    refine List.forall_mem_append.2 ⟨hes, fun e' he' => ?_⟩
    rw [List.mem_singleton.1 he']
    exact haccount.writable_iff.1 (writable_of_saveOne hlast)

/-! What an account says -/

theorem Account.skipped_sorted {w' : Workspace} (h : Account peek w entries report w') :
    report.skipped.Pairwise (· < ·) := by
  have hindices : entries.zipIdx.map Prod.snd = List.range' 0 entries.length :=
    List.zipIdx_map_snd 0 entries
  rw [h.skipped]
  refine List.Pairwise.sublist (List.filter_sublist.map Prod.snd) ?_
  rw [hindices]
  exact List.pairwise_lt_range'

/-- Every entry is written, shown or skipped, and counts once. -/
theorem Account.counts {w' : Workspace} (h : Account peek w entries report w') :
    report.written.length + (entries.filterMap fun e => (e.deliver peek).shown?).length +
      report.skipped.length = entries.length := by
  have hparts : ∀ e : ResultEntry, (e.deliver peek).path?.toList.length +
      (e.deliver peek).shown?.toList.length + (if (e.deliver peek).isSkipped then 1 else 0) = 1 := by
    intro e
    cases e.deliver peek <;> rfl
  have hindices : (entries.zipIdx.filter fun e => (e.1.deliver peek).isSkipped).map Prod.fst =
      entries.filter fun e => (e.deliver peek).isSkipped := by
    have hfilter := List.filter_map (f := Prod.fst)
      (p := fun e : ResultEntry => (e.deliver peek).isSkipped) (l := entries.zipIdx)
    rw [List.zipIdx_map_fst] at hfilter
    exact hfilter.symm
  rw [h.written, h.skipped, List.length_map, ← List.length_map Prod.fst, hindices]
  exact length_parts hparts entries

/-- A file that no later entry writes again holds what its entry wrote. -/
theorem Account.readBytes {w' : Workspace} {before after : List ResultEntry}
    (h : Account peek w (before ++ e :: after) report w') (he : Writable peek w e)
    (hd : e.deliver peek = .file path content)
    (hlast : ∀ e' ∈ after, ∀ path' content', e'.deliver peek = .file path' content' →
      Path.place w.here path' ≠ Path.place w.here path) :
    w'.files.readBytes w.here path = .ok content := by
  have hafter : contentsAt peek w.here (Path.place w.here path) after = [] := by
    refine List.filterMap_eq_nil_iff.2 fun e' he' => ?_
    cases hd' : e'.deliver peek with
    | file path' content' => exact if_neg (hlast e' he' path' content' hd')
    | shown _ => rfl
    | skipped _ => rfl
  have hown : (e.deliver peek).contentAt? w.here (Path.place w.here path) = some content := by
    rw [hd]
    exact if_pos rfl
  have hcontents : contentsAt peek w.here (Path.place w.here path) (before ++ e :: after) =
      contentsAt peek w.here (Path.place w.here path) before ++ [content] := by
    rw [contentsAt, List.filterMap_append, List.filterMap_cons_some
      (f := fun e : ResultEntry => (e.deliver peek).contentAt? w.here (Path.place w.here path))
      hown]
    exact congrArg (_ ++ content :: ·) hafter
  obtain ⟨executable, hfile⟩ := h.last (Path.place w.here path) content
    (hcontents ▸ List.getLast?_concat)
  exact h.filled.readBytes_write (he path content hd) hfile

/-! Who is skipped, and who is not cut -/

theorem render_error_iff {v : Result} (hv : ∀ f, v ≠ .figure f) :
    (∃ part, v.render = .error part) ↔ v.HoldsFormless := by
  cases v with
  | figure f => exact absurd rfl (hv f)
  | scalar s => exact iff_of_false nofun id
  | table t => exact iff_of_false nofun id
  | sequence items =>
    rw [Result.render, Result.HoldsFormless, ← Result.formless?_ne_none_iff]
    cases Result.formless? items <;> simp
  | mapping es =>
    have hvalues : (∃ e ∈ es, e.2.hasForm = false) ↔ Result.formless? (es.map Prod.snd) ≠ none := by
      rw [Result.formless?_ne_none_iff]
      constructor
      · rintro ⟨e, he, hform⟩
        exact ⟨e.2, List.mem_map_of_mem he, hform⟩
      · rintro ⟨v, hmem, hform⟩
        obtain ⟨e, he, rfl⟩ := List.mem_map.1 hmem
        exact ⟨e, he, hform⟩
    rw [Result.render, Result.HoldsFormless, hvalues]
    cases Result.formless? (es.map Prod.snd) <;> simp

theorem deliverValue_skipped_iff {destination : Option String} {v : Result} :
    (∃ part, deliverValue peek destination v = .skipped part) ↔ v.HoldsFormless := by
  have htext : ∀ text, ¬∃ part, deliverText destination text = .skipped part := by
    intro text
    cases destination <;> exact nofun
  by_cases hfigure : ∃ f, v = .figure f
  · obtain ⟨f, rfl⟩ := hfigure
    cases destination <;> exact iff_of_false nofun id
  by_cases htable : ∃ t, v = .table t
  · obtain ⟨t, rfl⟩ := htable
    exact iff_of_false (htext _) id
  rw [not_exists] at hfigure htable
  rw [← render_error_iff hfigure, deliverValue]
  · cases v.render with
    | error part => simp
    | ok text => exact iff_of_false (htext _) nofun
  · exact fun f hf => hfigure f hf
  · exact fun t ht => htable t ht

theorem deliver_skipped_iff : (∃ part, e.deliver peek = .skipped part) ↔
    (∀ d ∈ e.destination, Path.hasExtension d "json" = false) ∧ e.value.HoldsFormless := by
  rw [deliver]
  split
  · rename_i path hpath
    obtain ⟨hd, hjson⟩ := Option.filter_eq_some_iff.1 hpath
    refine iff_of_false nofun fun h => ?_
    exact absurd (h.1 path hd) (by simp [hjson])
  · rename_i hnone
    have hjson : ∀ d ∈ e.destination, Path.hasExtension d "json" = false := by
      simpa [Option.filter_eq_none_iff] using hnone
    rw [deliverValue_skipped_iff]
    exact (and_iff_right hjson).symm

theorem deliver_congr (peek peek' : Option Peek)
    (h : (∃ d ∈ e.destination, Path.hasExtension d "json" = true) ∨ ∃ f, e.value = .figure f) :
    e.deliver peek' = e.deliver peek := by
  rw [deliver, deliver]
  split
  · rfl
  · rename_i hnone
    obtain ⟨d, hd, hjson⟩ | ⟨f, hf⟩ := h
    · rw [Option.filter_eq_none_iff] at hnone
      exact absurd hjson (hnone d hd)
    · rw [hf]
      rfl

/-! All entries -/

/-- All results are saved just if the files of each could be written before the others were. Then
each is written, shown or skipped as it would be on its own, in order, and a file holds what the last
entry with its place would write on its own. Skipped is what has a table or figure directly in it and
no JSON file to go to; limits change neither JSON files nor figures. -/
theorem saveAll_accounts (peek : Option Peek) (entries : List ResultEntry) (w : Workspace) :
    ((∃ report w', (saveAll entries peek).runOn w = (.ok report, w')) ↔
      ∀ e ∈ entries, Writable peek w e) ∧
    (∀ report w', (saveAll entries peek).runOn w = (.ok report, w') →
      Account peek w entries report w' ∧ report.skipped.Pairwise (· < ·) ∧
      report.written.length + (entries.filterMap fun e => (e.deliver peek).shown?).length +
        report.skipped.length = entries.length ∧
      ∀ before e after, entries = before ++ e :: after →
        ∃ alone w₁, (saveAll [e] peek).runOn w = (.ok alone, w₁) ∧ Account peek w [e] alone w₁ ∧
          ∀ path content, e.deliver peek = .file path content →
            w₁.files.readBytes w.here path = .ok content ∧
            ((∀ e' ∈ after, ∀ path' content', e'.deliver peek = .file path' content' →
                Path.place w.here path' ≠ Path.place w.here path) →
              w'.files.readBytes w.here path = w₁.files.readBytes w.here path)) ∧
    (∀ e : ResultEntry, (∃ part, e.deliver peek = .skipped part) ↔
      (∀ d ∈ e.destination, Path.hasExtension d "json" = false) ∧ e.value.HoldsFormless) ∧
    ∀ (e : ResultEntry) (peek' : Option Peek),
      ((∃ d ∈ e.destination, Path.hasExtension d "json" = true) ∨ ∃ f, e.value = .figure f) →
        e.deliver peek' = e.deliver peek := by
  refine ⟨⟨?_, ?_⟩, ?_, fun e => deliver_skipped_iff, fun e peek' h => deliver_congr peek peek' h⟩
  · rintro ⟨report, w', hrun⟩
    exact writable_of_saveAll hrun
  · intro h
    obtain ⟨report, w', hrun, -⟩ := account_of_writable h
    exact ⟨report, w', hrun⟩
  · intro report w' hrun
    have hwritable := writable_of_saveAll hrun
    obtain ⟨report', w'', hrun', haccount⟩ := account_of_writable hwritable
    obtain ⟨hreport, rfl⟩ := Prod.mk.inj (hrun.symm.trans hrun')
    cases hreport
    refine ⟨haccount, haccount.skipped_sorted, haccount.counts, ?_⟩
    rintro before e after rfl
    have he : Writable peek w e := hwritable e List.mem_append_cons_self
    have halone : ∀ e' ∈ [e], Writable peek w e' := List.forall_mem_singleton.2 he
    obtain ⟨alone, w₁, hrun₁, haccount₁⟩ := account_of_writable halone
    refine ⟨alone, w₁, hrun₁, haccount₁, fun path content hd => ?_⟩
    have hread : w₁.files.readBytes w.here path = .ok content := by
      have hsole : Account peek w ([] ++ e :: []) alone w₁ := haccount₁
      exact hsole.readBytes he hd (List.forall_mem_nil _)
    refine ⟨hread, fun hlast => ?_⟩
    rw [hread, haccount.readBytes he hd hlast]

/-- A number for a file, a sequence for the output, a figure in a sequence, and another number for
the same file. -/
def mixedEntries : List ResultEntry :=
  [⟨some "a.tsv", .int 1, .scalar (.int 1)⟩,
    ⟨none, .arr [.int 1, .int 2], .sequence [.scalar (.int 1), .scalar (.int 2)]⟩,
    ⟨none, .null, .sequence [.figure ⟨"png", [1]⟩]⟩,
    ⟨some "./a.tsv", .int 2, .scalar (.int 2)⟩]

theorem saveAll_mixedEntries : ∃ report w', (saveAll mixedEntries none).runOn default =
      (.ok report, w') ∧ report.written = ["a.tsv", "./a.tsv"] ∧ report.skipped = [2] ∧
    w'.output = "1\n2\n".toUTF8 ∧ w'.files.readBytes [] "./a.tsv" = .ok "2\n".toUTF8 := by
  have hfile : ∀ path, Path.hasExtension path "json" = false → ∀ raw i,
      deliver none ⟨some path, raw, .scalar (.int i)⟩ = .file path (toString i ++ "\n").toUTF8 := by
    intro path hext raw i
    rw [deliver, Option.filter_some, hext]
    rfl
  have hfirst := hfile "a.tsv" (by decide +kernel) (.int 1) 1
  have hlast := hfile "./a.tsv" (by decide +kernel) (.int 2) 2
  have hwrite : ∀ path ∈ ["a.tsv", "./a.tsv"], ∀ content, ∃ t,
      (default : Workspace).files.write [] path content = .ok t := by
    intro path hpath content
    refine write_isOk_iff.2 ⟨?_, ?_, ["a.tsv"], ?_, nofun⟩
    · revert path
      decide +kernel
    · revert path
      decide
    · revert path
      decide +kernel
  have hwritable : ∀ e ∈ mixedEntries, Writable none default e := by
    simp only [mixedEntries, List.forall_mem_cons]
    refine ⟨?_, nofun, nofun, ?_, List.forall_mem_nil _⟩
    · intro path content hd
      rw [hfirst] at hd
      cases hd
      exact hwrite _ List.mem_cons_self _
    · intro path content hd
      rw [hlast] at hd
      cases hd
      exact hwrite _ (List.mem_cons_of_mem _ List.mem_cons_self) _
  obtain ⟨hruns, hsaved, -, -⟩ := saveAll_accounts none mixedEntries default
  obtain ⟨report, w', hrun⟩ := hruns.2 hwritable
  obtain ⟨haccount, -, -, halone⟩ := hsaved report w' hrun
  refine ⟨report, w', hrun, ?_, ?_, ?_, ?_⟩
  · rw [haccount.written]
    simp only [mixedEntries, List.filterMap_cons, hfirst, hlast]
    rfl
  · rw [haccount.skipped]
    simp only [mixedEntries, List.zipIdx_cons, List.filter_cons, hfirst, hlast]
    rfl
  · have hsent : mixedEntries.filterMap (fun e => (e.deliver none).shown?) = ["1\n2\n"] := by
      simp only [mixedEntries, List.filterMap_cons, hfirst, hlast]
      rfl
    rw [haccount.output, hsent]
    rfl
  · obtain ⟨alone, w₁, -, -, hread⟩ := halone (mixedEntries.take 3) _ [] rfl
    obtain ⟨hown, hkeeps⟩ := hread _ _ hlast
    exact (hkeeps (List.forall_mem_nil _)).trans hown

end ResultEntry
end Pipewright
