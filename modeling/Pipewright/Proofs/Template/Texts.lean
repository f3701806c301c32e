import Mathlib.Data.List.Nodup
import Pipewright.Proofs.Text.Numerals
import Pipewright.Proofs.Text.Quoting
import Pipewright.Proofs.Text.Splitting
import Pipewright.Template.Config

/-! The settings of a configuration that are texts, each between quotes. -/
namespace Pipewright

/-! Texts between quotes -/

namespace Text
variable {cs : List Char}

/-- What stands up to the quote that ends a literal, and what follows that quote. A backslash takes
the character behind it, and a newline stands in no literal. -/
def literalEnd? : List Char → Option (List Char × List Char)
  | [] => none
  | '\'' :: r => some ([], r)
  | '\\' :: c :: r => (literalEnd? r).map fun (inside, behind) => ('\\' :: c :: inside, behind)
  | c :: r =>
    if c ∈ ['\n', '\r'] then none
    else (literalEnd? r).map fun (inside, behind) => (c :: inside, behind)

/-- Whether a literal writes each character of a text as it is. -/
def IsPlain (cs : List Char) : Prop := ∀ c ∈ cs, c ∉ ['\\', '\'', '\n', '\t', '\r']

theorem length_escapeQuoted_pos (c : Char) : 1 ≤ (escapeQuoted c).length := by
  obtain ⟨he, -⟩ | ⟨m, -, he⟩ := escapeQuoted_cases c <;> simp [he]

theorem length_le_escapeAll (cs : List Char) : cs.length ≤ (escapeAll cs).length := by
  induction cs with
  | nil => exact Nat.le_refl 0
  | cons c cs ih =>
    have hc := length_escapeQuoted_pos c
    rw [escapeAll, List.length_append, List.length_cons]
    omega

theorem escapeQuoted_eq_iff {c : Char} :
    escapeQuoted c = [c] ↔ c ∉ ['\\', '\'', '\n', '\t', '\r'] := by
  unfold escapeQuoted
  split_ifs <;> simp_all

/-- A literal is longer than its text and the quotes, unless it escapes nothing. -/
theorem escapeAll_eq_self_iff : escapeAll cs = cs ↔ IsPlain cs := by
  induction cs with
  | nil => exact iff_of_true rfl (List.forall_mem_nil _)
  | cons c cs ih =>
    rw [IsPlain, List.forall_mem_cons, ← escapeQuoted_eq_iff, escapeAll, ← List.singleton_append]
    constructor
    · intro h
      have hc := length_escapeQuoted_pos c
      have hcs := length_le_escapeAll cs
      have hlength := congrArg List.length h
      rw [List.length_append, List.length_append, List.length_singleton] at hlength
      obtain ⟨hhead, htail⟩ := List.append_inj h (by rw [List.length_singleton]; omega)
      exact ⟨hhead, ih.1 htail⟩
    · rintro ⟨hhead, htail⟩
      rw [hhead, ih.2 htail]

/-- What is written for a text is all that stands up to the quote. -/
theorem literalEnd?_written {w : List Char} (h : Written '\'' w cs) (rest : List Char) :
    literalEnd? (w ++ '\'' :: rest) = some (w, rest) := by
  induction h with
  | nil => rw [List.nil_append, literalEnd?]
  | @char c w cs hc _ ih =>
    rw [List.mem_cons, not_or, List.mem_cons, not_or] at hc
    obtain ⟨hmark, hbackslash, hend⟩ := hc
    rw [List.cons_append, literalEnd?, if_neg hend, ih]
    · rfl
    · exact hmark
    · exact fun d r hb => absurd hb hbackslash
  | escape _ _ ih =>
    rw [List.cons_append, List.cons_append, literalEnd?, ih]
    rfl

theorem literalEnd?_plain (h : IsPlain cs) (rest : List Char) :
    literalEnd? (cs ++ '\'' :: rest) = some (cs, rest) := by
  have hwritten := written_escapeAll cs
  rw [escapeAll_eq_self_iff.2 h] at hwritten
  exact literalEnd?_written hwritten rest

end Text

/-- The settings that are written between quotes. -/
inductive TextSetting where
  | pollInterval | localExecutor | executor | penv | errorStrategy | clusterOptions
  deriving DecidableEq

namespace TextSetting

/-- In the order in which they are written. -/
def all : List TextSetting :=
  [.pollInterval, .localExecutor, .executor, .penv, .errorStrategy, .clusterOptions]

/-- The text of a setting. The interval may be left out. -/
def value? (s : Settings) : TextSetting → Option String
  | .pollInterval => s.scheduler.pollInterval
  | .localExecutor => some s.localExecutor
  | .executor => some s.cluster.executor
  | .penv => some s.cluster.penv
  | .errorStrategy => some s.cluster.errorStrategy
  | .clusterOptions => some s.cluster.clusterOptions

def put (text : String) (s : Settings) : TextSetting → Settings
  | .pollInterval => { s with scheduler := { s.scheduler with pollInterval := some text } }
  | .localExecutor => { s with localExecutor := text }
  | .executor => { s with cluster := { s.cluster with executor := text } }
  | .penv => { s with cluster := { s.cluster with penv := text } }
  | .errorStrategy => { s with cluster := { s.cluster with errorStrategy := text } }
  | .clusterOptions => { s with cluster := { s.cluster with clusterOptions := text } }

/-- The size of the queue, with what opens the block of the scheduler. -/
def schedulerStart (s : Scheduler) : String :=
  "\nexecutor \x7b\n" ++
    (s.queueSize.map fun n => "    queueSize = " ++ toString n ++ "\n").getD ""

/-- What stands between the texts of the scheduler and the profiles. -/
def schedulerEnd (s : Scheduler) : String :=
  if s.pollInterval.isSome then "\n" ++ "\x7d\n" else WorkflowConfig.schedulerText s

/-- What is written in front of the text of a setting, from the text before it on. -/
def lead (s : Settings) : TextSetting → String
  | .pollInterval => schedulerStart s.scheduler ++ "    pollInterval = "
  | .localExecutor => schedulerEnd s.scheduler ++ "\nprofiles \x7b\n" ++ "    standard \x7b\n" ++
      "        process.executor = "
  | .executor => "\n" ++ "    \x7d\n" ++ "    cluster \x7b\n" ++ "        process.executor = "
  | .penv => "\n" ++ "        process.cpus = " ++ toString s.cluster.cpus ++ "\n" ++
      "        process.penv = "
  | .errorStrategy => "\n" ++ "        process.errorStrategy = "
  | .clusterOptions => "\n" ++ "        process.clusterOptions = \x7b "

variable {s : Settings} {t u : TextSetting} {text : String}

theorem mem_all (t : TextSetting) : t ∈ all := by cases t <;> decide

theorem nodup_all : all.Nodup := by decide

theorem value?_put (text : String) (s : Settings) (t : TextSetting) :
    t.value? (t.put text s) = some text := by
  cases t <;> rfl

theorem value?_put_of_ne (h : u ≠ t) : u.value? (t.put text s) = u.value? s := by
  cases t <;> cases u <;> simp_all [value?, put]

theorem put_self (h : t.value? s = some text) : t.put text s = s := by
  obtain ⟨⟨queueSize, pollInterval⟩, localExecutor, cluster, containers, labels, tool, program⟩ := s
  cases t with
  | pollInterval =>
    obtain rfl : pollInterval = some text := h
    rfl
  | _ =>
    cases h
    rfl

/-- Another text changes nothing in front of any. -/
theorem lead_put (h : (t.value? s).isSome) : u.lead (t.put text s) = u.lead s := by
  cases t with
  | pollInterval =>
    cases u with
    | localExecutor =>
      have hend : schedulerEnd { s.scheduler with pollInterval := some text } =
          schedulerEnd s.scheduler := (if_pos rfl).trans (if_pos h).symm
      exact congrArg (· ++ "\nprofiles \x7b\n" ++ "    standard \x7b\n" ++
        "        process.executor = ") hend
    | _ => rfl
  | _ => cases u <;> rfl

theorem quote_not_mem_append {a b : String} (ha : '\'' ∉ a.toList) (hb : '\'' ∉ b.toList) :
    '\'' ∉ (a ++ b).toList := by
  rw [String.toList_append]
  exact List.not_mem_append ha hb

theorem quote_not_mem_number (n : Nat) : '\'' ∉ (toString n).toList := by
  have hdigits : (toString n).toList = Nat.toDigits 10 n := toString_ofNat n
  rw [hdigits]
  exact fun h => absurd (Text.isDigit_of_mem_toDigits h) (by decide)

theorem quote_not_mem_schedulerStart (s : Scheduler) : '\'' ∉ (schedulerStart s).toList := by
  rw [schedulerStart]
  refine quote_not_mem_append (by decide) ?_
  cases s.queueSize with
  | none => exact List.not_mem_nil
  | some n =>
    exact quote_not_mem_append (quote_not_mem_append (by decide) (quote_not_mem_number n))
      (by decide)

theorem quote_not_mem_schedulerEnd (s : Scheduler) : '\'' ∉ (schedulerEnd s).toList := by
  rw [schedulerEnd]
  split
  · decide
  · rename_i h
    rw [WorkflowConfig.schedulerText]
    split
    · exact List.not_mem_nil
    · rw [Option.not_isSome_iff_eq_none.1 h]
      exact quote_not_mem_append (quote_not_mem_append (quote_not_mem_schedulerStart s)
        List.not_mem_nil) (by decide)

/-- No quote stands in front of a text from the text before it on. -/
theorem quote_not_mem_lead (s : Settings) (t : TextSetting) : '\'' ∉ (t.lead s).toList := by
  cases t with
  | pollInterval => exact quote_not_mem_append (quote_not_mem_schedulerStart _) (by decide)
  | localExecutor =>
    refine quote_not_mem_append (quote_not_mem_append (quote_not_mem_append ?_ ?_) ?_) ?_
    · exact quote_not_mem_schedulerEnd s.scheduler
    all_goals decide
  | penv =>
    refine quote_not_mem_append (quote_not_mem_append (quote_not_mem_append ?_ ?_) ?_) ?_
    · decide
    · exact quote_not_mem_number s.cluster.cpus
    all_goals decide
  | executor | errorStrategy | clusterOptions =>
    rw [lead]
    decide

end TextSetting

namespace WorkflowConfig
open Text

def withText (c : WorkflowConfig) (t : TextSetting) (text : String) : WorkflowConfig :=
  { c with settings := t.put text c.settings }

/-! A configuration as its texts and what stands in front of each -/

/-- A text between quotes, and what stands in front of it, if the setting is there. -/
def textPart? (s : Settings) (t : TextSetting) : Option (String × String) :=
  (t.value? s).map fun text => (t.lead s, text)

/-- The parts of some settings. -/
def partsOf (s : Settings) (ts : List TextSetting) : List (String × String) :=
  ts.filterMap (textPart? s)

def textParts (s : Settings) : List (String × String) := partsOf s TextSetting.all

theorem partsOf_cons (s : Settings) (t : TextSetting) (ts : List TextSetting) :
    partsOf s (t :: ts) = (textPart? s t).toList ++ partsOf s ts := by
  rw [partsOf, List.filterMap_cons]
  cases textPart? s t <;> rfl

theorem partsOf_cons_none {s : Settings} {t : TextSetting} (h : t.value? s = none)
    (ts : List TextSetting) : partsOf s (t :: ts) = partsOf s ts :=
  List.filterMap_cons_none (congrArg (Option.map _) h)

theorem partsOf_cons_some {s : Settings} {t : TextSetting} {text : String}
    (h : t.value? s = some text) (ts : List TextSetting) :
    partsOf s (t :: ts) = (t.lead s, text) :: partsOf s ts :=
  List.filterMap_cons_some (congrArg (Option.map _) h)

def partsText (parts : List (String × String)) : String :=
  joined "" (parts.map fun p => p.1 ++ inQuotes p.2)

def paramsText (c : WorkflowConfig) : String := joined "" (c.params.map paramLine) ++ "\n"

/-- What stands behind the last text. -/
def restText (c : WorkflowConfig) : String :=
  " \x7d\n" ++ "    \x7d\n" ++ "\x7d\n" ++ processText c ++ runtimeText c.settings.containers

theorem partsText_cons (p : String × String) (ps : List (String × String)) :
    partsText (p :: ps) = p.1 ++ (inQuotes p.2 ++ partsText ps) := by
  rw [partsText, List.map_cons, joined_empty_cons, String.append_assoc]
  rfl

theorem partsText_singleton (p : String × String) : partsText [p] = p.1 ++ inQuotes p.2 := by
  rw [partsText_cons]
  exact congrArg (p.1 ++ ·) String.append_empty

theorem partsText_append (ps qs : List (String × String)) :
    partsText (ps ++ qs) = partsText ps ++ partsText qs := by
  induction ps with
  | nil => exact (String.empty_append).symm
  | cons p ps ih =>
    rw [List.cons_append, partsText_cons, partsText_cons, ih]
    simp only [String.append_assoc]

theorem schedulerText_eq (s : Settings) : schedulerText s.scheduler =
    partsText (textPart? s .pollInterval).toList ++ TextSetting.schedulerEnd s.scheduler := by
  rw [TextSetting.schedulerEnd, textPart?, TextSetting.value?]
  cases h : s.scheduler.pollInterval with
  | none => exact String.empty_append.symm
  | some text =>
    have hnot : ¬s.scheduler.isEmpty = true := by simp [Scheduler.isEmpty, h]
    rw [schedulerText, if_neg hnot, h, if_pos Option.isSome_some, Option.map_some, Option.map_some,
      Option.toList_some, partsText_singleton, TextSetting.lead, TextSetting.schedulerStart,
      Option.getD_some]
    simp only [String.append_assoc]

/-- The profiles, from what closes the scheduler up to the last text. -/
theorem profilesText_eq (s : Settings) : TextSetting.schedulerEnd s.scheduler ++ profilesText s =
    partsText (partsOf s TextSetting.all.tail) ++
      (" \x7d\n" ++ "    \x7d\n" ++ "\x7d\n") := by
  have hparts : partsOf s TextSetting.all.tail =
      [(TextSetting.lead s .localExecutor, s.localExecutor),
        (TextSetting.lead s .executor, s.cluster.executor),
        (TextSetting.lead s .penv, s.cluster.penv),
        (TextSetting.lead s .errorStrategy, s.cluster.errorStrategy),
        (TextSetting.lead s .clusterOptions, s.cluster.clusterOptions)] := rfl
  rw [hparts, partsText_cons, partsText_cons, partsText_cons, partsText_cons, partsText_singleton]
  -- unfolded without its equation lemma, which is slow to make
  delta profilesText
  simp only [TextSetting.lead, String.append_assoc]

theorem render_eq (c : WorkflowConfig) :
    c.render = c.paramsText ++ partsText (textParts c.settings) ++ c.restText := by
  have hparts : textParts c.settings = (textPart? c.settings .pollInterval).toList ++
      partsOf c.settings TextSetting.all.tail := partsOf_cons c.settings _ _
  have hprofiles := congrArg (· ++ (processText c ++ runtimeText c.settings.containers))
    (profilesText_eq c.settings)
  simp only [String.append_assoc] at hprofiles
  rw [render, schedulerText_eq, hparts, partsText_append, paramsText, restText]
  simp only [String.append_assoc]
  rw [hprofiles]

/-- Another text stands at the same place. -/
theorem textParts_put {s : Settings} {t : TextSetting} (h : (t.value? s).isSome) :
    ∃ ps qs, ∀ text, textParts (t.put text s) = ps ++ (t.lead s, text) :: qs := by
  obtain ⟨before, behind, hall⟩ := List.append_of_mem t.mem_all
  have hnodup := TextSetting.nodup_all
  rw [hall, List.nodup_middle, List.nodup_cons, List.mem_append, not_or] at hnodup
  obtain ⟨⟨hbefore, hbehind⟩, -⟩ := hnodup
  have hother : ∀ text ts, t ∉ ts → partsOf (t.put text s) ts = partsOf s ts := by
    refine fun text ts hts => List.filterMap_congr fun u hu => ?_
    have hne : u ≠ t := fun he => hts (he ▸ hu)
    rw [textPart?, textPart?, TextSetting.value?_put_of_ne hne, TextSetting.lead_put h]
  refine ⟨partsOf s before, partsOf s behind, fun text => ?_⟩
  rw [textParts, hall, partsOf, List.filterMap_append, ← partsOf, ← partsOf,
    partsOf_cons_some (TextSetting.value?_put text s t), hother text _ hbefore,
    hother text _ hbehind, TextSetting.lead_put h]

theorem render_withText {c : WorkflowConfig} {t : TextSetting} (h : (t.value? c.settings).isSome) :
    ∃ front rest : String, ∀ text, (c.withText t text).render = front ++ inQuotes text ++ rest := by
  obtain ⟨ps, qs, hparts⟩ := textParts_put h
  refine ⟨c.paramsText ++ (partsText ps ++ t.lead c.settings), partsText qs ++ c.restText,
    fun text => ?_⟩
  have hrest : (c.withText t text).restText = c.restText := by cases t <;> rfl
  have hparams : (c.withText t text).paramsText = c.paramsText := rfl
  have hsettings : (c.withText t text).settings = t.put text c.settings := rfl
  rw [render_eq, hsettings, hparts, partsText_append, partsText_cons, hrest, hparams]
  simp only [String.append_assoc]

/-- Whether no text of a configuration has a quote of its own. -/
def Unquoted (s : Settings) : Prop :=
  ∀ (t : TextSetting) (text : String), t.value? s = some text → '\'' ∉ text.toList

theorem toList_partsText_cons (lead text : String) (ps : List (String × String))
    (r : List Char) : (partsText ((lead, text) :: ps)).toList ++ r =
      lead.toList ++ '\'' :: (text.toList ++ '\'' :: ((partsText ps).toList ++ r)) := by
  rw [partsText_cons, inQuotes]
  simp

/-- Without other quotes, a text ends at the quote behind it. -/
theorem eq_of_partsText_cons {lead lead' text text' : String} {ps qs : List (String × String)}
    {r r' : List Char} (hp : '\'' ∉ lead.toList ∧ '\'' ∉ text.toList)
    (hq : '\'' ∉ lead'.toList ∧ '\'' ∉ text'.toList)
    (h : (partsText ((lead, text) :: ps)).toList ++ r =
      (partsText ((lead', text') :: qs)).toList ++ r') :
    lead = lead' ∧ text = text' ∧ (partsText ps).toList ++ r = (partsText qs).toList ++ r' := by
  rw [toList_partsText_cons, toList_partsText_cons] at h
  obtain ⟨hlead, hbehind⟩ := eq_of_append_cons hp.1 hq.1 h
  obtain ⟨htext, hrest⟩ := eq_of_append_cons hp.2 hq.2 hbehind
  exact ⟨String.toList_injective hlead, String.toList_injective htext, hrest⟩

variable {s s' : Settings} {r r' : List Char}

theorem quote_not_mem_part (h : Unquoted s) {t : TextSetting} {text : String}
    (ht : t.value? s = some text) : '\'' ∉ (t.lead s).toList ∧ '\'' ∉ text.toList :=
  ⟨TextSetting.quote_not_mem_lead s t, h t text ht⟩

/-- Settings of which the same are there have the same texts if these are written alike, whatever
follows. -/
theorem value?_eq_of_parts (hs : Unquoted s) (hs' : Unquoted s') {ts : List TextSetting}
    (hsome : ∀ t ∈ ts, (t.value? s).isSome = (t.value? s').isSome)
    (h : (partsText (partsOf s ts)).toList ++ r =
      (partsText (partsOf s' ts)).toList ++ r') :
    ∀ t ∈ ts, t.value? s = t.value? s' := by
  induction ts with
  | nil => exact List.forall_mem_nil _
  | cons t ts ih =>
    obtain ⟨hhead, htail⟩ := List.forall_mem_cons.1 hsome
    refine List.forall_mem_cons.2 ?_
    cases hvalue : t.value? s with
    | none =>
      have hvalue' : t.value? s' = none := by simpa [hvalue] using hhead
      rw [partsOf_cons_none hvalue, partsOf_cons_none hvalue'] at h
      exact ⟨hvalue'.symm, ih htail h⟩
    | some text =>
      obtain ⟨text', hvalue'⟩ : ∃ text', t.value? s' = some text' :=
        Option.isSome_iff_exists.1 (by rw [← hhead, hvalue]; rfl)
      rw [partsOf_cons_some hvalue, partsOf_cons_some hvalue'] at h
      obtain ⟨-, htext, hrest⟩ := eq_of_partsText_cons (quote_not_mem_part hs hvalue)
        (quote_not_mem_part hs' hvalue') h
      exact ⟨by rw [hvalue', htext], ih htail hrest⟩

/-- The word in front of the first text tells whether that is the interval. -/
theorem lead_pollInterval_ne (s s' : Settings) :
    TextSetting.lead s .pollInterval ≠ TextSetting.lead s' .localExecutor := by
  intro h
  have hends := congrArg (fun lead : String => lead.toList.reverse.take 4) h
  simp [TextSetting.lead] at hends

theorem isSome_pollInterval (hs : Unquoted s) (hs' : Unquoted s')
    (h : (partsText (textParts s)).toList ++ r = (partsText (textParts s')).toList ++ r')
    (hsome : s.scheduler.pollInterval.isSome) : s'.scheduler.pollInterval.isSome := by
  obtain ⟨text, htext⟩ := Option.isSome_iff_exists.1 hsome
  by_contra hnone
  -- one file then starts with the interval, the other with the executor
  have hvalue : TextSetting.pollInterval.value? s = some text := htext
  have hvalue' : TextSetting.pollInterval.value? s' = none := Option.not_isSome_iff_eq_none.1 hnone
  have hlocal : TextSetting.localExecutor.value? s' = some s'.localExecutor := rfl
  rw [textParts, textParts, TextSetting.all, partsOf_cons_some hvalue, partsOf_cons_none hvalue',
    partsOf_cons_some hlocal] at h
  obtain ⟨hlead, -⟩ := eq_of_partsText_cons (quote_not_mem_part hs hvalue)
    (quote_not_mem_part hs' hlocal) h
  exact lead_pollInterval_ne s s' hlead

/-- Texts without quotes can be told from the file. -/
theorem value?_eq_of_render {c d : WorkflowConfig} (hc : Unquoted c.settings)
    (hd : Unquoted d.settings) (hparams : c.params = d.params) (h : c.render = d.render)
    (t : TextSetting) : t.value? c.settings = t.value? d.settings := by
  have hlists := congrArg String.toList h
  -- the parameters are the same, and what stands behind the last text may differ
  have hhead : c.paramsText = d.paramsText := by rw [paramsText, paramsText, hparams]
  rw [render_eq, render_eq, hhead] at hlists
  simp only [String.toList_append, List.append_assoc] at hlists
  replace hlists := List.append_cancel_left hlists
  have hsome := Bool.eq_iff_iff.2
    ⟨isSome_pollInterval hc hd hlists, isSome_pollInterval hd hc hlists.symm⟩
  refine value?_eq_of_parts hc hd (fun u _ => ?_) hlists t t.mem_all
  cases u with
  | pollInterval => exact hsome
  | _ => rfl

theorem inQuotes_eq_config_iff (text : String) :
    inQuotes text = (Literal.str text).config ↔ IsPlain text.toList := by
  have hquotes : (inQuotes text).toList = '\'' :: (text.toList ++ ['\'']) := by
    rw [inQuotes]
    simp
  have hconfig : (Literal.str text).config.toList = '\'' :: (escapeAll text.toList ++ ['\'']) :=
    String.toList_ofList
  rw [← String.toList_inj, hquotes, hconfig, List.cons_inj_right, List.append_cancel_right_eq,
    eq_comm, escapeAll_eq_self_iff]

/-- A text setting is written between quotes as it is, which is its literal just if there is nothing
to escape. Such a text ends at the quote behind it, while one with a quote of its own ends there.
Another text for one setting gives another file, and so do other texts for several, unless there
are quotes in them. -/
theorem texts_as_literals_iff {c : WorkflowConfig} {t : TextSetting} {text : String}
    (h : t.value? c.settings = some text) :
    ∃ front rest : String, c.render = front ++ inQuotes text ++ rest ∧
      (∀ other, (c.withText t other).render = front ++ inQuotes other ++ rest) ∧
      (inQuotes text = (Literal.str text).config ↔ IsPlain text.toList) ∧
      (IsPlain text.toList →
        literalEnd? (text.toList ++ '\'' :: rest.toList) = some (text.toList, rest.toList)) ∧
      (∀ a b, text.toList = a ++ '\'' :: b → IsPlain a →
        literalEnd? (text.toList ++ '\'' :: rest.toList) = some (a, b ++ '\'' :: rest.toList)) ∧
      (∀ other, (c.withText t other).render = c.render ↔ other = text) ∧
      ∀ d : WorkflowConfig, d.params = c.params → Unquoted d.settings → Unquoted c.settings →
        d.render = c.render → ∀ u : TextSetting, u.value? d.settings = u.value? c.settings := by
  obtain ⟨front, rest, hrender⟩ := render_withText (Option.isSome_of_eq_some h)
  have hself : c.withText t text = c := by
    rw [withText, TextSetting.put_self h]
  have hc : c.render = front ++ inQuotes text ++ rest := by rw [← hrender text, hself]
  refine ⟨front, rest, hc, hrender, inQuotes_eq_config_iff text,
    fun hplain => literalEnd?_plain hplain _, fun a b hquote ha => ?_, fun other => ?_,
    fun d hparams hd hu heq => value?_eq_of_render hd hu hparams heq⟩
  · rw [hquote, List.append_assoc]
    exact literalEnd?_plain ha _
  · refine ⟨fun heq => ?_, fun he => by rw [he, hself]⟩
    rw [hrender, hc] at heq
    have hquotes := (String.append_right_inj front).1 ((String.append_left_inj rest).1 heq)
    exact (String.append_right_inj "'").1 ((String.append_left_inj "'").1 hquotes)

/-- A configuration without parameters. -/
def bare (s : Settings) : WorkflowConfig := ⟨[], [], s⟩

theorem texts_as_literals_standard :
    TextSetting.clusterOptions.value? Settings.standard = some "-V -S /bin/bash -q all.q@apollo-*" ∧
    inQuotes "-V -S /bin/bash -q all.q@apollo-*" =
      (Literal.str "-V -S /bin/bash -q all.q@apollo-*").config ∧
    ((bare .standard).withText .clusterOptions "-V").render ≠ (bare .standard).render := by
  have h : TextSetting.clusterOptions.value? (bare .standard).settings =
      some "-V -S /bin/bash -q all.q@apollo-*" := rfl
  obtain ⟨front, rest, -, -, hliteral, -, -, hother, -⟩ := texts_as_literals_iff h
  refine ⟨h, hliteral.2 ?_, fun heq => absurd ((hother "-V").1 heq) (by decide)⟩
  rw [← escapeAll_eq_self_iff]
  decide

/-- A configuration with other texts for the executor and the environment of its cluster. -/
def withCluster (c : WorkflowConfig) (executor penv : String) : WorkflowConfig :=
  (c.withText .executor executor).withText .penv penv

theorem executor_withCluster (c : WorkflowConfig) (executor penv : String) :
    (c.withCluster executor penv).settings.cluster.executor = executor := rfl

/-- What is written from the end of the executor to the start of the environment. -/
def clusterGap (c : WorkflowConfig) : String :=
  "'" ++ "\n" ++ "        process.cpus = " ++ toString c.settings.cluster.cpus ++ "\n" ++
    "        process.penv = " ++ "'"

/-- The same file is written whether the executor or the environment holds a copy of what stands
between them. -/
theorem render_gap (c : WorkflowConfig) (first second third : String) :
    (c.withCluster first (second ++ c.clusterGap ++ third)).render =
      (c.withCluster (first ++ c.clusterGap ++ second) third).render := by
  have hprofiles : profilesText (c.withCluster first (second ++ c.clusterGap ++ third)).settings =
      profilesText (c.withCluster (first ++ c.clusterGap ++ second) third).settings := by
    delta profilesText
    -- both sides are the same sequence of pieces, grouped otherwise
    simp only [withCluster, withText, TextSetting.put, clusterGap, inQuotes, String.append_assoc]
  rw [render, hprofiles]
  rfl

/-- Options with quotes of their own end at the first of these. -/
theorem quoted_options_end :
    literalEnd? "-l 'h=node1'' \x7d".toList = some ("-l ".toList, "h=node1'' \x7d".toList) ∧
    inQuotes "-l 'h=node1'" ≠ (Literal.str "-l 'h=node1'").config ∧
    ∃ c d : WorkflowConfig, c.render = d.render ∧ c.params = d.params ∧
      c.settings.cluster.executor ≠ d.settings.cluster.executor := by
  have hrender := (bare .standard).render_gap "sge" "smp" "orte"
  refine ⟨by decide, by decide, _, _, hrender, rfl, ?_⟩
  rw [executor_withCluster, executor_withCluster]
  intro h
  have hlength := congrArg String.length h
  rw [String.length_append, String.length_append] at hlength
  have hsmp : "smp".length = 3 := by decide
  omega

end WorkflowConfig
end Pipewright
