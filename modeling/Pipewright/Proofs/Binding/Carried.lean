import Pipewright.Notebook.Capture
import Pipewright.Proofs.Json.ReadBack
import Pipewright.Proofs.Literal.RoundTrip
import Pipewright.Template.Script

/-! Settings that a script carries in a line of its own are read from it as they were. -/
namespace Pipewright

/-! Values as JSON -/

namespace Literal

/-- Values that JSON has a form for: without doubles and expressions, integers of 64 bits. -/
def IsData (v : Literal) : Prop := Plain (fun _ => True) (fun i => fitsInt64 i = true) v

theorem itemsToJson_eq (items : List Literal) : itemsToJson items = items.map toJson := by
  induction items with
  | nil => rfl
  | cons v items ih => rw [itemsToJson, ih, List.map_cons]

theorem entriesToJson_eq (entries : List (String × Literal)) :
    entriesToJson entries = entries.map fun e => (e.1, e.2.toJson) := by
  induction entries with
  | nil => rfl
  | cons e entries ih => rw [entriesToJson, ih, List.map_cons]

theorem itemsOfJson_itemsToJson {items : List Literal} (h : ∀ v ∈ items, ofJson v.toJson = v) :
    itemsOfJson (itemsToJson items) = items := by
  induction items with
  | nil => rfl
  | cons v items ih =>
    obtain ⟨hv, hitems⟩ := List.forall_mem_cons.1 h
    rw [itemsToJson, itemsOfJson, hv, ih hitems]

theorem entriesOfJson_entriesToJson {entries : List (String × Literal)}
    (h : ∀ e ∈ entries, ofJson e.2.toJson = e.2) :
    entriesOfJson (entriesToJson entries) = entries := by
  induction entries with
  | nil => rfl
  | cons e entries ih =>
    obtain ⟨he, hentries⟩ := List.forall_mem_cons.1 h
    rw [entriesToJson, entriesOfJson, he, ih hentries]

theorem IsData.ofJson_toJson {v : Literal} (h : IsData v) : ofJson v.toJson = v := by
  induction h with
  | none => rfl
  | bool b => rfl
  | int h => rw [toJson, ofJson, ofInt, if_pos h]
  | str _ => rfl
  | list _ ih => rw [toJson, ofJson, itemsOfJson_itemsToJson ih]
  | map ordered _ _ ih =>
    rw [toJson, ofJson, entriesOfJson_entriesToJson ih, ofEntries, Entries.sort_of_ordered ordered]

theorem IsData.exact_toJson {v : Literal} (h : IsData v) : v.toJson.Exact := by
  induction h with
  | none => exact .null
  | bool b => exact .bool b
  | @int i h =>
    have hlow : Nat.pow 2 63 = 9223372036854775808 := rfl
    have hhigh : Nat.pow 2 64 = 18446744073709551616 := rfl
    simp only [fitsInt64, hlow] at h
    split at h <;> simp only [decide_eq_true_eq] at h <;> exact .int (by omega) (by omega)
  | str _ => exact .str _
  | list _ ih =>
    rw [toJson, itemsToJson_eq]
    exact .arr (List.forall_mem_map.2 ih)
  | map _ _ _ ih =>
    rw [toJson, entriesToJson_eq]
    exact .obj (List.forall_mem_map.2 ih)

theorem toJson_eq_null {v : Literal} (h : v.toJson = .null) : v = .none := by
  cases v <;> simp_all [toJson]

end Literal

/-! Settings as JSON -/

theorem mapM_map_eq_some {α β : Type*} {f : β → Option α} {g : α → β} {as : List α}
    (h : ∀ a ∈ as, f (g a) = some a) : (as.map g).mapM f = some as := by
  induction as with
  | nil => rfl
  | cons a as ih =>
    obtain ⟨ha, has⟩ := List.forall_mem_cons.1 h
    simp [ha, ih has]

theorem ArgumentKind.ofName?_name (k : ArgumentKind) : ofName? k.name = some k := by
  cases k <;> decide

namespace Override

theorem nullable?_nullOr {α : Type*} {f : α → Json} {g : Json → Option α} {o : Option α}
    (h : ∀ a ∈ o, f a ≠ .null ∧ g (f a) = some a) : Json.nullable? g (nullOr f o) = some o := by
  cases o with
  | none => rfl
  | some a =>
    obtain ⟨hne, ha⟩ := h a rfl
    rw [nullOr, Json.nullable?.eq_def]
    split
    · exact absurd ‹_› hne
    · rw [ha, Option.map_some]

theorem nullable?_texts (o : Option String) :
    Json.nullable? Json.string? (nullOr .str o) = some o :=
  nullable?_nullOr fun _ _ => ⟨nofun, rfl⟩

/-- Settings with a default, if there is one, that JSON has a form for other than for its
absence. -/
structure IsData (o : Override) : Prop where
  output : o.output < Nat.pow 2 64
  default : ∀ v ∈ o.default, v ≠ .none ∧ v.IsData

theorem IsData.decode?_toJson {o : Override} (h : o.IsData) : decode? ⟨true⟩ o.toJson = some o := by
  have hfields : Json.fields? ⟨true⟩ fieldNames o.toJson =
      some [("output", .int o.output), ("flags", .arr (o.flags.map .str)),
        ("dest", nullOr .str o.dest), ("help", nullOr .str o.help),
        ("default", nullOr Literal.toJson o.default),
        ("kind", nullOr (fun k => .str k.name) o.kind), ("nargs", nullOr .str o.nargs)] := rfl
  have houtput : Json.natural? 64 (.int o.output) = some o.output := by
    simp [Json.natural?, h.output]
  have hflags : Json.list? Json.string? (.arr (o.flags.map .str)) = some o.flags :=
    mapM_map_eq_some fun _ _ => rfl
  have hdefault : Json.nullable? (fun v => some (Literal.ofJson v))
      (nullOr Literal.toJson o.default) = some o.default :=
    nullable?_nullOr fun v hv => ⟨fun hn => (h.default v hv).1 (Literal.toJson_eq_null hn),
      congrArg some (h.default v hv).2.ofJson_toJson⟩
  have hkind : Json.nullable? kind? (nullOr (fun k => .str k.name) o.kind) = some o.kind :=
    nullable?_nullOr fun k _ => ⟨nofun, k.ofName?_name⟩
  rw [decode?, hfields]
  simp [Json.optional?, Entries.get?, houtput, hflags, hdefault, hkind, nullable?_texts]

theorem exact_nullOr {α : Type*} {f : α → Json} {o : Option α} (h : ∀ a ∈ o, (f a).Exact) :
    (nullOr f o).Exact := by
  cases o with
  | none => exact .null
  | some a => exact h a rfl

theorem IsData.exact_toJson {o : Override} (h : o.IsData) : o.toJson.Exact := by
  have houtput : Json.Exact (.int o.output) :=
    .int (by omega) (Int.ofNat_lt.2 h.output)
  refine .obj ?_
  simp only [List.forall_mem_cons]
  refine ⟨houtput, .arr (List.forall_mem_map.2 fun _ _ => .str _),
    exact_nullOr fun _ _ => .str _, exact_nullOr fun _ _ => .str _,
    exact_nullOr fun v hv => (h.default v hv).2.exact_toJson, exact_nullOr fun _ _ => .str _,
    exact_nullOr fun _ _ => .str _, by simp⟩

/-- Around the default is the record itself, and the flags are a list as well. -/
theorem nesting_toJson_le (o : Override) {d : Nat} (hd : 0 < d) :
    o.toJson.nesting ≤ d + 1 ↔ ∀ v ∈ o.default, v.toJson.nesting ≤ d := by
  have hflags : (Json.arr (o.flags.map .str)).nesting ≤ d := by
    rw [Json.nesting]
    have : Json.itemNesting (o.flags.map .str) ≤ 0 :=
      Json.itemNesting_le.2 (List.forall_mem_map.2 fun _ _ => Nat.le_refl 0)
    omega
  have hscalar : ∀ p : Option String, (nullOr .str p).nesting ≤ d := fun p => by
    cases p <;> exact Nat.zero_le d
  have hkind : (nullOr (fun k => .str k.name) o.kind).nesting ≤ d := by
    cases o.kind <;> exact Nat.zero_le d
  have hdefault : (nullOr Literal.toJson o.default).nesting ≤ d ↔
      ∀ v ∈ o.default, v.toJson.nesting ≤ d := by
    cases o.default <;> simp [nullOr, Json.nesting]
  rw [toJson, Json.nesting, Nat.add_le_add_iff_right, Json.memberNesting_le]
  simp only [List.forall_mem_cons, hflags, hscalar, hkind, hdefault]
  simp [Json.nesting]

end Override

namespace Overrides

/-- Settings by name, in the order of the names, that JSON has a form for. -/
structure IsData (os : Overrides) : Prop where
  ordered : Entries.Ordered os
  each : ∀ e ∈ os, e.2.IsData

/-- Whether no default holds more than 125 collections within each other. -/
def Shallow (os : Overrides) : Prop := ∀ e ∈ os, ∀ v ∈ e.2.default, v.toJson.nesting ≤ 125

instance (os : Overrides) : Decidable os.Shallow :=
  inferInstanceAs (Decidable (∀ e ∈ os, ∀ v ∈ e.2.default, v.toJson.nesting ≤ 125))

variable {os : Overrides}

theorem IsData.decode?_toJson (h : os.IsData) : decode? ⟨true⟩ os.toJson = some os := by
  have hread : (os.map fun e => (e.1, e.2.toJson)).mapM
      (fun m : String × Json => (Override.decode? ⟨true⟩ m.2).map fun o => (m.1, o)) = some os :=
    mapM_map_eq_some fun e he => by rw [(h.each e he).decode?_toJson, Option.map_some]
  rw [decode?, toJson, Json.mapOf?, hread, Option.map_some, Entries.sort_of_ordered h.ordered]

theorem IsData.exact_toJson (h : os.IsData) : os.toJson.Exact :=
  .obj (List.forall_mem_map.2 fun e he => (h.each e he).exact_toJson)

theorem nesting_toJson_le : os.toJson.nesting ≤ 127 ↔ os.Shallow := by
  rw [toJson, Json.nesting, Nat.add_le_add_iff_right, Json.memberNesting_le, List.forall_mem_map]
  exact forall₂_congr fun e _ => e.2.nesting_toJson_le (by decide)

/-- The text of settings is read as the settings, unless a default is nested too deep. -/
theorem IsData.read?_text (h : os.IsData) :
    read? os.text = if os.Shallow then some os else none := by
  rw [read?, text, Json.readRaw?_compact h.exact_toJson]
  by_cases hs : os.Shallow
  · rw [if_pos (nesting_toJson_le.2 hs), if_pos hs, Option.bind_some, h.decode?_toJson]
  · rw [if_neg fun hn => hs (nesting_toJson_le.1 hn), if_neg hs, Option.bind_none]

theorem IsData.isText_text (h : os.IsData) : Literal.IsText os.text := by
  intro hz
  rw [text, Json.compact, String.toList_ofList] at hz
  exact absurd (h.exact_toJson.shown _ hz) (by decide)

end Overrides

/-! The line of a script -/

namespace Source

/-- The tokens of the line that gives the settings their text. -/
def constantTokens (value : String) : List Token :=
  [⟨[], .word, Overrides.constantName.toList⟩, ⟨[' '], .mark, ['=']⟩,
    ⟨[' '], .string, Text.quote value.toList⟩]

def newline : Token := ⟨[], .newline, ['\n']⟩

theorem lexFrom_newline (gap rest : List Char) :
    lexFrom gap ('\n' :: rest) = (⟨gap, .newline, ['\n']⟩ :: (lexFrom [] rest).1,
      (lexFrom [] rest).2) :=
  lexFrom_single (by decide) rfl (by decide) gap

theorem lex_constant {value : String} (h : Literal.IsText value) :
    lex (Script.constant Overrides.constantName value).toList =
      constantTokens value ++ [newline, newline] := by
  have hchars : (Script.constant Overrides.constantName value).toList =
      '_' :: "_arguments__".toList ++
        ' ' :: '=' :: ' ' :: (Text.quote value.toList ++ ['\n', '\n']) := by
    simp [Script.constant, Overrides.constantName, quoted]
  rw [lex, hchars, lexFrom_word (by decide) (by decide) (Text.forall_mem_of_all (by decide))
      (parted_cons (by decide) _),
    lexFrom_gap (by decide), List.nil_append, lexFrom_mark (by decide) rfl,
    lexFrom_gap (by decide), List.nil_append, lexFrom_quote h (parted_cons (by decide) _),
    lexFrom_newline, lexFrom_newline, lexFrom_nil]
  rfl

theorem linesOf_constant {value : String} (h : Literal.IsText value) :
    linesOf (Script.constant Overrides.constantName value).toList =
      [⟨[], constantTokens value, 0⟩] := by
  -- The string ends what can be a statement, so the newline behind it ends the line.
  have hends : Token.dangles ⟨[' '], .string, Text.quote value.toList⟩ = false := by
    simp [Token.dangles]
  rw [linesOf, lex_constant h]
  simp [constantTokens, newline, splitLines, Token.opens, Token.closes, Token.isMark,
    Token.isTrivia, hends, place]

theorem stringAssignment?_constant (value : String) :
    stringAssignment? (constantTokens value) = some (Overrides.constantName, value) := by
  have hplain : Literal.Plain (fun _ => True) Literal.IsWhole (.str value) := .str trivial
  have hread : Literal.ofTokens? [⟨[' '], .string, Text.quote value.toList⟩] = some (.str value) :=
    hplain.ofTokens?_tokens [' ']
  have hsplit : splitAtTop (·.isMark "=") 0 0 (constantTokens value) =
      ([⟨[], .word, Overrides.constantName.toList⟩],
        some (⟨[' '], .mark, ['=']⟩, [⟨[' '], .string, Text.quote value.toList⟩])) := rfl
  have hname : splitAtTop (·.isMark ":") 0 0 [⟨[], .word, Overrides.constantName.toList⟩] =
      ([⟨[], .word, Overrides.constantName.toList⟩], none) := rfl
  have htrim : trimTrivia [⟨[' '], .string, Text.quote value.toList⟩] =
      [⟨[' '], .string, Text.quote value.toList⟩] := rfl
  rw [stringAssignment?, hsplit]
  simp only [hname, htrim, hread]
  simp [Token.isTrivia, Literal.asStr?]

/-- The line with the settings is a statement of a module that gives their name the text. -/
theorem topStatements_constant {value : String} :
    topStatements [⟨[], constantTokens value, 0⟩] = [constantTokens value] := by
  have hsimple : isCompound ⟨[], constantTokens value, 0⟩ = false := rfl
  have hwhole : splitAtTop (·.isMark ";") 0 0 (constantTokens value) =
      (constantTokens value, none) := rfl
  have hsplit : splitAllTop (·.isMark ";") (constantTokens value).length (constantTokens value) =
      [constantTokens value] := by
    change splitAllTop _ (2 + 1) _ = _
    rw [splitAllTop, hwhole]
  have htrim : trimTrivia (constantTokens value) = constantTokens value := rfl
  simp [topStatements, hsimple, hsplit, htrim]

end Source

theorem ScriptModule.constant?_constant {value : String} (h : Literal.IsText value) (path : String) :
    (ofSource path (Script.constant Overrides.constantName value)).constant?
      Overrides.constantName = some value := by
  simp [constant?, ofSource, Source.linesOf_constant h, Source.topStatements_constant,
    Source.stringAssignment?_constant, Entries.get?]

namespace Overrides

variable {os : Overrides}

/-- The line of a script with the settings gives them back as they were, unless a default is
nested too deep. A run of a script that carries them is bound by them. -/
theorem read_carried (h : os.IsData) (path : String) :
    ((ScriptModule.ofSource path (Script.constant constantName os.text)).constant?
        constantName).bind read? = (if os.Shallow then some os else none) ∧
      ∀ m : ScriptModule, m.constant? constantName = some os.text → ∀ f words,
        CaptureRequest.bindWords m f words =
          if os.Shallow then CaptureRequest.bindWith m f os words
          else Job.fail .unreadableSettings := by
  refine ⟨?_, fun m hm f words => ?_⟩
  · rw [ScriptModule.constant?_constant h.isText_text, Option.bind_some, h.read?_text]
  · rw [CaptureRequest.bindWords, hm]
    simp only [h.read?_text]
    by_cases hs : os.Shallow <;> simp [hs]

/-- Settings of every kind, with characters that are escaped once or twice. -/
def assorted : Overrides :=
  [("it's", { Override.none with
      output := 2, flags := ["-o", "--\"out\""], help := some "a\\b\nc\x00", nargs := some "+" }),
    ("limits", { Override.none with
      default := some (.list [.int (-9223372036854775808), .none, .map [("\t", .bool true)]])
      kind := some .intList, dest := some "é" })]

theorem isData_assorted : assorted.IsData := by
  refine ⟨by decide, ?_⟩
  simp only [assorted, List.forall_mem_cons]
  refine ⟨⟨by decide, by simp [Override.none]⟩, ⟨by decide, ?_⟩, by simp⟩
  intro v hv
  obtain rfl := Option.some.inj hv
  refine ⟨nofun, .list ?_⟩
  simp only [List.forall_mem_cons]
  refine ⟨.int (by decide), .none, .map (by decide) (by simp) ?_, by simp⟩
  simpa using .bool true

theorem read_carried_assorted :
    assorted.IsData ∧
      ((ScriptModule.ofSource "run.py" (Script.constant constantName assorted.text)).constant?
        constantName).bind read? = some assorted := by
  have hs : assorted.Shallow := by decide
  exact ⟨isData_assorted, (read_carried isData_assorted "run.py").1.trans (if_pos hs)⟩

/-- A number within as many lists as a count says. -/
def wrapped : Nat → Literal
  | 0 => .int 0
  | n + 1 => .list [wrapped n]

theorem isData_wrapped (n : Nat) : (wrapped n).IsData := by
  induction n with
  | zero => exact .int (by decide)
  | succ n ih => exact .list (List.forall_mem_singleton.2 ih)

theorem nesting_wrapped (n : Nat) : (wrapped n).toJson.nesting = n := by
  induction n with
  | zero => rfl
  | succ n ih => simp [wrapped, Literal.toJson, Literal.itemsToJson, Json.nesting,
      Json.itemNesting, ih]

/-- Settings whose default stands within 126 lists. -/
def deep : Overrides := [("x", { Override.none with default := some (wrapped 126) })]

theorem deep_unread :
    deep.IsData ∧
      ((ScriptModule.ofSource "run.py" (Script.constant constantName deep.text)).constant?
        constantName).bind read? = none := by
  have hdata : deep.IsData := by
    refine ⟨by decide, ?_⟩
    simp only [deep, List.forall_mem_cons]
    refine ⟨⟨by decide, ?_⟩, by simp⟩
    intro v hv
    obtain rfl := Option.some.inj hv
    exact ⟨nofun, isData_wrapped 126⟩
  have hdeep : ¬deep.Shallow := by
    simp [Shallow, deep, nesting_wrapped]
  refine ⟨hdata, ?_⟩
  rw [ScriptModule.constant?_constant hdata.isText_text, Option.bind_some, hdata.read?_text,
    if_neg hdeep]

end Overrides
end Pipewright
