import Pipewright.Proofs.Storage.Places
import Pipewright.Proofs.Success

/-! What is written to a file is what is read from it. -/
namespace Pipewright.FileTree
variable {t t' : FileTree} {p q here : Place} {v : FileEntry}

theorem entryAt_put_self (hp : p ≠ []) : FileTree.entry? (t.put p v) p = some v := by
  have h : ∀ es : List (Place × FileEntry),
      (putEntry p v es).find? (fun e => e.1 = p) = some (p, v) := by
    intro es
    induction es with
    | nil => simp [putEntry]
    | cons e es ih =>
      by_cases he : e.1 = p
      · simp [putEntry, he]
      · simp [putEntry, he, ih]
  simp [ entry?, hp, put, h]

theorem entryAt_put_of_ne (hq : q ≠ p) : FileTree.entry? (t.put p v) q = t.entry? q := by
  have h : ∀ es : List (Place × FileEntry),
      (putEntry p v es).find? (fun e => e.1 = q) = es.find? fun e => e.1 = q := by
    intro es
    induction es with
    | nil => simp [putEntry, Ne.symm hq]
    | cons e es ih =>
      by_cases he : e.1 = p
      · have hne : e.1 ≠ q := fun h => hq (h ▸ he)
        have hpq : p ≠ q := Ne.symm hq
        simp [putEntry, he, hpq]
      · by_cases heq : e.1 = q
        · subst heq
          simp [putEntry, he]
        · simp [putEntry, he, heq, ih]
  simp [ entry?, put, h]

theorem entryAt_root (t : FileTree) : t.entry? [] = some .directory := rfl

/-- The second tree has what the first one has, but for files at places that are no directories. -/
def Filled (t t' : FileTree) : Prop :=
  ∀ p, t'.entry? p = t.entry? p ∨
    (t.entry? p ≠ some .directory ∧
      ∃ content executable, t'.entry? p = some (.file content executable))

theorem Filled.refl (t : FileTree) : Filled t t := fun _ => .inl rfl

theorem Filled.trans {t'' : FileTree} (h : Filled t t') (h' : Filled t' t'') : Filled t t'' := by
  intro p
  rcases h' p with hsame | ⟨hdir, hfile⟩
  · exact hsame ▸ h p
  · refine .inr ⟨?_, hfile⟩
    rcases h p with hsame | ⟨hdir', -⟩
    · exact hsame ▸ hdir
    · exact hdir'

theorem Filled.put (hp : t.entry? p ≠ some .directory) (content : ByteArray) (executable : Bool) :
    Filled t (t.put p (.file content executable)) := by
  have hroot : p ≠ [] := by
    rintro rfl
    exact hp t.entryAt_root
  intro q
  by_cases hq : q = p
  · subst hq
    exact .inr ⟨hp, content, executable, entryAt_put_self hroot⟩
  · exact .inl (entryAt_put_of_ne hq)

/-- Steps meet files at their end only, so they lead where they led before files were put there. -/
theorem Filled.follow_iff (h : Filled t t') {steps : List String} :
    t'.follow false here steps = .ok q ↔ t.follow false here steps = .ok q := by
  induction steps generalizing here with
  | nil => exact Iff.rfl
  | cons n ns ih =>
    by_cases hup : n = ".."
    · subst hup
      rw [follow, follow]
      exact ih
    · rw [follow, follow]
      · rcases h (here ++ [n]) with hsame | ⟨hdir, content, executable, hfile⟩
        · rw [hsame]
          split
          · exact ih
          · exact Iff.rfl
          · exact Iff.rfl
        · rw [hfile]
          cases hold : t.entry? (here ++ [n]) with
          | none => cases ns <;> simp
          | some e =>
            cases e with
            | directory => exact absurd hold hdir
            | file _ _ => cases ns <;> simp
      · exact hup
      · exact hup

theorem Filled.locate_iff (h : Filled t t') {path : String}
    (hends : Path.endsAsDirectory path = false) :
    t'.locate here path = .ok q ↔ t.locate here path = .ok q := by
  rw [locate, locate, hends]
  split
  · exact Iff.rfl
  · exact h.follow_iff

theorem locate_put {path : String} (hends : Path.endsAsDirectory path = false)
    (h : t.locate here path = .ok q) (hp : t.entry? p ≠ some .directory) {content : ByteArray}
    {executable : Bool} : (t.put p (.file content executable)).locate here path = .ok q :=
  ((Filled.put hp content executable).locate_iff hends).2 h

theorem writeAt_ok {content : ByteArray} (h : t.writeAt p content = .ok t') :
    t.entry? p ≠ some .directory ∧ ∃ executable, t' = t.put p (.file content executable) := by
  rw [writeAt] at h
  split at h
  · cases h
  · rename_i c executable hf
    cases h
    exact ⟨by simp [hf], executable, rfl⟩
  · rename_i hf
    cases h
    exact ⟨by simp [hf], false, rfl⟩

/-- A file that is written is put at a place that its path leads to. -/
theorem write_ok {path : String} {content : ByteArray} (h : t.write here path content = .ok t') :
    Path.endsAsDirectory path = false ∧ ∃ p executable, t.locate here path = .ok p ∧
      t.entry? p ≠ some .directory ∧ t' = t.put p (.file content executable) := by
  rw [write] at h
  split at h
  · cases h
  split at h
  · obtain ⟨d, -, h⟩ := bind_ok h
    cases h
  split at h
  · obtain ⟨d, -, h⟩ := bind_ok h
    cases h
  rename_i hends
  obtain ⟨p, hp, h⟩ := bind_ok h
  obtain ⟨hdir, executable, ht⟩ := writeAt_ok h
  exact ⟨by simpa using hends, p, executable, hp, hdir, ht⟩

theorem readBytes_of_entry {path : String} {content : ByteArray} {executable : Bool}
    (hl : t.locate here path = .ok p) (he : t.entry? p = some (.file content executable)) :
    t.readBytes here path = .ok content := by
  have hfind : t.find? here path = .ok (.file content executable) := by
    rw [FileTree.find?, hl]
    simp only [bind, Except.bind, he]
  rw [readBytes, hfind]
  rfl

theorem locate_of_isFile {path : String} (h : t.isFile here path = true) :
    ∃ p, t.locate here path = .ok p := by
  rw [isFile] at h
  split at h
  · rename_i hfind
    obtain ⟨p, hp, -⟩ := bind_ok hfind
    exact ⟨p, hp⟩
  · cases h

theorem isFile_of_readText {path s : String} (h : t.readText here path = .ok s) :
    t.isFile here path = true := by
  obtain ⟨content, hbytes, -⟩ := bind_ok h
  obtain ⟨e, hfind, h⟩ := bind_ok hbytes
  cases e with
  | directory => cases h
  | file => rw [isFile, hfind]

theorem readText_of_readBytes {path s : String} (h : t.readBytes here path = .ok s.toUTF8) :
    t.readText here path = .ok s := by
  have hdecode : String.fromUTF8? s.toUTF8 = some s := dif_pos s.isValidUTF8
  rw [readText, h]
  simp only [bind, Except.bind, hdecode]

/-- What is written at a path is read there. -/
theorem readBytes_write {path : String} {content : ByteArray}
    (h : t.write here path content = .ok t') : t'.readBytes here path = .ok content := by
  obtain ⟨hends, p, executable, hl, hdir, rfl⟩ := write_ok h
  have hroot : p ≠ [] := by
    rintro rfl
    exact hdir t.entryAt_root
  exact readBytes_of_entry (locate_put hends hl hdir) (entryAt_put_self hroot)

/-! Files one after the other -/

theorem writeAt_isOk (hdir : t.entry? p ≠ some .directory) (content : ByteArray) :
    ∃ s, t.writeAt p content = .ok s := by
  rw [writeAt]
  split
  · rename_i hd
    exact absurd hd hdir
  · exact ⟨_, rfl⟩
  · exact ⟨_, rfl⟩

/-- What is written changes the place of its path alone, which holds the file then. -/
theorem entry_write {path : String} {content : ByteArray}
    (h : t.write here path content = .ok t') :
    Filled t t' ∧ (∃ executable, t'.entry? (Path.place here path) = some (.file content executable)) ∧
      ∀ q, q ≠ Path.place here path → t'.entry? q = t.entry? q := by
  obtain ⟨-, p, executable, hl, hdir, rfl⟩ := write_ok h
  have hroot : p ≠ [] := by
    rintro rfl
    exact hdir t.entryAt_root
  rw [← locate_ok hl]
  exact ⟨.put hdir content executable, ⟨executable, entryAt_put_self hroot⟩,
    fun q hq => entryAt_put_of_ne hq⟩

theorem setExecutable_ok {path : String} {content : ByteArray} {was executable : Bool}
    (h : t.setExecutable here path executable = .ok t')
    (he : t.entry? (Path.place here path) = some (.file content was)) :
    t'.entry? (Path.place here path) = some (.file content executable) := by
  obtain ⟨p, hp, h⟩ := bind_ok h
  obtain rfl := locate_ok hp
  rw [he] at h
  cases h
  refine entryAt_put_self fun hroot => ?_
  rw [hroot] at he
  cases he

/-- A file can be written where a path that names one leads to no directory. -/
theorem write_isOk_iff {path : String} {content : ByteArray} :
    (∃ s, t.write here path content = .ok s) ↔
      path.endsWith "/" = false ∧ Path.endsAsDirectory path = false ∧
        ∃ p, t.locate here path = .ok p ∧ t.entry? p ≠ some .directory := by
  constructor
  · rintro ⟨s, hs⟩
    obtain ⟨hends, p, -, hl, hdir, -⟩ := write_ok hs
    refine ⟨eq_false_of_ne_true fun hslash => ?_, hends, p, hl, hdir⟩
    rw [write, hslash] at hs
    split at hs
    · cases hs
    · obtain ⟨d, -, hs⟩ := bind_ok hs
      cases hs
  · rintro ⟨hslash, hends, p, hl, hdir⟩
    have hempty : ¬path.isEmpty = true := by
      intro hempty
      rw [locate, if_pos hempty] at hl
      cases hl
    rw [write, if_neg hempty, hslash, hends, hl]
    exact writeAt_isOk hdir content

theorem Filled.directory_iff (h : Filled t t') :
    t'.entry? p = some .directory ↔ t.entry? p = some .directory := by
  rcases h p with hsame | ⟨hdir, content, executable, hfile⟩
  · rw [hsame]
  · rw [hfile]
    exact iff_of_false nofun hdir

/-- Files leave open where others can be written. -/
theorem Filled.write_isOk_iff (h : Filled t t') {path : String} {content : ByteArray} :
    (∃ s, t'.write here path content = .ok s) ↔ ∃ s, t.write here path content = .ok s := by
  rw [FileTree.write_isOk_iff, FileTree.write_isOk_iff]
  refine and_congr_right fun _ => and_congr_right fun hends => exists_congr fun p => ?_
  rw [h.locate_iff hends, ne_eq, h.directory_iff]

/-- What is written is there as long as the place holds it. -/
theorem Filled.readBytes_write (h : Filled t t') {path : String} {content : ByteArray}
    (hw : ∃ s, t.write here path content = .ok s) {executable : Bool}
    (he : t'.entry? (Path.place here path) = some (.file content executable)) :
    t'.readBytes here path = .ok content := by
  obtain ⟨s, hs⟩ := hw
  obtain ⟨hends, p, executable, hl, -, -⟩ := write_ok hs
  rw [← locate_ok hl] at he
  exact readBytes_of_entry ((h.locate_iff hends).2 hl) he

/-! Files side by side -/

theorem endsAsDirectory_join {base n : String} (hn : isName n) :
    Path.endsAsDirectory (Path.join base n) = false := by
  obtain ⟨lead, hlead⟩ := Path.join_eq_append base
  obtain ⟨init, last, hpieces⟩ := Path.pieces_append lead
  obtain ⟨hidle, hup⟩ := says_of_isName hn last
  simp [Path.endsAsDirectory, hlead n (relative_of_isName hn), hpieces n hn, hidle, hup]

/-- Different names in a directory lead to different places. -/
theorem locate_join_ne {base m n : String} {here' : Place} (hm : isName m) (hn : isName n)
    (hne : m ≠ n) (hp : t.locate here (Path.join base m) = .ok p)
    (hq : t'.locate here' (Path.join base n) = .ok q) : p ≠ q := by
  obtain ⟨lead, hlead⟩ := Path.join_eq_append base
  obtain ⟨last, hlast⟩ := Path.getLast?_place lead
  rw [hlead m (relative_of_isName hm)] at hp
  rw [hlead n (relative_of_isName hn)] at hq
  have hplast := locate_ok hp ▸ hlast here m hm
  have hqlast := locate_ok hq ▸ hlast here' n hn
  rintro rfl
  have hsame := hplast.symm.trans hqlast
  exact hne ((String.append_right_inj last).1 (Option.some.inj hsame))

theorem readBytes_ok {path : String} {content : ByteArray}
    (h : t.readBytes here path = .ok content) :
    ∃ p executable, t.locate here path = .ok p ∧
      t.entry? p = some (.file content executable) := by
  rw [readBytes] at h
  obtain ⟨e, hfind, h⟩ := bind_ok h
  obtain ⟨p, hp, hfind⟩ := bind_ok hfind
  split at hfind
  · rename_i entry he
    cases hfind
    split at h
    · rename_i c x
      cases h
      exact ⟨p, x, hp, he⟩
    · cases h
  · cases hfind

/-- Writing a file leaves those of other names beside it alone. -/
theorem readBytes_write_of_ne {base m n : String} (hm : isName m) (hn : isName n) (hne : m ≠ n)
    {content other : ByteArray} (h : t.write here (Path.join base n) content = .ok t')
    (hr : t.readBytes here (Path.join base m) = .ok other) :
    t'.readBytes here (Path.join base m) = .ok other := by
  obtain ⟨-, q, executable, hq, hdir, rfl⟩ := write_ok h
  obtain ⟨p, x, hp, he⟩ := readBytes_ok hr
  have hpq : p ≠ q := locate_join_ne hm hn hne hp hq
  have hkeep := entryAt_put_of_ne (t := t) (v := .file content executable) hpq
  exact readBytes_of_entry (locate_put (endsAsDirectory_join hm) hp hdir) (hkeep.trans he)

end Pipewright.FileTree
