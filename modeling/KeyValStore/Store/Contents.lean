import KeyValStore.Session.Rule

/-!
# What a directory holds

`Contents` is what matters in the directory of a store: the generation of the MANIFEST, the tables
it lists with their entries, and the log segments.  `Holds` says that a directory holds such
contents.  It leaves open what the other files are: the temporary MANIFEST, sealed segments and
tables that are not listed are *loose*, and may change or vanish at any time (`Holds.off`).

Each thing the program does to the directory is a change of the contents: `Holds.commit` replaces
the MANIFEST, `Holds.sealed`, `Holds.opened` and `Holds.modified` are about the segments, and
`Holds.crashed` says that a crash changes nothing but the unsynced ends of the segments.
-/

set_option autoImplicit false

namespace KeyValStore

open Crash Std
open DB (sstPath walSegPath donePath StoreName sealDisk)

/-- What the directory of a store holds. -/
structure Contents where
  /-- The generation of the MANIFEST, if there is a MANIFEST. -/
  gen : Option ℕ
  /-- The numbers and the entries of the tables it lists, in its order. -/
  tables : List (ℕ × Entries)
  /-- The log segments, by number. -/
  logs : ℕ → Option File

namespace Contents

/-- Another MANIFEST. -/
def list (C : Contents) (gen : ℕ) (tables : List (ℕ × Entries)) : Contents :=
  ⟨some gen, tables, C.logs⟩

/-- Another segment, or none, under a number. -/
def setLog (C : Contents) (id : ℕ) (f : Option File) : Contents :=
  { C with logs := Function.update C.logs id f }

@[simp] theorem list_logs (C : Contents) (gen : ℕ) (ts : List (ℕ × Entries)) :
    (C.list gen ts).logs = C.logs := rfl

@[simp] theorem setLog_gen (C : Contents) (id : ℕ) (f : Option File) :
    (C.setLog id f).gen = C.gen := rfl

@[simp] theorem setLog_tables (C : Contents) (id : ℕ) (f : Option File) :
    (C.setLog id f).tables = C.tables := rfl

@[simp] theorem setLog_logs_self (C : Contents) (id : ℕ) (f : Option File) :
    (C.setLog id f).logs id = f :=
  Function.update_self ..

theorem setLog_logs_ne (C : Contents) {id id' : ℕ} (f : Option File) (h : id' ≠ id) :
    (C.setLog id f).logs id' = C.logs id' :=
  Function.update_of_ne h ..

/-- What may be left of the contents after a crash. -/
structure Crashed (C C' : Contents) : Prop where
  /-- The MANIFEST is the same. -/
  gen : C'.gen = C.gen
  /-- It lists the same tables. -/
  tables : C'.tables = C.tables
  /-- The segments may have lost their unsynced ends. -/
  logs : ∀ id, Option.Rel File.Crashed (C.logs id) (C'.logs id)

theorem Crashed.logs_eq_none_iff {C C' : Contents} (h : C.Crashed C') (id : ℕ) :
    C'.logs id = none ↔ C.logs id = none := by
  have hrel := h.logs id
  generalize C.logs id = a, C'.logs id = b at hrel
  cases hrel <;> simp

/-- A name whose file does not matter. -/
def Loose (C : Contents) (n : Name) : Prop :=
  StoreName n ∧ n ≠ Manifest.dest ∧ (∀ id, n ≠ walSegPath id) ∧
    ∀ id, n = sstPath id → C.gen ≠ none ∧ ∀ t ∈ C.tables, t.1 ≠ id

theorem loose_tmp (C : Contents) : C.Loose Manifest.tmp :=
  ⟨.tmp, Manifest.dest_ne_tmp.symm, fun id ↦ (DB.walSegPath_ne_tmp id).symm,
    fun id h ↦ absurd h.symm (DB.sstPath_ne_tmp id)⟩

theorem loose_donePath (C : Contents) (id : ℕ) : C.Loose (donePath (walSegPath id)) :=
  ⟨.done id, DB.donePath_ne_dest id, fun id' h ↦ DB.walSegPath_ne_donePath id' id h.symm,
    fun id' h ↦ absurd h.symm (DB.sstPath_ne_donePath id' id)⟩

theorem loose_sstPath {C : Contents} (hgen : C.gen ≠ none) {id : ℕ}
    (hid : ∀ t ∈ C.tables, t.1 ≠ id) : C.Loose (sstPath id) := by
  refine ⟨.sst id, DB.sstPath_ne_dest id, DB.sstPath_ne_walSegPath id, fun id' h ↦ ?_⟩
  rw [← DB.sstPath_inj.1 h]
  exact ⟨hgen, hid⟩

end Contents

/-- The directory uses no names but those of a store, and its segments are the given ones. -/
structure HoldsLogs (d : Disk) (logs : ℕ → Option File) : Prop where
  /-- There are no other names. -/
  names : ∀ (n : Name) (f : File), d[n]? = some f → StoreName n
  /-- The segments. -/
  logs : ∀ id, d[walSegPath id]? = logs id

/-- The directory has the tables, durable. -/
def HoldsTables (sz : Sizing) (d : Disk) (ts : List (ℕ × Entries)) : Prop :=
  ∀ t ∈ ts, t.1 < 2 ^ 64 ∧ SSTable.Openable sz t.2 ∧
    d[sstPath t.1]? = some (.saved (SSTable.image sz t.2))

/-- **The directory holds the contents.** -/
structure Holds (sz : Sizing) (d : Disk) (C : Contents) : Prop extends HoldsLogs d C.logs where
  /-- The tables. -/
  tables : HoldsTables sz d C.tables
  /-- The MANIFEST lists the tables. -/
  manifest : d[Manifest.dest]? = C.gen.map fun g ↦
    .saved (Manifest.text ⟨g, C.tables.map (sstPath ·.1)⟩)
  /-- The generation is a `uint64_t`. -/
  gen : ∀ g, C.gen = some g → g < 2 ^ 64
  /-- As long as there is no MANIFEST there are no tables. -/
  first : C.gen = none → C.tables = [] ∧ ∀ id, d[sstPath id]? = none

theorem HoldsTables.stored {sz : Sizing} {d : Disk} {ts : List (ℕ × Entries)}
    (h : HoldsTables sz d ts) : DB.Stored sz d ts := fun t ht ↦ by
  obtain ⟨-, hopen, hfile⟩ := h t ht
  exact ⟨hopen, by rw [hfile, Option.map_some, File.content_saved]⟩

/-- The empty directory. -/
theorem holds_empty (sz : Sizing) : Holds sz ∅ ⟨none, [], fun _ ↦ none⟩ where
  names n f h := by simp at h
  logs id := by simp
  tables t ht := absurd ht List.not_mem_nil
  manifest := by simp
  gen g h := by simp at h
  first _ := ⟨rfl, by simp⟩

/-! ## Changes that do not matter -/

section Frame

variable {sz : Sizing} {d d' : Disk} {C : Contents} {logs : ℕ → Option File}
  {ts : List (ℕ × Entries)}

theorem HoldsLogs.off {J : Name → Prop} (h : HoldsLogs d logs) (hd : Disk.AgreeBut J d d')
    (hJ : ∀ n, J n → StoreName n) (hlog : ∀ id, ¬J (walSegPath id)) : HoldsLogs d' logs where
  names n f hf := by
    by_cases hn : J n
    · exact hJ n hn
    · exact h.names n f (hd n hn ▸ hf)
  logs id := (hd _ (hlog id)).trans (h.logs id)

theorem HoldsTables.off {J : Name → Prop} (h : HoldsTables sz d ts) (hd : Disk.AgreeBut J d d')
    (hJ : ∀ t ∈ ts, ¬J (sstPath t.1)) : HoldsTables sz d' ts := fun t ht ↦ by
  obtain ⟨hid, hopen, hfile⟩ := h t ht
  exact ⟨hid, hopen, (hd _ (hJ t ht)).trans hfile⟩

/-- **Loose files do not matter.** -/
theorem Holds.off (h : Holds sz d C) (hd : Disk.AgreeBut C.Loose d d') : Holds sz d' C where
  toHoldsLogs := h.toHoldsLogs.off hd (fun _ hn ↦ hn.1) fun id hn ↦ hn.2.2.1 id rfl
  tables := h.tables.off hd fun t ht hn ↦ (hn.2.2.2 t.1 rfl).2 t ht rfl
  manifest := (hd _ fun hn ↦ hn.2.1 rfl).trans h.manifest
  gen := h.gen
  first hgen := by
    obtain ⟨hts, hsst⟩ := h.first hgen
    exact ⟨hts, fun id ↦ (hd _ fun hn ↦ (hn.2.2.2 id rfl).1 hgen).trans (hsst id)⟩

end Frame

/-! ## Changes that do -/

section Changes

variable {sz : Sizing} {d d' : Disk} {C : Contents} {logs : ℕ → Option File}
  {ts : List (ℕ × Entries)}

/-- **Replacing the MANIFEST.** -/
theorem HoldsLogs.commit (h : HoldsLogs d logs) {g : ℕ} (hg : g < 2 ^ 64)
    (hts : HoldsTables sz d ts) :
    Holds sz (Manifest.commit (Manifest.text ⟨g, ts.map (sstPath ·.1)⟩) d) ⟨some g, ts, logs⟩ where
  names n f hf := by
    by_cases hdest : n = Manifest.dest
    · exact hdest ▸ .dest
    rw [Manifest.commit, Disk.getElem?_insert_ne hdest] at hf
    by_cases htmp : n = Manifest.tmp
    · exact htmp ▸ .tmp
    · exact h.names n f (Disk.getElem?_erase_ne htmp ▸ hf)
  logs id := by
    rw [Manifest.commit, Disk.getElem?_insert_ne (DB.walSegPath_ne_dest id),
      Disk.getElem?_erase_ne (DB.walSegPath_ne_tmp id), h.logs]
  tables t ht := by
    obtain ⟨hid, hopen, hfile⟩ := hts t ht
    refine ⟨hid, hopen, ?_⟩
    rw [Manifest.commit, Disk.getElem?_insert_ne (DB.sstPath_ne_dest t.1),
      Disk.getElem?_erase_ne (DB.sstPath_ne_tmp t.1), hfile]
  manifest := Manifest.commit_dest _ d
  gen g' h' := by
    obtain rfl := Option.some.inj h'
    exact hg
  first h' := by cases h'

/-- A change of one segment. -/
theorem Holds.setLog (h : Holds sz d C) {id : ℕ} {o : Option File} (hid : id < 2 ^ 64)
    (hd : Disk.AgreeBut (fun n ↦ n = walSegPath id ∨ C.Loose n) d d')
    (hlog : d'[walSegPath id]? = o) : Holds sz d' (C.setLog id o) := by
  have hne : ∀ {n : Name}, n ≠ walSegPath id → ¬C.Loose n → d'[n]? = d[n]? := fun hn hloose ↦
    hd _ fun h' ↦ h'.elim hn hloose
  refine { names := ?_, logs := ?_, tables := ?_, manifest := ?_, gen := h.gen, first := ?_ }
  · intro n f hf
    by_cases hn : n = walSegPath id
    · exact hn ▸ .log hid
    by_cases hloose : C.Loose n
    · exact hloose.1
    · exact h.names n f (hne hn hloose ▸ hf)
  · intro id'
    by_cases hid' : id' = id
    · rw [hid', hlog, C.setLog_logs_self]
    · rw [C.setLog_logs_ne _ hid', ← h.logs,
        hne (fun hn ↦ hid' (DB.walSegPath_inj.1 hn)) fun hn ↦ hn.2.2.1 id' rfl]
  · exact h.tables.off hd fun t ht hn ↦ hn.elim (DB.sstPath_ne_walSegPath t.1 id)
      fun hn ↦ (hn.2.2.2 t.1 rfl).2 t ht rfl
  · exact (hne (DB.walSegPath_ne_dest id).symm fun hn ↦ hn.2.1 rfl).trans h.manifest
  · intro hgen
    obtain ⟨hts, hsst⟩ := h.first hgen
    exact ⟨hts, fun id' ↦ (hne (DB.sstPath_ne_walSegPath id' id)
      fun hn ↦ (hn.2.2.2 id' rfl).1 hgen).trans (hsst id')⟩

/-- **Sealing a segment.** -/
theorem Holds.sealed (h : Holds sz d C) {id : ℕ} (hid : id < 2 ^ 64) :
    Holds sz (sealDisk (walSegPath id) d) (C.setLog id none) := by
  rw [sealDisk]
  cases hf : d[walSegPath id]? with
  | none => exact h.setLog hid (Disk.AgreeBut.refl _ _) hf
  | some f =>
    refine h.setLog hid ?_ ?_
    · intro n hn
      rw [not_or] at hn
      have hdone : n ≠ donePath (walSegPath id) := fun h' ↦ hn.2 (h' ▸ C.loose_donePath id)
      rw [Disk.getElem?_insert_ne hdone, Disk.getElem?_erase_ne hn.1]
    · rw [Disk.getElem?_insert_ne (DB.walSegPath_ne_donePath id id), ExtTreeMap.getElem?_erase_self]

/-- **Opening a segment.** -/
theorem Holds.opened (h : Holds sz d C) {id : ℕ} (hid : id < 2 ^ 64) :
    Holds sz (d.insertIfNew (walSegPath id) {}) (C.setLog id (some ((C.logs id).getD {}))) := by
  refine h.setLog hid ?_ ?_
  · exact fun n hn ↦ Disk.getElem?_insertIfNew_ne fun h' ↦ hn (.inl h')
  · rw [Disk.getElem?_insertIfNew_self, h.logs]

/-- **Writing to a segment.** -/
theorem Holds.modified (h : Holds sz d C) {id : ℕ} (hid : id < 2 ^ 64) (f : File → File) :
    Holds sz (d.modify (walSegPath id) f) (C.setLog id ((C.logs id).map f)) := by
  refine h.setLog hid ?_ ?_
  · exact fun n hn ↦ Disk.getElem?_modify_ne fun h' ↦ hn (.inl h')
  · rw [ExtTreeMap.getElem?_modify_self, h.logs]

/-- **A crash** loses unsynced ends of segments, and nothing else. -/
theorem Holds.crashed (h : Holds sz d C) (hc : d.Crashed d') :
    ∃ C', C.Crashed C' ∧ Holds sz d' C' := by
  refine ⟨{ C with logs := fun id ↦ d'[walSegPath id]? }, ⟨rfl, rfl, fun id ↦ h.logs id ▸ hc _⟩, ?_⟩
  refine
    { names := ?_, logs := fun _ ↦ rfl, tables := ?_, manifest := ?_, gen := h.gen, first := ?_ }
  · intro n f' hf'
    obtain ⟨f, hf, -⟩ := hc.get_of_some hf'
    exact h.names n f hf
  · intro t ht
    obtain ⟨hid, hopen, hfile⟩ := h.tables t ht
    exact ⟨hid, hopen, hc.get_saved hfile⟩
  · have hm := h.manifest
    cases hgen : C.gen with
    | none =>
      rw [hgen] at hm
      exact hc.get_none hm
    | some g =>
      rw [hgen] at hm
      exact hc.get_saved hm
  · intro hgen
    obtain ⟨hts, hsst⟩ := h.first hgen
    exact ⟨hts, fun id ↦ hc.get_none (hsst id)⟩

end Changes

end KeyValStore
