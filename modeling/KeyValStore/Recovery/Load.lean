import KeyValStore.Store.Invariant
import KeyValStore.Recovery.Sweep

/-!
# What recovery loads

Step 3 of `recover` opens the tables the MANIFEST lists (`wp_loadListed`), or, when there is no
MANIFEST, those it finds in the directory (`wp_loadScanned`).  Both count the numbers of the tables
as they go.
-/

set_option autoImplicit false

namespace KeyValStore

open Crash Std

namespace DB

/-- The object once some tables have been loaded. -/
def loadedDb (sz : Sizing) (ts : List (ℕ × Entries)) (db : DB) : DB :=
  { db with
    nextSstId := max db.nextSstId (nextOf ts)
    sstables := db.sstables ++ tables sz ts }

theorem loadedDb_nil (sz : Sizing) (db : DB) : loadedDb sz [] db = db := by
  simp [loadedDb, nextOf, tables]

theorem loadedDb_cons (sz : Sizing) (t : ℕ × Entries) (ts : List (ℕ × Entries)) (db : DB) :
    loadedDb sz (t :: ts) db = loadedDb sz ts (loadedDb sz [t] db) := by
  simp [loadedDb, nextOf, tables, max_assoc]

section Load

variable {sz : Sizing} {W : Watch (Call Mark) DB Disk} {E : Error → DB → Disk → Prop} {db : DB}
  {d : Disk} {ts : List (ℕ × Entries)}

theorem wp_loadTable {Q : Unit → DB → Disk → Prop} {t : ℕ × Entries}
    (hopen : SSTable.Openable sz t.2)
    (hfile : (d[sstPath t.1]?).map File.content = some (SSTable.image sz t.2))
    (hw : Allows W (· = d)) (h : Q () (loadedDb sz [t] db) d) :
    (loadTable t.1 (sstPath t.1)).wp reliable W Q E db d := by
  rw [loadTable, wp_bind, wp_modify, wp_bind]
  refine SSTable.wp_open hopen hfile id (hw _ _ _ rfl rfl) (fun _ hf ↦ hf.elim) fun _ ↦ ?_
  have hnext : max (u64 (t.1 + 1)) (nextOf []) = u64 (t.1 + 1) := max_eq_left (Nat.zero_le _)
  rw [loadedDb, nextOf, hnext] at h
  exact h

/-- The loop over the names in the MANIFEST. -/
theorem wp_loadNames {Q : PUnit → DB → Disk → Prop} (hids : ∀ t ∈ ts, t.1 < 2 ^ 64)
    (hts : Stored sz d ts) (hw : Allows W (· = d)) (h : Q () (loadedDb sz ts db) d) :
    (forM (ts.map (sstPath ·.1)) fun name ↦ do
      let id ← Prog.ofExcept (listedId name)
      loadTable id name : Io DB PUnit).wp reliable W Q E db d := by
  induction ts generalizing db with
  | nil =>
    rw [loadedDb_nil] at h
    exact h
  | cons t ts ih =>
    rw [List.forall_mem_cons] at hids
    have ht := hts t List.mem_cons_self
    rw [loadedDb_cons] at h
    rw [List.map_cons, List.forM_cons, wp_bind, wp_bind, listedId_sstPath hids.1, wp_ofExcept_ok]
    refine wp_loadTable (t := t) ht.1 ht.2 hw ?_
    exact ih hids.2 (fun t' ht' ↦ hts t' (List.mem_cons_of_mem t ht')) h

/-- **Step 3 with a MANIFEST.** -/
theorem wp_loadListed {Q : Unit → DB → Disk → Prop} {bs : Bytes} {data : ManifestData}
    (hdest : (d[Manifest.dest]?).map File.content = some bs)
    (hdata : Manifest.parse bs = .ok data) (hnames : data.liveSstables = ts.map (sstPath ·.1))
    (hids : ∀ t ∈ ts, t.1 < 2 ^ 64) (hts : Stored sz d ts) (hw : Allows W (· = d))
    (h : Q () (loadedDb sz ts { db with manifestGen := data.generation }) d) :
    loadListed.wp reliable W Q E db d := by
  rw [loadListed, wp_bind, Manifest.read, wp_bind]
  refine wp_readFile id (hw _ _ _ rfl rfl) (fun _ hf ↦ hf.elim) fun _ ↦ ?_
  rw [hdest]
  simp only [hdata]
  rw [wp_ofExcept_ok, wp_bind, wp_modify, hnames]
  exact wp_loadNames hids hts hw h

/-- The loop over the names in the directory: some of them name tables, the others are passed
over. -/
theorem wp_scanNames (sz : Sizing) {Q : PUnit → DB → Disk → Prop} {names : List Name}
    (hnames : ∀ p ∈ names, scannedId (ascii ".sst") (ascii "sst_") p = .ok none ∨
      ∃ t : ℕ × Entries, p = sstPath t.1 ∧ t.1 < 2 ^ 64 ∧ Stored sz d [t])
    (hw : Allows W (· = d))
    (h : ∀ ts, (∀ t ∈ ts, sstPath t.1 ∈ names ∧ t.1 < 2 ^ 64) → Stored sz d ts →
      Q () (loadedDb sz ts db) d) :
    (forM names fun p ↦ do
      match ← Prog.ofExcept (scannedId (ascii ".sst") (ascii "sst_") p) with
      | none => pure ()
      | some id => loadTable id p : Io DB PUnit).wp reliable W Q E db d := by
  induction names generalizing db with
  | nil =>
    have h' := h [] (fun _ ht ↦ absurd ht List.not_mem_nil) fun _ ht ↦ absurd ht List.not_mem_nil
    rw [loadedDb_nil] at h'
    exact h'
  | cons p names ih =>
    rw [List.forall_mem_cons] at hnames
    rw [List.forM_cons, wp_bind, wp_bind]
    rcases hnames.1 with hp | ⟨t, rfl, hid, ht⟩
    · rw [hp, wp_ofExcept_ok]
      refine ih hnames.2 fun ts hts hst ↦ h ts (fun t ht ↦ ?_) hst
      exact ⟨List.mem_cons_of_mem _ (hts t ht).1, (hts t ht).2⟩
    · obtain ⟨hopen, hfile⟩ := ht t List.mem_cons_self
      rw [scannedId_sstPath hid, wp_ofExcept_ok]
      refine wp_loadTable (t := t) hopen hfile hw (ih hnames.2 fun ts hts hst ↦ ?_)
      rw [← loadedDb_cons]
      refine h (t :: ts) (List.forall_mem_cons.2 ⟨⟨List.mem_cons_self, hid⟩, fun t' ht' ↦ ?_⟩)
        (List.forall_mem_cons.2 ⟨⟨hopen, hfile⟩, hst⟩)
      exact ⟨List.mem_cons_of_mem _ (hts t' ht').1, (hts t' ht').2⟩

/-- Sorting the tables sorts their descriptions. -/
theorem exists_mergeSort_tables (sz : Sizing) (ts : List (ℕ × Entries))
    (le : SSTable → SSTable → Bool) :
    ∃ ts', ts'.Perm ts ∧ (tables sz ts).mergeSort le = tables sz ts' := by
  refine ⟨ts.mergeSort fun a b ↦ le (.loaded sz (sstPath a.1) a.2) (.loaded sz (sstPath b.1) b.2),
    List.mergeSort_perm _ _, ?_⟩
  rw [tables, tables, List.map_mergeSort]
  exact fun _ _ _ _ ↦ rfl

/-- The object once the tables that were found have been listed. -/
def scannedDb (sz : Sizing) (ts : List (ℕ × Entries)) (n : ℕ) (db : DB) : DB :=
  { db with
    nextSstId := max db.nextSstId n
    sstables := tables sz ts
    manifestGen := u64 (db.manifestGen + 1) }

/-- **Step 3 without a MANIFEST.** -/
theorem wp_loadScanned (sz : Sizing) {Q : Unit → DB → Disk → Prop} (hdb : db.sstables = [])
    (hnames : ∀ (p : Name) (f : File), d[p]? = some f →
      scannedId (ascii ".sst") (ascii "sst_") p = .ok none ∨
        ∃ t : ℕ × Entries, p = sstPath t.1 ∧ t.1 < 2 ^ 64 ∧ Stored sz d [t])
    (hw : Allows W (Manifest.Replacing .none d))
    (hcommit : ∀ ts ts' d', ts'.Perm ts → (∀ t ∈ ts, ∃ f, d[sstPath t.1]? = some f) →
      Manifest.Replacing .none d d' → d'[Manifest.tmp]? = some (.saved
        (Manifest.text ⟨u64 (db.manifestGen + 1), ts'.map (sstPath ·.1)⟩)) →
      W.always ⟨.rename Manifest.tmp Manifest.dest, scannedDb sz ts' (nextOf ts) db, d'⟩)
    (h : ∀ ts ts', ts'.Perm ts → (∀ t ∈ ts, (∃ f, d[sstPath t.1]? = some f) ∧ t.1 < 2 ^ 64) →
      Stored sz d ts → Q () (scannedDb sz ts' (nextOf ts) db) (Manifest.commit
        (Manifest.text ⟨u64 (db.manifestGen + 1), ts'.map (sstPath ·.1)⟩) d)) :
    loadScanned.wp reliable W Q E db d := by
  have hidle : Allows W (· = d) := hw.mono fun d' hd' ↦ hd' ▸ .inl (.refl _ _)
  rw [loadScanned, wp_bind]
  refine wp_listDir.2 ⟨hidle _ _ _ rfl rfl, fun _ names hperm ↦ ?_⟩
  have hmem := mem_of_perm_keys hperm
  rw [wp_bind]
  refine wp_scanNames sz (fun p hp ↦ ?_) hidle fun ts hts hst ↦ ?_
  · obtain ⟨f, hf⟩ := (hmem p).1 hp
    exact hnames p f hf
  obtain ⟨ts', hp, hsort⟩ := exists_mergeSort_tables sz ts stemGe
  rw [wp_bind, wp_modify, loadedDb, hdb, List.nil_append, hsort]
  refine wp_updateManifestLocked throwing_none hw (fun d' hd' htmp ↦ ?_) (fun _ hf ↦ hf.elim)
    (fun _ _ _ hf ↦ ?_) ?_
  · rw [map_path_tables] at htmp
    exact hcommit ts ts' d' hp (fun t ht ↦ (hmem _).1 (hts t ht).1) hd' htmp
  · rcases hf with hf | ⟨_, hf⟩ | hf
    · exact hf.elim
    · exact hf.elim
    · exact hf.elim
  · rw [map_path_tables]
    exact h ts ts' hp (fun t ht ↦ ⟨(hmem _).1 (hts t ht).1, (hts t ht).2⟩) hst

end Load

end DB

end KeyValStore
