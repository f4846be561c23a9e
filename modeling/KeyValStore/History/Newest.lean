import KeyValStore.History.Reach

/-!
# What a compaction computes

`compact_newest` says what is there after a compaction, whatever the MemTable and the tables were: a
single table, and in it the newest entry of every key, if that is a value.  The table files that a
flush and a merge leave are given by `Stored.flushed` and `Stored.merged`; they ask that the numbers
that are taken are not in use.
-/

set_option autoImplicit false

namespace KeyValStore

open Crash Std

namespace DB

/-! ## The table files -/

section Files

variable {sz : Sizing} {db : DB} {d : Disk} {ts : List (ℕ × Entries)}

theorem getElem?_sealDisk_sst (wal : ℕ) (d : Disk) (id : ℕ) :
    (sealDisk (walSegPath wal) d)[sstPath id]? = d[sstPath id]? := by
  rw [sealDisk]
  split
  · rw [Disk.getElem?_insert_ne (sstPath_ne_donePath id wal),
      Disk.getElem?_erase_ne (sstPath_ne_walSegPath id wal)]
  · rfl

/-- A flush changes no table file but the one it builds. -/
theorem getElem?_flushedDisk_sst (id : ℕ) : (flushedDisk sz db d)[sstPath id]? =
    (flushBuilt sz db d)[sstPath id]? := by
  rw [flushedDisk, Disk.getElem?_erase_ne (sstPath_ne_donePath id _), flushOpened,
    Disk.getElem?_insertIfNew_ne (sstPath_ne_walSegPath id _), flushSealed, getElem?_sealDisk_sst,
    flushCommitted, Manifest.getElem?_commit_sst]

/-- **The table files after a flush.** -/
theorem Stored.flushed (h : Stored sz d ts) (hne : ∀ t ∈ ts, t.1 ≠ db.nextSstId)
    (hopen : SSTable.Openable sz db.memtable.data) :
    Stored sz (flushedDisk sz db d) ((db.nextSstId, db.memtable.data) :: ts) :=
  (h.built hne hopen).congr fun _ _ ↦ getElem?_flushedDisk_sst _

/-- A table that takes the place of the others. -/
theorem Stored.replaced {n : ℕ} {clean : Entries} (hne : ∀ t ∈ ts, t.1 ≠ n)
    (hopen : SSTable.Openable sz clean) (d : Disk) (text : Bytes) :
    Stored sz (eraseAll (ts.map (sstPath ·.1)) (Manifest.commit text
      (d.insert (sstPath n) (.saved (SSTable.image sz clean))))) [(n, clean)] := by
  have hnil : Stored sz d [] := fun t ht ↦ absurd ht List.not_mem_nil
  refine (hnil.built (fun _ ht ↦ absurd ht List.not_mem_nil) hopen).congr fun t ht ↦ ?_
  obtain rfl := List.mem_singleton.1 ht
  rw [getElem?_eraseAll, if_neg, Manifest.getElem?_commit_sst]
  intro hmem
  obtain ⟨t, ht, heq⟩ := List.mem_map.1 hmem
  exact hne t ht (sstPath_inj.1 heq)

/-- **The table file after a merge.** -/
theorem Stored.merged (hne : ∀ t ∈ ts, t.1 ≠ db.nextSstId)
    (hopen : SSTable.Openable sz (cleanOf sz ts)) (d : Disk) :
    Stored sz (mergedDisk sz db ts d) [(db.nextSstId, cleanOf sz ts)] :=
  Stored.replaced hne hopen d _

end Files

/-! ## The newest entries -/

end DB

/-- **The newest entry for a key**: that of the MemTable, or else that of the first table that has
one. -/
def newestEntry (mem : Entries) (ts : List (ℕ × Entries)) (key : Bytes) : Option MemEntry :=
  (mem[key]?).or (ts.findSome? fun t ↦ t.2[key]?)

/-- **The newest live version of every key**, in the order of the keys. -/
structure NewestLive (mem : Entries) (ts : List (ℕ × Entries)) (es : List SSTEntry) : Prop where
  /-- The keys increase strictly. -/
  sorted : es.Pairwise fun a b ↦ compare a.key b.key = .lt
  /-- The entries are the newest ones that are live. -/
  mem_iff : ∀ e, e ∈ es ↔
    e.tombstone = false ∧ newestEntry mem ts e.key = some ⟨e.value, false⟩

section Newest

variable {sz : Sizing} {ts ts₀ : List (ℕ × Entries)}

theorem DB.getElem?_mergeAll (sz : Sizing) (h : ∀ t ∈ ts, t.2.IsShort) (key : Bytes) :
    (mergeAll sz ts)[key]? = ts.findSome? fun t ↦ t.2[key]? := by
  induction ts with
  | nil => exact ExtTreeMap.getElem?_empty
  | cons t ts ih =>
    rw [List.forall_mem_cons] at h
    have hshort : ∀ e ∈ t.2.toList, SSTable.ShortEntry e := fun e he ↦
      h.1 e.1 e.2 (ExtTreeMap.mem_toList_iff_getElem?_eq_some.1 he)
    rw [mergeAll_cons, Entries.readBack_eq sz hshort, getElem?_mergeInto_scanned, ih h.2,
      List.findSome?_cons]
    cases t.2[key]? <;> rfl

theorem DB.getElem?_cleanOf (sz : Sizing) (h : ∀ t ∈ ts, t.2.IsShort) (key : Bytes) :
    (cleanOf sz ts)[key]? = (ts.findSome? fun t ↦ t.2[key]?).filter fun e ↦ !e.tombstone := by
  rw [cleanOf, ExtTreeMap.getElem?_filter', getElem?_mergeAll sz h]

/-- What is read back of the merged table is the newest live version of every key. -/
theorem newestLive_scanned (sz : Sizing) (mem : Entries) {clean : List (ℕ × Entries)}
    (hclean : ∀ t ∈ clean, t.2.IsShort)
    (hnewest : ∀ key, (clean.findSome? fun t ↦ t.2[key]?) = newestEntry mem ts key) :
    NewestLive mem ts (DB.cleanOf sz clean).scanned where
  sorted := by
    rw [Entries.scanned, List.pairwise_map]
    exact SSTable.sorted_toList _
  mem_iff e := by
    rw [Entries.scanned, List.mem_map, ← hnewest]
    constructor
    · rintro ⟨⟨key, m⟩, hmem, rfl⟩
      rw [ExtTreeMap.mem_toList_iff_getElem?_eq_some, DB.getElem?_cleanOf sz hclean,
        Option.filter_eq_some_iff] at hmem
      obtain ⟨hsome, hlive⟩ := hmem
      rw [Bool.not_eq_true'] at hlive
      refine ⟨hlive, hsome.trans ?_⟩
      rw [← hlive]
    · rintro ⟨hlive, hsome⟩
      refine ⟨(e.key, ⟨e.value, false⟩), ?_, by rw [← hlive]⟩
      rw [ExtTreeMap.mem_toList_iff_getElem?_eq_some, DB.getElem?_cleanOf sz hclean, hsome]
      rfl

/-- A store whose tables have been built, with short strings in it. -/
structure Layered (sz : Sizing) (db : DB) (d : Disk) (ts : List (ℕ × Entries)) : Prop where
  /-- The tables are open. -/
  tables : db.sstables = DB.tables sz ts
  /-- Their files have been built. -/
  stored : DB.Stored sz d ts
  /-- The strings in them are short. -/
  short : ∀ t ∈ ts, t.2.IsShort
  /-- The strings in the MemTable are short. -/
  memShort : db.memtable.data.IsShort
  /-- The next number is a `uint64_t`. -/
  next : db.nextSstId < 2 ^ 64

/-- The tables a compaction merges: those there are, and that of the MemTable. -/
def inputs (db : DB) (ts : List (ℕ × Entries)) : List (ℕ × Entries) :=
  if db.memtable.empty then ts else (db.nextSstId, db.memtable.data) :: ts

/-- What a compaction should do: a single table is left, with the newest live version of every
key. -/
def CompactsToNewest (sz : Sizing) (db : DB) (d : Disk) (ts : List (ℕ × Entries)) : Prop :=
  (DB.compact sz).ReturnsIf reliable (OnBuild fun entries _ _ ↦ BloomFits sz entries) db d
    fun _ db' d' ↦ ∃ t, db'.sstables = [t] ∧ db'.memtable.empty = true ∧
      (t.scanAll : Io DB _).Returns reliable db' d' fun es _ _ ↦ NewestLive db.memtable.data ts es

variable {db : DB} {d : Disk} {W : Watch (Call Mark) DB Disk}

/-- The flush of a compaction adds the table of the MemTable. -/
theorem wp_flush_inputs {A : Event (Call Mark) DB Disk → Prop} (h : Layered sz db d ts)
    (hfree : ∀ t ∈ ts, t.1 ≠ db.nextSstId ∧
      (db.memtable.empty = false → t.1 ≠ u64 (db.nextSstId + 1)))
    (hbloom : db.memtable.empty = false → A (DB.buildEvent db db.memtable.data d) →
      BloomFits sz db.memtable.data) :
    (DB.flushMemtableLocked sz).wp reliable ⟨A, fun _ ↦ True⟩
      (fun _ db₁ d₁ ↦ Layered sz db₁ d₁ (inputs db ts) ∧ db₁.memtable.empty = true ∧
        ∀ t ∈ inputs db ts, t.1 ≠ db₁.nextSstId) (fun _ _ _ ↦ False) db d := by
  rw [inputs]
  cases he : db.memtable.empty with
  | true => exact DB.wp_flushMemtableLocked_empty he ⟨h, he, fun t ht ↦ (hfree t ht).1⟩
  | false =>
    refine DB.wp_flushMemtableLocked throwing_none he trivial fun hbuild ↦ ?_
    have hopen := (SSTable.Fits.mk h.memShort (hbloom he hbuild)).openable
    refine ⟨hopen, fun _ _ ↦ trivial, fun _ _ _ ↦ DB.not_flushThrew_none,
      ⟨?_, h.stored.flushed (fun t ht ↦ (hfree t ht).1) hopen,
        List.forall_mem_cons.2 ⟨h.memShort, h.short⟩, Entries.isShort_empty, u64_lt _⟩,
      ExtTreeMap.isEmpty_empty, List.forall_mem_cons.2 ⟨?_, fun t ht ↦ (hfree t ht).2 he⟩⟩
    · rw [DB.flushedDb, DB.flushListed, h.tables]
      rfl
    · have hlt := h.next
      show db.nextSstId ≠ u64 (db.nextSstId + 1)
      simp only [u64, ne_eq]
      omega

/-- Among the tables a compaction merges the first that knows a key has its newest entry. -/
theorem findSome?_inputs (db : DB) (ts : List (ℕ × Entries)) (key : Bytes) :
    ((inputs db ts).findSome? fun t ↦ t.2[key]?) = newestEntry db.memtable.data ts key := by
  rw [inputs, newestEntry]
  split
  · rename_i he
    rw [MemTable.empty, ExtTreeMap.isEmpty_iff] at he
    rw [he, ExtTreeMap.getElem?_empty, Option.none_or]
  · rw [List.findSome?_cons]
    cases db.memtable.data[key]? <;> rfl

/-- What a merge leaves. -/
theorem wp_merge_newest {mem : Entries} (h : Layered sz db d ts)
    (hne : ∀ t ∈ ts, t.1 ≠ db.nextSstId) (he : db.memtable.empty = true)
    (hnewest : ∀ key, (ts.findSome? fun t ↦ t.2[key]?) = newestEntry mem ts₀ key) :
    (DB.merge sz).wp reliable ⟨OnBuild fun entries _ _ ↦ BloomFits sz entries, fun _ ↦ True⟩
      (fun _ db' d' ↦ ∃ t, db'.sstables = [t] ∧ db'.memtable.empty = true ∧
        (t.scanAll : Io DB _).Returns reliable db' d' fun es _ _ ↦ NewestLive mem ts₀ es)
      (fun _ _ _ ↦ False) db d := by
  refine DB.wp_merge throwing_none (fun _ _ _ ↦ id) h.tables h.stored
    (fun _ _ _ _ _ ↦ trivial) trivial fun hbuild ↦ ?_
  have hopen := (SSTable.Fits.mk (DB.isShort_cleanOf sz ts) (hbuild _ _ rfl)).openable
  refine ⟨hopen, fun _ _ ↦ trivial, fun _ _ _ h _ ↦ DB.not_mergeThrew_none h, _, rfl, he, ?_⟩
  obtain ⟨-, hfile⟩ := DB.Stored.merged hne hopen d _ List.mem_cons_self
  refine Prog.returns_of_wp
    (SSTable.wp_scanAll rfl rfl hfile (fun hf ↦ hf) (fun _ hf ↦ hf) trivial ?_)
  have hshort : ∀ e ∈ (DB.cleanOf sz ts).toList, SSTable.ShortEntry e := fun e he ↦
    DB.isShort_cleanOf sz ts e.1 e.2 (ExtTreeMap.mem_toList_iff_getElem?_eq_some.1 he)
  rw [Entries.readBack_eq sz hshort]
  exact newestLive_scanned sz mem h.short hnewest

/-- **Compaction computes exactly the newest live version of every key**, when the numbers it takes,
a second one if there is something to flush, are not in use. -/
theorem compact_newest (h : Layered sz db d ts) (hlen : 2 ≤ ts.length)
    (hfree : ∀ t ∈ ts, t.1 ≠ db.nextSstId ∧
      (db.memtable.empty = false → t.1 ≠ u64 (db.nextSstId + 1))) :
    CompactsToNewest sz db d ts := by
  refine Prog.returnsIf_of_wp (DB.wp_compactLocked ?_ ?_)
  · rw [h.tables, DB.length_tables]
    exact hlen.not_gt
  have hflush := wp_flush_inputs (A := OnBuild fun entries _ _ ↦ BloomFits sz entries) h hfree
    fun _ hbuild ↦ hbuild _ _ rfl
  refine wp_mono hflush (fun _ db₁ d₁ ⟨h₁, he, hne⟩ ↦ ?_) fun _ _ _ ↦ id
  exact wp_merge_newest h₁ hne he (findSome?_inputs db ts)

end Newest

/-- Two tables, the older one with an entry. -/
def twoTables (newer : Entries) : List (ℕ × Entries) := [(1, newer), (0, SSTable.single)]

/-- A store with the two tables. -/
def twoStore (newer : Entries) : DB :=
  { sstables := DB.tables .onePercent (twoTables newer), nextSstId := 2 }

/-- The files of the two tables. -/
def twoFiles (newer : Entries) : Disk :=
  ((∅ : Disk).insert (DB.sstPath 0) (.saved (SSTable.image .onePercent SSTable.single))).insert
    (DB.sstPath 1) (.saved (SSTable.image .onePercent newer))

theorem layered_twoTables {newer : Entries} (h : SSTable.Fits .onePercent newer) :
    Layered .onePercent (twoStore newer) (twoFiles newer) (twoTables newer) := by
  have hnil : DB.Stored .onePercent ∅ [] := fun t ht ↦ absurd ht List.not_mem_nil
  have hone :=
    hnil.built (n := 0) (fun _ ht ↦ absurd ht List.not_mem_nil) SSTable.fits_single.openable
  refine ⟨rfl, hone.built (by simp) h.openable, ?_, Entries.isShort_empty, by norm_num [twoStore]⟩
  simp only [twoTables, List.forall_mem_cons]
  exact ⟨h.short, SSTable.fits_single.short, fun _ h ↦ absurd h List.not_mem_nil⟩

/-- The deletion of the key, as a table. -/
def deleted : Entries := (DB.applyRecord Snapshot.deletion {}).data

theorem fits_deleted : SSTable.Fits .onePercent deleted :=
  ⟨isShort_applyRecord (by decide) Entries.isShort_empty,
    (Snapshot.openable_applyRecord (by decide)).bloom⟩

/-- The store in which the newer table deletes the key of the older one, and the MemTable has
another key. -/
def threeLayers : DB := { twoStore deleted with memtable := DB.applyRecord Snapshot.other {} }

theorem layered_threeLayers :
    Layered .onePercent threeLayers (twoFiles deleted) (twoTables deleted) :=
  { layered_twoTables fits_deleted with
    memShort := isShort_applyRecord (by decide) Entries.isShort_empty }

theorem free_threeLayers : ∀ t ∈ twoTables deleted, t.1 ≠ threeLayers.nextSstId ∧
    (threeLayers.memtable.empty = false → t.1 ≠ u64 (threeLayers.nextSstId + 1)) := by
  simp [twoTables, threeLayers, twoStore, u64]

theorem compact_newest_threeLayers :
    CompactsToNewest .onePercent threeLayers (twoFiles deleted) (twoTables deleted) :=
  compact_newest layered_threeLayers (by decide) free_threeLayers

/-! ## A number that is in use -/

namespace Snapshot

theorem isShort_counted {n : ℕ} {s : Snapshot} (h : Counted n s) :
    ∀ t ∈ s.contents.tables, t.2.IsShort := by
  obtain ⟨ts, hts, -, hknown⟩ := h.tables
  rw [hts, List.forall_mem_append]
  refine ⟨fun t ht ↦ ?_, List.forall_mem_singleton.2 (isShort_applyRecord (by decide)
    Entries.isShort_empty)⟩
  rw [hknown t ht]
  exact isShort_applyRecord (by decide) Entries.isShort_empty

/-- The tables of a store that has counted up know two keys only. -/
theorem cleanOf_counted {n : ℕ} {s : Snapshot} (h : Counted n s) (hn : n ≠ 0) (id : ℕ) :
    DB.cleanOf .onePercent ((id, (DB.applyRecord newer {}).data) :: s.contents.tables) =
      (DB.applyRecord newer (DB.applyRecord other {})).data := by
  obtain ⟨ts, hts, hlen, hknown⟩ := h.tables
  have hshort : ∀ t ∈ (id, (DB.applyRecord newer {}).data) :: s.contents.tables, t.2.IsShort :=
    List.forall_mem_cons.2 ⟨isShort_applyRecord (by decide) Entries.isShort_empty,
    isShort_counted h⟩
  have hempty : ∀ key : Bytes, ({} : MemTable).data[key]? = none :=
    fun _ ↦ ExtTreeMap.getElem?_empty
  have hother : ∀ key : Bytes, (ts.findSome? fun t ↦ t.2[key]?) =
      if key = other.key then some other.entry else none := by
    intro key
    cases ts with
    | nil => exact absurd hlen.symm hn
    | cons t ts =>
      split
      · rename_i hkey
        rw [List.findSome?_cons, hknown t List.mem_cons_self, getElem?_applyRecord, if_pos hkey]
      · rename_i hkey
        rw [List.findSome?_eq_none_iff]
        intro t' ht'
        rw [hknown t' ht', getElem?_applyRecord, if_neg hkey, hempty]
  refine ExtTreeMap.ext_getElem? fun key ↦ ?_
  rw [DB.getElem?_cleanOf _ hshort, hts, List.findSome?_cons, List.findSome?_append, hother]
  simp only [getElem?_applyRecord, hempty, List.findSome?_cons, List.findSome?_nil]
  by_cases hk : key = [107]
  · subst hk
    rfl
  · by_cases hl : key = [108]
    · subst hl
      rfl
    · have hk' : ¬key = newer.key := hk
      have hk'' : ¬key = older.key := hk
      have hl' : ¬key = other.key := hl
      simp [hk', hk'', hl']

/-- **A number that is in use is taken** when the counter wraps around: a history ends in a store
whose compaction flushes to a table with the last number and builds the merged table under the
number of the first one.  Its file goes with the old tables. -/
theorem exists_wrapped (ok : Label → Prop) (hopen : ok (.opened {}))
    (hdid : ∀ op : Op, (∀ r ∈ op.record, r.IsShort) → ok (.did op)) :
    ∃ hist db d ts tr db' d' clean g, Run .onePercent (.closed ∅) hist (.opened db d) ∧
      (∀ s ∈ hist, Meets ok (fun entries _ _ ↦ BloomFits .onePercent entries) s) ∧
      Layered .onePercent db d ts ∧ 2 ≤ ts.length ∧
      newestEntry db.memtable.data ts [107] = some ⟨[50], false⟩ ∧
      Exec reliable (DB.compact .onePercent) db d tr (.ok () db' d') ∧
      (∀ ev ∈ tr, OnBuild (fun entries _ _ ↦ BloomFits .onePercent entries) ev) ∧
      db'.sstables = [.loaded .onePercent (DB.sstPath 0) clean] ∧ d'[DB.sstPath 0]? = none ∧
      d'[Manifest.dest]? = some (.saved (Manifest.text ⟨g, [DB.sstPath 0]⟩)) ∧ g < 2 ^ 64 := by
  obtain ⟨n, hn⟩ : ∃ n, n + 2 = 2 ^ 64 := ⟨2 ^ 64 - 2, by norm_num⟩
  obtain ⟨hreach, hcounted⟩ := reaches_counted ok hopen hdid
    (P := fun entries _ _ ↦ BloomFits .onePercent entries) (fun _ _ _ hopen _ ↦ hopen.bloom) n
    (by omega)
  have hmem : ((counted n).write newer).db.memtable = DB.applyRecord newer {} := by
    rw [write, DB.applied, hcounted.memtable]
  have hbytes : ¬((counted n).write newer).db.opts.memtableFlushBytes ≤
      ((counted n).write newer).db.memtable.bytes := by
    rw [hmem, write, DB.applied, hcounted.opts]
    decide
  obtain ⟨hist, d, hrun, hmeets, ho⟩ := hreach.write (.put [107] [50]) (r := newer) rfl hbytes
    (hdid _ (by decide))
  have hnext : ((counted n).write newer).db.nextSstId = n + 1 := hcounted.next
  have hne : ((counted n).write newer).db.memtable.empty = false := by
    rw [hmem]
    exact empty_applyRecord _ _
  have hlayered : Layered .onePercent ((counted n).write newer).db d (counted n).contents.tables :=
    ⟨ho.tables, ho.holds.tables.stored, isShort_counted hcounted, by
      rw [hmem]
      exact isShort_applyRecord (by decide) Entries.isShort_empty, ho.next_lt⟩
  obtain ⟨ts, hts, hlen, -⟩ := hcounted.tables
  have hlen' : 2 ≤ (counted n).contents.tables.length := by
    rw [hts, List.length_append, List.length_singleton, hlen]
    omega
  have hcleanOf := cleanOf_counted hcounted (by omega) ((counted n).write newer).db.nextSstId
  have hfirst : (0, (DB.applyRecord older {}).data) ∈
      (((counted n).write newer).db.nextSstId, ((counted n).write newer).db.memtable.data) ::
        (counted n).contents.tables := by
    rw [hts]
    simp
  have hzero : (DB.flushedDb .onePercent ((counted n).write newer).db).nextSstId = 0 := by
    show u64 (((counted n).write newer).db.nextSstId + 1) = 0
    rw [hnext, hn, u64, Nat.mod_self]
  have hfresh : ∀ t ∈ (counted n).contents.tables, t.1 ≠ ((counted n).write newer).db.nextSstId :=
    ho.fresh
  generalize ((counted n).write newer).db = db at *
  generalize (counted n).contents.tables = tables at *
  have hflush : SSTable.Openable .onePercent db.memtable.data := by
    rw [hmem]
    exact openable_applyRecord (by decide)
  have hclean : SSTable.Openable .onePercent
      (DB.cleanOf .onePercent ((db.nextSstId, db.memtable.data) :: tables)) := by
    rw [hmem, hcleanOf]
    refine openable_of_size_le (isShort_applyRecord (by decide)
      (isShort_applyRecord (by decide) Entries.isShort_empty)) ?_
    have hsize : (DB.applyRecord other {}).data.size ≤ 1 := size_applyRecord_le other {}
    exact (size_applyRecord_le newer _).trans (by omega)
  have hlisted : (DB.flushedDb .onePercent db).sstables =
      DB.tables .onePercent ((db.nextSstId, db.memtable.data) :: tables) := by
    rw [DB.flushedDb, DB.flushListed, hlayered.tables]
    rfl
  have hstored : DB.Stored .onePercent (DB.flushedDisk .onePercent db d)
      ((db.nextSstId, db.memtable.data) :: tables) := hlayered.stored.flushed hfresh hflush
  have hlive : newestEntry db.memtable.data tables [107] = some ⟨[50], false⟩ := by
    rw [newestEntry, hmem, getElem?_applyRecord, if_pos (by rfl)]
    rfl
  generalize hts' : (db.nextSstId, db.memtable.data) :: tables = ts' at *
  -- the flush takes the last number, and the merge the number of the first table
  let P : Entries → DB → Disk → Prop := fun entries _ _ ↦ BloomFits .onePercent entries
  let merged := DB.mergedDisk .onePercent (DB.flushedDb .onePercent db) ts'
    (DB.flushedDisk .onePercent db d)
  have hwp : (DB.compact .onePercent).wp reliable (onBuilds P)
      (fun _ db' d' ↦
        db'.sstables = [.loaded .onePercent (DB.sstPath 0) (DB.cleanOf .onePercent ts')] ∧
        d' = merged) (fun _ _ _ ↦ False) db d := by
    refine DB.wp_compactLocked ?_ ?_
    · rw [hlayered.tables, DB.length_tables]
      exact hlen'.not_gt
    refine wp_flush_onBuilds hne hflush hflush.bloom ?_
    refine wp_merge_onBuilds hlisted hstored hclean hclean.bloom ⟨?_, rfl⟩
    rw [DB.mergedDb, hzero]
  obtain ⟨tr, db', d', hx, htr, hone, rfl⟩ := exists_exec hwp
  refine ⟨hist, db, d, tables, tr, db', merged, _, _, hrun, hmeets, hlayered, hlen',
    hlive, hx, htr, hone, ?_, ?_, u64_lt ((DB.flushedDb .onePercent db).manifestGen + 1)⟩
  · show (eraseAll (ts'.map (DB.sstPath ·.1)) _)[DB.sstPath 0]? = none
    rw [getElem?_eraseAll, if_pos (List.mem_map.2 ⟨(0, _), hfirst, rfl⟩)]
  · have hdest : Manifest.dest ∉ ts'.map (DB.sstPath ·.1) := by
      intro hmem'
      obtain ⟨t, -, ht⟩ := List.mem_map.1 hmem'
      exact DB.sstPath_ne_dest t.1 ht
    show (eraseAll (ts'.map (DB.sstPath ·.1)) _)[Manifest.dest]? = _
    rw [getElem?_eraseAll, if_neg hdest, DB.mergeCommitted, Manifest.commit_dest, DB.mergeManifest,
      hzero]

/-- **The newest versions are lost** when the counter wraps around. -/
theorem exists_not_compactsToNewest : ∃ hist db d ts,
    Run .onePercent (.closed ∅) hist (.opened db d) ∧ Layered .onePercent db d ts ∧ 2 ≤ ts.length ∧
      ¬CompactsToNewest .onePercent db d ts := by
  obtain ⟨hist, db, d, ts, tr, db', d', clean, g, hrun, -, hlayered, hlen, hlive, hx, htr,
    hone, hnone, -, -⟩ := exists_wrapped (fun _ ↦ True) trivial fun _ _ ↦ trivial
  refine ⟨hist, db, d, ts, hrun, hlayered, hlen, fun h ↦ ?_⟩
  rcases h tr _ hx htr with ⟨_, hcut⟩ | ⟨_, _, _, heq, t, ht, -, hscan⟩
  · cases hcut
  cases heq
  rw [hone] at ht
  obtain rfl := List.singleton_inj.1 ht
  have hempty : (SSTable.scanAll (.loaded .onePercent (DB.sstPath 0) clean) :
      Io DB _).wp reliable .blind (fun es _ _ ↦ es = []) (fun _ _ _ ↦ False) db' d' := by
    refine (wp_bind _ _).2 (wp_readFile (fun hf ↦ hf) trivial (fun _ hf ↦ hf.elim) fun _ ↦ ?_)
    have hpath : (SSTable.loaded .onePercent (DB.sstPath 0) clean).path = DB.sstPath 0 := rfl
    rw [hpath, hnone]
    rfl
  obtain ⟨es, _, _, hnewest, rfl⟩ := hscan.exists_ok (device_total .none) hempty
  exact absurd ((hnewest.mem_iff ⟨[107], [50], false⟩).2 ⟨rfl, hlive⟩) List.not_mem_nil

end Snapshot

end KeyValStore
