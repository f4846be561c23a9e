import KeyValStore.Recovery.Depends
import KeyValStore.Store.View

/-!
# The order of the tables without a MANIFEST

Recovery sorts the tables it finds in a directory without a MANIFEST by their names, as strings, and
numbers are padded to six digits only.  `scansNewestFirst_iff` says when that order is the order of
the numbers.
-/

set_option autoImplicit false

namespace KeyValStore

open Crash Std

namespace DB

/-! ## A directory without a MANIFEST -/

/-- The length of the numeral in the name of a table. -/
def width (id : ℕ) : ℕ := (Codec.padded 6 id).length

/-- A directory without a MANIFEST that holds some tables, listed by decreasing number. -/
structure Scannable (sz : Sizing) (d : Disk) (ts : List (ℕ × Entries)) : Prop where
  /-- There is no MANIFEST. -/
  manifest : d[Manifest.dest]? = none
  /-- The files of the tables are there. -/
  stored : Stored sz d ts
  /-- Their strings are short. -/
  short : ∀ t ∈ ts, t.2.IsShort
  /-- The numbers are 64-bit numbers. -/
  ids : ∀ t ∈ ts, t.1 < 2 ^ 64
  /-- Each table comes before those with smaller numbers. -/
  sorted : ts.Pairwise fun a b ↦ b.1 < a.1
  /-- There are no other tables. -/
  only : ∀ (n : Name) (f : File), d[n]? = some f → extension n = ascii ".sst" →
    (stem n).take 4 = ascii "sst_" → ∃ t ∈ ts, n = sstPath t.1
  /-- The numbers of the segments can be read. -/
  segments : ∀ (n : Name) (f : File), d[n]? = some f →
    ∃ o, scannedId (ascii ".log") (ascii "wal_") n = .ok o

/-- The directory with a MANIFEST that lists the tables. -/
def listing (gen : ℕ) (ts : List (ℕ × Entries)) (d : Disk) : Disk :=
  d.insert Manifest.dest (.saved (Manifest.text ⟨gen, ts.map (sstPath ·.1)⟩))

/-- Recovery puts the tables into the given order, with and without a MANIFEST, and the store then
answers from the MemTable over the tables in that order. -/
def ScansNewestFirst (sz : Sizing) (opts : Options) (d : Disk) (ts : List (ℕ × Entries)) : Prop :=
  ∃ mem : Entries, ∀ d₀, (d₀ = d ∨ ∃ gen < 2 ^ 64, d₀ = listing gen ts d) →
    recover.Returns reliable { opts } d₀ fun _ db d' ↦
      db.sstables = tables sz ts ∧ Answers db d' (shown mem ts)

/-! ## What recovery finds -/

section Found

variable {sz : Sizing} {d : Disk} {ts : List (ℕ × Entries)} {opts : Options}

/-- The open tables with their numbers. -/
def numbered (sz : Sizing) (ts : List (ℕ × Entries)) : List (ℕ × SSTable) :=
  ts.map fun t ↦ (t.1, .loaded sz (sstPath t.1) t.2)

theorem map_numbered (sz : Sizing) (ts : List (ℕ × Entries)) :
    (numbered sz ts).map (·.2) = tables sz ts := by
  rw [numbered, List.map_map]
  rfl

theorem Stored.openOf (h : Stored sz d ts) {t : ℕ × Entries} (ht : t ∈ ts) :
    openOf d (sstPath t.1) = some (.loaded sz (sstPath t.1) t.2) := by
  obtain ⟨hopen, hfile⟩ := h t ht
  obtain ⟨f, hf, hcontent⟩ := Option.map_eq_some_iff.1 hfile
  rw [DB.openOf, hf, Option.bind_some, hcontent, hopen.loadMeta_image]
  rfl

@[simp] theorem isLeftover_sstPath (id : ℕ) : isLeftover (sstPath id) = false := by
  simp [isLeftover]

theorem Stored.swept (h : Stored sz d ts) : Stored sz (swept d) ts :=
  h.congr fun t _ ↦ getElem?_swept (isLeftover_sstPath t.1)

theorem Stored.listing (h : Stored sz d ts) (gen : ℕ) : Stored sz (listing gen ts d) ts :=
  h.congr fun t _ ↦ Disk.getElem?_insert_ne (sstPath_ne_dest t.1)

/-- The tables stay where they are. -/
theorem Stored.recovered (h : Stored sz d ts) {found : List (ℕ × SSTable)}
    (hfound : ∀ t ∈ ts, sstPath t.1 ∈ found.map (·.2.path)) (w : ℕ) (f : File) :
    Stored sz
      ((without (isOrphan found) (listedDisk found (DB.swept d))).insertIfNew (walSegPath w) f)
      ts := h.congr fun t ht ↦ by
  have horphan : isOrphan found (sstPath t.1) = false :=
    Bool.eq_false_iff.2 fun hn ↦ (isOrphan_iff.1 hn).2 (hfound t ht)
  rw [Disk.getElem?_insertIfNew_ne (sstPath_ne_walSegPath t.1 w),
    getElem?_kept (isLeftover_sstPath t.1) horphan (sstPath_ne_dest t.1)]

/-- What recovery finds without a MANIFEST. -/
theorem foundTables_of_scanned (hnone : d[Manifest.dest]? = none) (hstored : Stored sz d ts)
    (hids : ∀ t ∈ ts, t.1 < 2 ^ 64) (hdistinct : (ts.map (·.1)).Nodup)
    (honly : ∀ (n : Name) (f : File), d[n]? = some f → extension n = ascii ".sst" →
      (stem n).take 4 = ascii "sst_" → ∃ t ∈ ts, n = sstPath t.1) :
    DB.foundTables (DB.swept d) = some (1, newestFirst (numbered sz ts)) := by
  let c : Name → Bool := fun n ↦ extension n = ascii ".sst" && (stem n).take 4 = ascii "sst_"
  have hmanifest : (DB.swept d)[Manifest.dest]? = none := by
    rw [getElem?_swept (by decide), hnone]
  have hfile : ∀ {n f}, (DB.swept d)[n]? = some f → d[n]? = some f := fun {n f} hf ↦ by
    rw [DB.swept, getElem?_without] at hf
    split at hf
    · cases hf
    · exact hf
  have hmap : collect (scannedTable (DB.swept d)) (ts.map (sstPath ·.1)) =
      some (numbered sz ts) := by
    refine collect_map fun t ht ↦ ?_
    rw [scannedTable, scannedId_sstPath (hids t ht), hstored.swept.openOf ht]
    rfl
  have hskip : ∀ n ∈ (DB.swept d).keys, c n = false → scannedTable (DB.swept d) n = some none := by
    intro n _ hn
    have hid : scannedId (ascii ".sst") (ascii "sst_") n = .ok none := by
      rw [scannedId]
      split
      · rfl
      · rename_i hext
        rw [if_pos]
        simp only [c, not_not.1 hext, decide_true, Bool.true_and, decide_eq_false_iff_not] at hn
        exact .inr hn
    rw [scannedTable, hid]
    rfl
  have hperm : (ts.map (sstPath ·.1)).Perm ((DB.swept d).keys.filter c) := by
    have hnodup : (ts.map (sstPath ·.1)).Nodup := by
      refine List.pairwise_map.2 ((List.pairwise_map.1 hdistinct).imp fun hne heq ↦ ?_)
      exact hne (sstPath_inj.1 heq)
    refine (List.perm_ext_iff_of_nodup hnodup (ExtTreeMap.nodup_keys.filter _)).2 fun n ↦ ?_
    rw [List.mem_filter, mem_of_perm_keys (.refl _), List.mem_map]
    constructor
    · rintro ⟨t, ht, rfl⟩
      obtain ⟨f, hf, -⟩ := Option.map_eq_some_iff.1 (hstored.swept t ht).2
      refine ⟨⟨f, hf⟩, ?_⟩
      simp only [c, extension_sstPath, stem_sstPath, decide_true, Bool.true_and, decide_eq_true_eq]
      rfl
    · rintro ⟨⟨f, hf⟩, hn⟩
      rw [Bool.and_eq_true, decide_eq_true_eq, decide_eq_true_eq] at hn
      obtain ⟨t, ht, rfl⟩ := honly n f (hfile hf) hn.1 hn.2
      exact ⟨t, ht, rfl⟩
  obtain ⟨found, hfound, hp⟩ := collect_perm hperm hmap
  rw [collect_filter hskip] at hfound
  rw [DB.foundTables, hmanifest]
  simp only [hfound, Option.bind_eq_bind, Option.bind_some]
  rw [newestFirst_congr hmap hp]
  rfl

/-- What recovery finds with a MANIFEST. -/
theorem foundTables_of_listed {f : File} {gen : ℕ} (hf : d[Manifest.dest]? = some f)
    (hparse : Manifest.parse f.content = .ok ⟨gen, ts.map (sstPath ·.1)⟩) (hstored : Stored sz d ts)
    (hids : ∀ t ∈ ts, t.1 < 2 ^ 64) :
    DB.foundTables (DB.swept d) = some (gen, numbered sz ts) := by
  have hmap : collect (listedTable (DB.swept d)) (ts.map (sstPath ·.1)) =
      some (numbered sz ts) := by
    refine collect_map fun t ht ↦ ?_
    rw [listedTable, listedId_sstPath (hids t ht), hstored.swept.openOf ht]
    rfl
  rw [DB.foundTables, getElem?_swept (by decide), hf]
  simp only [hparse, Except.toOption, Option.bind_eq_bind, Option.bind_some, hmap]
  rfl

theorem parse_listing {gen : ℕ} (hgen : gen < 2 ^ 64) (ts : List (ℕ × Entries)) :
    Manifest.parse (Manifest.text ⟨gen, ts.map (sstPath ·.1)⟩) =
      .ok ⟨gen, ts.map (sstPath ·.1)⟩ := by
  refine Manifest.parse_text ⟨hgen, fun n hn ↦ ?_⟩
  obtain ⟨t, -, rfl⟩ := List.mem_map.1 hn
  exact Manifest.newline_not_mem_sstPath t.1

theorem Scannable.foundTables (h : Scannable sz d ts) :
    DB.foundTables (DB.swept d) = some (1, newestFirst (numbered sz ts)) :=
  foundTables_of_scanned h.manifest h.stored h.ids
    (List.pairwise_map.2 (h.sorted.imp ne_of_gt)) h.only

theorem Scannable.foundTables_listing (h : Scannable sz d ts) {gen : ℕ} (hgen : gen < 2 ^ 64) :
    DB.foundTables (DB.swept (listing gen ts d)) = some (gen, numbered sz ts) := by
  exact foundTables_of_listed ExtTreeMap.getElem?_insert_self
    (by rw [File.content_saved, parse_listing hgen]) (h.stored.listing gen) h.ids

/-- What recovery makes of a directory once it has found tables there. -/
theorem exists_recoverOf (opts : Options) {found : List (ℕ × SSTable)} {gen : ℕ}
    {segs : List (ℕ × Name)} (hfound : DB.foundTables (DB.swept d) = some (gen, found))
    (hsegs : segmentsOf d = some segs) (hstored : Stored sz d ts)
    (hpaths : ∀ t ∈ ts, sstPath t.1 ∈ found.map (·.2.path)) :
    ∃ db d', recoverOf opts d = some (db, d') ∧ db.sstables = found.map (·.2) ∧ Stored sz d' ts ∧
      db.memtable = replayed (segs.flatMap fun s ↦ logRecords d[s.2]?) := by
  let db := openedDb (scannedSegmentsDb d segs (foundDb opts gen found))
  refine ⟨db, _, ?_, rfl, hstored.recovered hpaths db.currentWalId {}, rfl⟩
  rw [recoverOf_eq, hfound, Option.bind_eq_bind, Option.bind_some, hsegs]
  rfl

theorem Scannable.segmentsOf (h : Scannable sz d ts) : ∃ segs, DB.segmentsOf d = some segs := by
  have hall : ∀ n ∈ d.keys, (scannedSegment n).isSome = true := by
    intro n hn
    obtain ⟨f, hf⟩ := (mem_of_perm_keys (.refl _) n).1 hn
    obtain ⟨o, ho⟩ := h.segments n f hf
    rw [scannedSegment, ho]
    rfl
  exact ⟨_, by rw [DB.segmentsOf, collect_eq_some.2 ⟨hall, rfl⟩, Option.map_some]⟩

theorem mem_paths_numbered {t : ℕ × Entries} (ht : t ∈ ts) :
    sstPath t.1 ∈ (numbered sz ts).map (·.2.path) := by
  rw [numbered, List.map_map]
  exact List.mem_map.2 ⟨t, ht, rfl⟩

/-- **Without a MANIFEST** the tables come in the order of their names. -/
theorem Scannable.exists_recoverOf (h : Scannable sz d ts) (opts : Options) {segs : List (ℕ × Name)}
    (hsegs : DB.segmentsOf d = some segs) : ∃ db d', recoverOf opts d = some (db, d') ∧
      db.sstables = (tables sz ts).mergeSort stemGe ∧ Stored sz d' ts ∧
      db.memtable = replayed (segs.flatMap fun s ↦ logRecords d[s.2]?) := by
  obtain ⟨db, d', hdb, hts, hrest⟩ := DB.exists_recoverOf opts h.foundTables hsegs h.stored
    fun t ht ↦ ((newestFirst_perm _).map _).mem_iff.2 (mem_paths_numbered ht)
  exact ⟨db, d', hdb, by rw [hts, map_newestFirst, map_numbered], hrest⟩

/-- **With a MANIFEST** they come in its order. -/
theorem Scannable.exists_recoverOf_listing (h : Scannable sz d ts) (opts : Options)
    {segs : List (ℕ × Name)} (hsegs : DB.segmentsOf d = some segs) {gen : ℕ} (hgen : gen < 2 ^ 64) :
    ∃ db d', recoverOf opts (DB.listing gen ts d) = some (db, d') ∧ db.sstables = tables sz ts ∧
      Stored sz d' ts ∧ db.memtable = replayed (segs.flatMap fun s ↦ logRecords d[s.2]?) := by
  have hlog : ∀ n, extension n = ascii ".log" → (DB.listing gen ts d)[n]? = d[n]? := fun n hn ↦
    Disk.getElem?_insert_ne (ne_of_extension (by rw [hn]; decide))
  obtain ⟨db, d', hdb, hts, hstored, hmem⟩ := DB.exists_recoverOf opts (h.foundTables_listing hgen)
    ((segmentsOf_congr hlog).trans hsegs) (h.stored.listing gen) fun t ht ↦ mem_paths_numbered ht
  refine ⟨db, d', hdb, hts.trans (map_numbered sz ts), hstored, hmem.trans (congrArg replayed ?_)⟩
  exact List.flatMap_congr fun s hs ↦ by rw [hlog _ (mem_segmentsOf hsegs hs).2]

end Found

/-! ## The order of the names -/

section Order

variable {sz : Sizing} {d : Disk} {ts : List (ℕ × Entries)} {opts : Options}

/-- The names of two tables are in the order of their numbers. -/
def InOrder (a b : ℕ) : Prop := a * 10 ^ (width b - width a) ≤ b

theorem stemGe_loaded_iff {a b : ℕ × Entries} (h : b.1 < a.1) :
    stemGe (.loaded sz (sstPath a.1) a.2) (.loaded sz (sstPath b.1) b.2) = true ↔
    InOrder b.1 a.1 := by
  rw [stemGe_iff, OrientedCmp.isGE_iff_isLE, SSTable.loaded, SSTable.loaded,
    stem_sstPath, stem_sstPath, Codec.compare_append_left, Codec.isLE_compare_padded_iff h.le]
  rfl

/-- **The tables are sorted by number** exactly if their names are in the order of the numbers. -/
theorem mergeSort_tables_iff (h : ts.Pairwise fun a b ↦ b.1 < a.1) :
    (tables sz ts).mergeSort stemGe = tables sz ts ↔
      ∀ a ∈ ts, ∀ b ∈ ts, a.1 < b.1 → InOrder a.1 b.1 := by
  constructor
  · intro hsort a ha b hb hlt
    have hsorted := List.pairwise_mergeSort stemGe_trans stemGe_total (tables sz ts)
    rw [hsort, tables, List.pairwise_map, List.pairwise_iff_getElem] at hsorted
    rw [List.pairwise_iff_getElem] at h
    obtain ⟨i, hi, rfl⟩ := List.getElem_of_mem ha
    obtain ⟨j, hj, rfl⟩ := List.getElem_of_mem hb
    -- the table with the larger number comes first
    have hji : j < i := by
      rcases Nat.lt_trichotomy i j with hij | rfl | hji
      · exact absurd (h i j hi hj hij) hlt.not_gt
      · exact absurd hlt (lt_irrefl _)
      · exact hji
    exact (stemGe_loaded_iff hlt).1 (hsorted j i hj hi hji)
  · intro hin
    refine List.mergeSort_of_pairwise (List.pairwise_map.2 (h.imp_of_mem fun ha hb hlt ↦ ?_))
    exact (stemGe_loaded_iff hlt).2 (hin _ hb _ ha hlt)

theorem Scannable.mergeSort_of_scansNewestFirst (h : Scannable sz d ts)
    (hscans : ScansNewestFirst sz opts d ts) : (tables sz ts).mergeSort stemGe = tables sz ts := by
  obtain ⟨segs, hsegs⟩ := h.segmentsOf
  obtain ⟨db, d', hdb, hts, -⟩ := h.exists_recoverOf opts hsegs
  obtain ⟨mem, hreturns⟩ := hscans
  obtain ⟨hnewest, -⟩ := (returns_recover_iff hdb).1 (hreturns d (.inl rfl))
  rw [← hts, hnewest]

/-- **When the directory is scanned newest first**: exactly if the number of each table, extended by
zeros to the length of the name of any newer one, is at most the number of that one. -/
theorem scansNewestFirst_iff (h : Scannable sz d ts) :
    ScansNewestFirst sz opts d ts ↔
      ∀ a ∈ ts, ∀ b ∈ ts, a.1 < b.1 → a.1 * 10 ^ (width b.1 - width a.1) ≤ b.1 := by
  refine ⟨fun hscans ↦ (mergeSort_tables_iff h.sorted).1 (h.mergeSort_of_scansNewestFirst hscans),
    fun hin ↦ ?_⟩
  have hsort : (tables sz ts).mergeSort stemGe = tables sz ts :=
    (mergeSort_tables_iff h.sorted).2 hin
  obtain ⟨segs, hsegs⟩ := h.segmentsOf
  obtain ⟨db, d', hdb, hts, hstored, hmem⟩ := h.exists_recoverOf opts hsegs
  refine ⟨db.memtable.data, fun d₀ hd₀ ↦ ?_⟩
  rcases hd₀ with rfl | ⟨gen, hgen, rfl⟩
  · exact returns_recover hdb ⟨hts.trans hsort, answers_shown (hts.trans hsort) hstored h.short⟩
  · obtain ⟨db', d'', hdb', hts', hstored', hmem'⟩ := h.exists_recoverOf_listing opts hsegs hgen
    refine returns_recover hdb' ⟨hts', ?_⟩
    rw [hmem, ← hmem']
    exact answers_shown hts' hstored' h.short

end Order

/-! ## Two tables -/

/-- Two tables with consecutive numbers. -/
def pairTables (n : ℕ) : List (ℕ × Entries) := [(n + 1, SSTable.single), (n, SSTable.single)]

/-- Their files. -/
def pairFiles (n : ℕ) : Disk :=
  ((∅ : Disk).insert (sstPath n) (.saved (SSTable.image .onePercent SSTable.single))).insert
    (sstPath (n + 1)) (.saved (SSTable.image .onePercent SSTable.single))

theorem getElem?_pairFiles {n : ℕ} {p : Name} {f : File} (h : (pairFiles n)[p]? = some f) :
    p = sstPath (n + 1) ∨ p = sstPath n := by
  by_contra hp
  rw [not_or] at hp
  rw [pairFiles, Disk.getElem?_insert_ne hp.1, Disk.getElem?_insert_ne hp.2] at h
  simp at h

theorem scannable_pairFiles {n : ℕ} (hn : n + 1 < 2 ^ 64) :
    Scannable .onePercent (pairFiles n) (pairTables n) := by
  have hnil : Stored .onePercent ∅ [] := fun t ht ↦ absurd ht List.not_mem_nil
  have hone :=
    hnil.built (n := n) (fun _ ht ↦ absurd ht List.not_mem_nil) SSTable.fits_single.openable
  refine ⟨?_, hone.built (by simp) SSTable.fits_single.openable, ?_, ?_, ?_, ?_, ?_⟩
  · cases h : (pairFiles n)[Manifest.dest]? with
    | none => rfl
    | some f => rcases getElem?_pairFiles h with h | h <;> exact absurd h.symm (sstPath_ne_dest _)
  · simp only [pairTables, List.forall_mem_cons]
    exact ⟨SSTable.fits_single.short, SSTable.fits_single.short, fun _ h ↦
        absurd h List.not_mem_nil⟩
  · simp only [pairTables, List.forall_mem_cons]
    exact ⟨hn, by omega, fun _ h ↦ absurd h List.not_mem_nil⟩
  · simp [pairTables]
  · intro p f h _ _
    simpa [pairTables] using getElem?_pairFiles h
  · intro p f h
    refine ⟨none, scannedId_of_extension ?_⟩
    rcases getElem?_pairFiles h with rfl | rfl <;> rw [extension_sstPath] <;> decide

theorem scansNewestFirst_pair : ScansNewestFirst .onePercent {} (pairFiles 3) (pairTables 3) ↔
    ∀ a ∈ pairTables 3, ∀ b ∈ pairTables 3, a.1 < b.1 → a.1 * 10 ^ (width b.1 - width a.1) ≤ b.1 :=
  scansNewestFirst_iff (scannable_pairFiles (by norm_num))

/-- `sst_999999` comes before `sst_1000000`. -/
theorem not_scansNewestFirst_pair : Scannable .onePercent (pairFiles 999999) (pairTables 999999) ∧
    ¬ScansNewestFirst .onePercent {} (pairFiles 999999) (pairTables 999999) := by
  have hscannable : Scannable .onePercent (pairFiles 999999) (pairTables 999999) :=
    scannable_pairFiles (by norm_num)
  refine ⟨hscannable, fun hscans ↦ ?_⟩
  have hsort := hscannable.mergeSort_of_scansNewestFirst hscans
  have hin := (mergeSort_tables_iff hscannable.sorted).1 hsort (999999, SSTable.single)
    (by simp [pairTables]) (1000000, SSTable.single) (by simp [pairTables]) (by norm_num)
  have hwidth : width 999999 = 6 ∧ width 1000000 = 7 := by
    norm_num [width, Codec.length_padded, Codec.decimal]
  norm_num [InOrder, hwidth] at hin

end DB

end KeyValStore
