import KeyValStore.History.Newest
import KeyValStore.Recovery.Leftovers
import KeyValStore.Recovery.Scanned

/-!
# A session refines a map

Whatever the directory it was opened on, as long as its tables have been built by the program, an
open store shows a map, and every operation makes of it what it should (`wp_run_shows`); so after
any sequence of operations a `get` answers the last value written, or what it answered at the start
(`refinesMap`).  The one proviso is that no table is built under the name of one that is live, as
may happen once the 64-bit counter has wrapped around (`not_refinesMap`).
-/

set_option autoImplicit false

namespace KeyValStore

open Crash Std Overlay
open DB (applied flushedDb flushedDisk mergedDb mergedDisk loggedDisk shown walSegPath sstPath
  buildEvent Keeps)

/-! ## What an open store shows -/

/-- **An open store that shows a map.** -/
def Shows (sz : Sizing) (v : Bytes → Option Bytes) (db : DB) (d : Disk) : Prop :=
  ∃ ts, Layered sz db d ts ∧ db.wal = some (walSegPath db.currentWalId) ∧
    shown db.memtable.data ts = v

/-- A table is built with a Bloom filter that fits, under a name that no live table has. -/
def BuildsApart (sz : Sizing) (ev : Event (Call Mark) DB Disk) : Prop :=
  ∀ path entries, ev.call = .mark (.build path entries) →
    BloomFits sz entries ∧ ∀ t ∈ ev.mem.sstables, t.path ≠ path

/-- The watch that assumes this of every build. -/
def apart (sz : Sizing) : Watch (Call Mark) DB Disk := ⟨BuildsApart sz, fun _ ↦ True⟩

section Shows

variable {sz : Sizing} {v : Bytes → Option Bytes} {db : DB} {d : Disk} {ts : List (ℕ × Entries)}

theorem Shows.answers (h : Shows sz v db d) : Answers db d v := by
  obtain ⟨ts, hl, -, rfl⟩ := h
  exact answers_shown hl.tables hl.stored hl.short

/-- The number of a table that is built apart is not in use. -/
theorem Layered.ne_of_apart (h : Layered sz db d ts) {entries : Entries}
    (hbuild : (apart sz).assume (buildEvent db entries d)) : ∀ t ∈ ts, t.1 ≠ db.nextSstId := by
  intro t ht heq
  have hmem : SSTable.loaded sz (sstPath t.1) t.2 ∈ db.sstables := by
    rw [h.tables]
    exact List.mem_map_of_mem ht
  refine (hbuild _ _ rfl).2 _ hmem ?_
  rw [← heq]
  rfl

/-- **Flushes and merges keep the map.** -/
theorem keeps_shows (sz : Sizing) (v : Bytes → Option Bytes) :
    Keeps sz (apart sz) (Shows sz v) where
  idle _ _ _ _ _ _ := trivial
  flushBuild _ _ := trivial
  flush := by
    rintro db d ⟨ts, hl, -, rfl⟩ - hbuild
    have hne := hl.ne_of_apart hbuild
    have hopen := (SSTable.Fits.mk hl.memShort (hbuild _ _ rfl).1).openable
    refine ⟨hopen, fun _ _ ↦ trivial, _,
      ⟨?_, hl.stored.flushed hne hopen, ?_, Entries.isShort_empty,
      u64_lt _⟩, rfl, shown_flush db.nextSstId db.memtable.data ts⟩
    · rw [DB.flushedDb, DB.flushListed, hl.tables]
      rfl
    · exact List.forall_mem_cons.2 ⟨hl.memShort, hl.short⟩
  merge := by
    rintro db d ⟨ts, hl, hwal, rfl⟩ -
    refine ⟨ts, hl.tables, hl.stored, trivial, fun hbuild ↦ ?_⟩
    have hne := hl.ne_of_apart hbuild
    have hshort := DB.isShort_cleanOf sz ts
    have hopen := (SSTable.Fits.mk hshort (hbuild _ _ rfl).1).openable
    refine ⟨hopen, fun _ _ ↦ trivial, _,
      ⟨rfl, DB.Stored.merged hne hopen d, ?_, hl.memShort, u64_lt _⟩,
      hwal, shown_merge sz db.nextSstId db.memtable.data hl.short⟩
    exact List.forall_mem_singleton.2 hshort

/-- **An operation makes of the map what it should.** -/
theorem wp_run_shows {op : Op} (hop : ∀ r ∈ op.record, r.IsShort) (h : Shows sz v db d) :
    (op.run sz).wp reliable (apart sz) (fun _ db d ↦ Shows sz (op.apply v) db d) (fun _ _ _ ↦ False)
      db d := by
  have hkeeps := keeps_shows sz (op.apply v)
  cases hr : op.record with
  | some r =>
    obtain ⟨ts, hl, hwal, rfl⟩ := h
    rw [run_of_record hr]
    refine hkeeps.wp_write hwal (fun _ _ _ _ _ ↦ trivial)
      ⟨ts, ⟨hl.tables, ?_, hl.short, ?_, hl.next⟩, hwal, ?_⟩
    · exact hl.stored.congr fun t _ ↦ Disk.getElem?_modify_ne (DB.sstPath_ne_walSegPath t.1 _)
    · exact isShort_applyRecord (hop r hr) hl.memShort
    · rw [apply_of_record hr]
      exact shown_applyRecord r db.memtable ts
  | none =>
    rw [apply_of_record_none hr] at hkeeps ⊢
    cases op with
    | put k x => cases hr
    | del k => cases hr
    | flush => exact wp_mono (hkeeps.wp_flush h) (fun _ _ _ h ↦ h.1) fun _ _ _ ↦ id
    | compact => exact hkeeps.wp_compact h

/-- **A sequence of operations** makes of the map what they make of it one after the other. -/
theorem wp_runAll_shows {ops : List Op} (hops : ∀ op ∈ ops, ∀ r ∈ op.record, r.IsShort)
    (h : Shows sz v db d) : (forM ops fun op ↦ op.run sz : Io DB PUnit).wp reliable (apart sz)
      (fun _ db d ↦ Shows sz (Op.applyAll ops v) db d) (fun _ _ _ ↦ False) db d := by
  induction ops generalizing v db d with
  | nil => exact h
  | cons op ops ih =>
    rw [List.forall_mem_cons] at hops
    rw [List.forM_cons, wp_bind]
    exact wp_mono (wp_run_shows hops.1 h) (fun _ _ _ h ↦ ih hops.2 h) fun _ _ _ ↦ id

end Shows

/-! ## Opening a store -/

/-- A directory whose tables have been built by the program: those its MANIFEST lists, or all there
are if it has none. -/
structure BuiltTables (sz : Sizing) (d : Disk) (ts : List (ℕ × Entries)) : Prop where
  /-- The files of the tables are there. -/
  stored : DB.Stored sz d ts
  /-- Their strings are short. -/
  short : ∀ t ∈ ts, t.2.IsShort
  /-- The numbers are 64-bit numbers. -/
  ids : ∀ t ∈ ts, t.1 < 2 ^ 64
  /-- The MANIFEST lists them. -/
  listed : ∀ f data, d[Manifest.dest]? = some f → Manifest.parse f.content = .ok data →
    data.liveSstables = ts.map (sstPath ·.1)
  /-- Without a MANIFEST they are different. -/
  distinct : d[Manifest.dest]? = none → (ts.map (·.1)).Nodup
  /-- There are then no other tables. -/
  only : d[Manifest.dest]? = none → ∀ (n : Name) (f : File), d[n]? = some f →
    extension n = ascii ".sst" → (stem n).take 4 = ascii "sst_" → ∃ t ∈ ts, n = sstPath t.1

section Opening

variable {sz : Sizing} {d d' : Disk} {ts : List (ℕ × Entries)} {opts : Options} {db : DB}

/-- Recovery finds the tables, in some order. -/
theorem BuiltTables.exists_found (h : BuiltTables sz d ts) {gen : ℕ} {found : List (ℕ × SSTable)}
    (hfound : DB.foundTables (DB.swept d) = some (gen, found)) :
    ∃ ts', ts'.Perm ts ∧ found.map (·.2) = DB.tables sz ts' := by
  cases hd : d[Manifest.dest]? with
  | some f =>
    cases hparse : Manifest.parse f.content with
    | error e =>
      rw [DB.foundTables, DB.getElem?_swept DB.isLeftover_dest, hd] at hfound
      simp only [hparse, Except.toOption] at hfound
      cases hfound
    | ok data =>
      have hdata : data = ⟨data.generation, ts.map (sstPath ·.1)⟩ := by
        rw [← h.listed f data hd hparse]
      rw [hdata] at hparse
      rw [DB.foundTables_of_listed hd hparse h.stored h.ids] at hfound
      obtain ⟨-, rfl⟩ := Prod.mk.inj (Option.some.inj hfound)
      exact ⟨ts, .refl _, DB.map_numbered sz ts⟩
  | none =>
    rw [DB.foundTables_of_scanned hd h.stored h.ids (h.distinct hd) (h.only hd)] at hfound
    obtain ⟨-, rfl⟩ := Prod.mk.inj (Option.some.inj hfound)
    obtain ⟨ts', hperm, hsort⟩ := DB.exists_mergeSort_tables sz ts DB.stemGe
    exact ⟨ts', hperm, by rw [DB.map_newestFirst, DB.map_numbered, hsort]⟩

/-- **What recovery opens shows a map.** -/
theorem BuiltTables.exists_shows (h : BuiltTables sz d ts)
    (hdb : DB.recoverOf opts d = some (db, d')) : ∃ v, Shows sz v db d' := by
  obtain ⟨gen, found, segs, hfound, -, rfl, rfl⟩ := DB.recoverOf_eq_some_iff.1 hdb
  obtain ⟨ts', hperm, htables⟩ := h.exists_found hfound
  have hstored : DB.Stored sz d ts' := fun t ht ↦ h.stored t (hperm.mem_iff.1 ht)
  have hpaths : ∀ t ∈ ts', sstPath t.1 ∈ found.map (·.2.path) := fun t ht ↦ by
    have hmem : SSTable.loaded sz (sstPath t.1) t.2 ∈ found.map (·.2) :=
      htables ▸ List.mem_map_of_mem ht
    obtain ⟨u, hu, heq⟩ := List.mem_map.1 hmem
    exact List.mem_map.2 ⟨u, hu, by rw [heq]; rfl⟩
  refine ⟨_, ts',
    ⟨htables, hstored.recovered hpaths _ {}, fun t ht ↦ h.short t (hperm.mem_iff.1 ht), ?_,
    DB.nextAfter_lt found⟩, rfl, rfl⟩
  refine isShort_replayed fun r hr ↦ ?_
  obtain ⟨s, -, hs⟩ := List.mem_flatMap.1 hr
  exact short_of_mem_logRecords hs

/-- **A session on the directory refines a map**: once a recovery has returned, the store answers
from a map, and after the operations from what they should make of it. -/
def RefinesMap (sz : Sizing) (A : Event (Call Mark) DB Disk → Prop) (opts : Options) (d : Disk)
    (ops : List Op) : Prop :=
  ∀ tr db d', Exec reliable DB.recover { opts } d tr (.ok () db d') → ∃ v, Answers db d' v ∧
    (forM ops fun op ↦ op.run sz : Io DB PUnit).ReturnsIf reliable A db d' fun _ db₁ d₁ ↦
      Answers db₁ d₁ fun key ↦ (Op.last ops key).getD (v key)

/-- **Within a session the store refines a map**, as long as no table is built under the name of one
that is live. -/
theorem refinesMap (h : BuiltTables sz d ts) (opts : Options) {ops : List Op}
    (hops : ∀ op ∈ ops, ∀ r ∈ op.record, r.IsShort) :
    RefinesMap sz (BuildsApart sz) opts d ops := by
  intro tr db d' hx
  obtain ⟨v, hv⟩ := h.exists_shows (DB.exec_recover hx)
  refine ⟨v, hv.answers, Prog.returnsIf_of_wp ?_⟩
  refine wp_mono (wp_runAll_shows hops hv) (fun _ db₁ d₁ h₁ ↦ ?_) fun _ _ _ ↦ id
  have hlast : (fun key ↦ (Op.last ops key).getD (v key)) = Op.applyAll ops v :=
    funext fun key ↦ (Op.applyAll_apply ops v key).symm
  rw [hlast]
  exact h₁.answers

end Opening

/-! ## A counter that wraps around -/

theorem builtTables_listing {sz : Sizing} {d : Disk} {ts : List (ℕ × Entries)} {gen : ℕ}
    (hstored : DB.Stored sz d ts) (hshort : ∀ t ∈ ts, t.2.IsShort) (hids : ∀ t ∈ ts, t.1 < 2 ^ 64)
    (hgen : gen < 2 ^ 64) : BuiltTables sz (DB.listing gen ts d) ts := by
  have hdest : (DB.listing gen ts d)[Manifest.dest]? =
      some (.saved (Manifest.text ⟨gen, ts.map (sstPath ·.1)⟩)) := ExtTreeMap.getElem?_insert_self
  have hsome : (DB.listing gen ts d)[Manifest.dest]? ≠ none := by
    rw [hdest]
    exact Option.some_ne_none _
  refine ⟨hstored.listing gen, hshort, hids, fun f data hf hparse ↦ ?_, fun h ↦ absurd h hsome,
    fun h ↦ absurd h hsome⟩
  obtain rfl := Option.some.inj (hdest.symm.trans hf)
  rw [File.content_saved, DB.parse_listing hgen] at hparse
  obtain rfl := Except.ok.inj hparse
  rfl

theorem refinesMap_pair : RefinesMap .onePercent (BuildsApart .onePercent) {}
    (DB.listing 1 (DB.pairTables 3) (DB.pairFiles 3))
    [.put [97] [], .del [107], .flush, .compact] := by
  have hscannable := DB.scannable_pairFiles (n := 3) (by norm_num)
  refine refinesMap
    (builtTables_listing hscannable.stored hscannable.short hscannable.ids (by norm_num)) {}
    fun op hop r hr ↦ ?_
  simp only [List.mem_cons, List.not_mem_nil, or_false] at hop
  rcases hop with rfl | rfl | rfl | rfl
  · obtain rfl := Option.some.inj hr
    decide
  · obtain rfl := Option.some.inj hr
    decide
  · cases hr
  · cases hr

/-- Tables with the last number but one and the first one. -/
def farTables (n : ℕ) : List (ℕ × Entries) := [(n, SSTable.single), (0, SSTable.single)]

/-- Their files, with a MANIFEST. -/
def farFiles (n : ℕ) : Disk :=
  DB.listing 1 (farTables n)
    (((∅ : Disk).insert (sstPath 0) (.saved (SSTable.image .onePercent SSTable.single))).insert
      (sstPath n) (.saved (SSTable.image .onePercent SSTable.single)))

theorem builtTables_farFiles {n : ℕ} (hn : n ≠ 0) (hlt : n < 2 ^ 64) :
    BuiltTables .onePercent (farFiles n) (farTables n) := by
  have hnil : DB.Stored .onePercent ∅ [] := fun t ht ↦ absurd ht List.not_mem_nil
  have hone :=
    hnil.built (n := 0) (fun _ ht ↦ absurd ht List.not_mem_nil) SSTable.fits_single.openable
  refine builtTables_listing
    (hone.built (by simpa using hn.symm) SSTable.fits_single.openable) ?_ ?_ (by norm_num)
  · simp only [farTables, List.forall_mem_cons]
    exact ⟨SSTable.fits_single.short, SSTable.fits_single.short, fun _ h ↦
        absurd h List.not_mem_nil⟩
  · simp only [farTables, List.forall_mem_cons]
    exact ⟨hlt, Nat.two_pow_pos 64, fun _ h ↦ absurd h List.not_mem_nil⟩

/-- What is opened on them: the next number is the last one. -/
theorem exists_recoverOf_far {n : ℕ} (hn : n + 2 = 2 ^ 64) : ∃ db d,
    DB.recoverOf {} (farFiles n) = some (db, d) ∧
      db.sstables = DB.tables .onePercent (farTables n) ∧
      DB.Stored .onePercent d (farTables n) ∧ db.memtable = {} ∧
      db.nextSstId = n + 1 ∧ db.opts = {} ∧ db.wal = some (walSegPath db.currentWalId) := by
  have hbuilt : BuiltTables .onePercent (farFiles n) (farTables n) :=
    builtTables_farFiles (by omega) (by omega)
  have hfound : DB.foundTables (DB.swept (farFiles n)) =
      some (1, DB.numbered .onePercent (farTables n)) :=
    DB.foundTables_of_listed ExtTreeMap.getElem?_insert_self
      (by rw [File.content_saved, DB.parse_listing (by norm_num)]) hbuilt.stored hbuilt.ids
  have hlog : ∀ m, extension m = ascii ".log" → (DB.cleaned (DB.numbered .onePercent (farTables n))
      (farFiles n))[m]? = (∅ : Disk)[m]? := fun m hm ↦ by
    have hsst : ∀ id, m ≠ sstPath id := fun id ↦
      DB.ne_of_extension (by rw [hm, DB.extension_sstPath]; decide)
    rw [DB.cleaned, DB.getElem?_kept_segment hm, farFiles, DB.listing,
      Disk.getElem?_insert_ne (DB.ne_of_extension (by rw [hm]; decide)),
      Disk.getElem?_insert_ne (hsst n), Disk.getElem?_insert_ne (hsst 0)]
  have hsegs : DB.segmentsOf (DB.cleaned (DB.numbered .onePercent (farTables n)) (farFiles n)) =
      some [] := by
    rw [DB.segmentsOf_congr hlog, DB.segmentsOf_empty]
  refine ⟨_, _, DB.recoverOf_eq_some_iff.2 ⟨1, _, [], hfound, hsegs, rfl, rfl⟩, DB.map_numbered _ _,
    hbuilt.stored.recovered (fun t ht ↦ DB.mem_paths_numbered ht) _ {}, rfl, ?_, rfl, rfl⟩
  show max (u64 (n + 1)) (max (u64 (0 + 1)) 0) = n + 1
  simp only [u64]
  omega

/-- The write that is in both tables. -/
def tableWrite : WalRecord := ⟨WalOp.put, [107], [118]⟩

/-- A write to another key. -/
def otherWrite : WalRecord := ⟨WalOp.put, [97], []⟩

theorem single_eq : SSTable.single = (DB.applyRecord tableWrite {}).data := by
  rw [data_applyRecord]
  rfl

theorem cleanOf_far (n m : ℕ) :
    DB.cleanOf .onePercent ((m, (DB.applyRecord otherWrite {}).data) :: farTables n) =
      (DB.applyRecord tableWrite (DB.applyRecord otherWrite {})).data := by
  have hshort : ∀ t ∈ (m, (DB.applyRecord otherWrite {}).data) :: farTables n, t.2.IsShort := by
    simp only [farTables, List.forall_mem_cons]
    exact ⟨isShort_applyRecord (by decide) Entries.isShort_empty, SSTable.fits_single.short,
      SSTable.fits_single.short, fun _ h ↦ absurd h List.not_mem_nil⟩
  have hempty : ∀ key : Bytes, ({} : MemTable).data[key]? = none :=
    fun _ ↦ ExtTreeMap.getElem?_empty
  refine ExtTreeMap.ext_getElem? fun key ↦ ?_
  rw [DB.getElem?_cleanOf _ hshort, farTables, single_eq]
  simp only [List.findSome?_cons, List.findSome?_nil, getElem?_applyRecord, hempty]
  by_cases hk : key = tableWrite.key
  · rw [hk]
    rfl
  · by_cases ha : key = otherWrite.key
    · rw [ha]
      rfl
    · simp only [if_neg hk, if_neg ha]
      rfl

/-- **The run**: the flush takes the last number, and the merge that of the first table. -/
theorem exists_run_far {n : ℕ} (hn : n + 2 = 2 ^ 64) {db : DB} {d : Disk}
    (htables : db.sstables = DB.tables .onePercent (farTables n))
    (hstored : DB.Stored .onePercent d (farTables n)) (hmem : db.memtable = {})
    (hnext : db.nextSstId = n + 1) (hopts : db.opts = {})
    (hwal : db.wal = some (walSegPath db.currentWalId)) :
    ∃ tr db' d' clean,
      Exec reliable (forM [Op.put [97] [], .compact] fun op ↦ op.run .onePercent : Io DB PUnit)
      db d tr (.ok () db' d') ∧
      (∀ ev ∈ tr, OnBuild (fun entries _ _ ↦ BloomFits .onePercent entries) ev) ∧
      db'.memtable.data = ∅ ∧ db'.sstables = [.loaded .onePercent (sstPath 0) clean] ∧
      d'[sstPath 0]? = none := by
  let P : Entries → DB → Disk → Prop := fun entries _ _ ↦ BloomFits .onePercent entries
  have hwp : (forM [Op.put [97] [], .compact] fun op ↦ op.run .onePercent : Io DB PUnit).wp
      reliable (onBuilds P) (fun _ db' d' ↦ ∃ clean, db'.memtable.data = ∅ ∧
        db'.sstables = [.loaded .onePercent (sstPath 0) clean] ∧
        d'[sstPath 0]? = none) (fun _ _ _ ↦ False) db d := by
    have hmem₁ : (applied otherWrite db).memtable = DB.applyRecord otherWrite {} := by
      rw [applied, hmem]
    have hflush : SSTable.Openable .onePercent (applied otherWrite db).memtable.data := by
      rw [hmem₁]
      exact Snapshot.openable_applyRecord (by decide)
    have hzero : (flushedDb .onePercent (applied otherWrite db)).nextSstId = 0 := by
      show u64 (db.nextSstId + 1) = 0
      rw [hnext, hn, u64, Nat.mod_self]
    rw [List.forM_cons, wp_bind, run_of_record (r := otherWrite) rfl]
    refine DB.wp_writeRecord throwing_none hwal (DB.walSegPath_ne_tmp _)
      (fun c m d' hc _ ↦ onBuild_of_isPlain hc) (DB.wp_maybeFlush (fun _ ↦ ?_) fun hlarge ↦ ?_)
    rotate_left
    · have hbytes : ¬({} : Options).memtableFlushBytes ≤ (DB.applyRecord otherWrite {}).bytes :=
        by decide
      rw [hmem₁] at hlarge
      exact absurd (hopts ▸ hlarge) hbytes
    rw [List.forM_cons, wp_bind]
    refine DB.wp_compactLocked ?_ ?_
    · show ¬db.sstables.length < 2
      rw [htables, DB.length_tables]
      exact lt_irrefl 2
    refine wp_flush_onBuilds (hmem₁ ▸ empty_applyRecord _ _) hflush hflush.bloom ?_
    have hfree : ∀ t ∈ farTables n, t.1 ≠ (applied otherWrite db).nextSstId := by
      show ∀ t ∈ farTables n, t.1 ≠ db.nextSstId
      rw [hnext]
      simp [farTables]
    have hlogged : DB.Stored .onePercent (loggedDisk (walSegPath db.currentWalId) otherWrite d)
        (farTables n) :=
      hstored.congr fun t _ ↦ Disk.getElem?_modify_ne (DB.sstPath_ne_walSegPath t.1 _)
    have hclean : SSTable.Openable .onePercent
        (DB.cleanOf .onePercent ((db.nextSstId, (applied otherWrite db).memtable.data) ::
          farTables n)) := by
      rw [hmem₁, cleanOf_far]
      refine openable_of_size_le (isShort_applyRecord (by decide)
        (isShort_applyRecord (by decide) Entries.isShort_empty)) ?_
      exact (size_applyRecord_le _ _).trans
        (Nat.succ_le_succ ((size_applyRecord_le _ _).trans (by decide)))
    have hlisted : (flushedDb .onePercent (applied otherWrite db)).sstables = DB.tables .onePercent
        ((db.nextSstId, (applied otherWrite db).memtable.data) :: farTables n) := by
      rw [DB.tables_cons, ← htables]
      rfl
    refine wp_merge_onBuilds hlisted (hlogged.flushed hfree hflush) hclean hclean.bloom
      ⟨DB.cleanOf .onePercent ((db.nextSstId, (applied otherWrite db).memtable.data) ::
        farTables n), rfl, ?_, ?_⟩
    · rw [mergedDb, hzero]
    · rw [mergedDisk, getElem?_eraseAll, if_pos]
      exact List.mem_map.2 ⟨(0, SSTable.single), by simp [farTables], rfl⟩
  obtain ⟨tr, db', d', hx, htr, clean, hdata, hone, hnone⟩ := exists_exec hwp
  exact ⟨tr, db', d', clean, hx, htr, hdata, hone, hnone⟩

/-- A lookup in a table whose file is missing finds nothing. -/
theorem wp_lookup_missing {t : SSTable} {key : Bytes} {db : DB} {d : Disk}
    {Q : LookupResult → DB → Disk → Prop} {E : Error → DB → Disk → Prop} (h : d[t.path]? = none)
    (hQ : Q .notFound db d) : (t.lookup key : Io DB _).wp reliable .blind Q E db d := by
  rw [SSTable.lookup, wp_ite]
  split
  · exact hQ
  rw [wp_ite]
  split
  · exact hQ
  cases t.seekPoint key with
  | none => exact hQ
  | some ip =>
    refine (wp_bind _ _).2 (wp_readFile (fun hf ↦ hf) trivial (fun _ hf ↦ hf.elim) fun _ ↦ ?_)
    rw [h]
    exact hQ

/-- **A number that is in use** is taken once the counter has wrapped around, and the table is
lost. -/
theorem not_refinesMap : ∃ ts d ops, BuiltTables .onePercent d ts ∧
    (∀ op ∈ ops, ∀ r ∈ op.record, r.IsShort) ∧
      ¬RefinesMap .onePercent (OnBuild fun entries _ _ ↦ BloomFits .onePercent entries)
        {} d ops := by
  obtain ⟨n, hn⟩ : ∃ n, n + 2 = 2 ^ 64 := ⟨2 ^ 64 - 2, by norm_num⟩
  have hbuilt : BuiltTables .onePercent (farFiles n) (farTables n) :=
    builtTables_farFiles (by omega) (by omega)
  refine ⟨farTables n, farFiles n, [.put [97] [], .compact], hbuilt,
    fun op hop r hr ↦ ?_, fun h ↦ ?_⟩
  · simp only [List.mem_cons, List.not_mem_nil, or_false] at hop
    rcases hop with rfl | rfl
    · obtain rfl := Option.some.inj hr
      decide
    · cases hr
  obtain ⟨db, d, hdb, htables, hstored, hmem, hnext, hopts, hwal⟩ := exists_recoverOf_far hn
  obtain ⟨tr, hx⟩ := DB.exists_exec_recover hdb
  obtain ⟨tr', db', d', clean, hx', htr, hdata, hone, hnone⟩ :=
    exists_run_far hn htables hstored hmem hnext hopts hwal
  obtain ⟨v, hv, hruns⟩ := h tr db d hx
  -- the key is there at the start
  have hstart : v [107] = some [118] := by
    have hlayer : SSTable.single.layer [107] = some (some [118]) := by
      rw [Entries.layer, SSTable.single, ExtTreeMap.getElem?_insert_self]
      rfl
    have hempty : ({} : MemTable).data = ∅ := rfl
    rw [hv.unique (answers_shown htables hstored hbuilt.short), hmem, hempty, farTables,
      shown_flush, shown, visible_above, hlayer]
  -- and not at the end
  have hend : (DB.get [107]).wp reliable .blind (fun r _ _ ↦ r = none)
      (fun _ _ _ ↦ False) db' d' := by
    rw [DB.get, wp_bind, Crash.wp_get, MemTable.raw, hdata, ExtTreeMap.getElem?_empty, hone]
    exact (wp_bind _ _).2 (wp_lookup_missing hnone rfl)
  rcases hruns tr' _ hx' htr with ⟨_, hcut⟩ | ⟨_, _, _, heq, hanswers⟩
  · cases hcut
  cases heq
  obtain ⟨r, _, _, ⟨hr, -, -⟩, hr'⟩ := (hanswers [107]).exists_ok (device_total .none) hend
  have hlast : Op.last [.put [97] [], .compact] [107] = none := by decide
  simp only [hr', hlast, Option.getD_none, hstart] at hr
  cases hr

end KeyValStore
