import KeyValStore.History.Serves

/-!
# Histories that exist

`Reaches` says that some history from the empty directory ends in an open store with the given
contents, and `Leaves` that one ends in a directory with them.  The theorems extend such a history
by a step: on a reliable directory a program that does not throw has a run that is not cut short,
and the rules of the session say what it leaves.
-/

set_option autoImplicit false

namespace KeyValStore

open Crash Std
open DB (applied flushedDb flushedDisk mergedDb mergedDisk loggedDisk walSegPath taken cleanOf
  buildEvent)

/-- A step whose label and whose builds are as they should be. -/
structure Meets (ok : Label → Prop) (P : Entries → DB → Disk → Prop)
    (s : Label × Trace) : Prop where
  /-- The label. -/
  label : ok s.1
  /-- The builds. -/
  build : ∀ ev ∈ s.2, OnBuild P ev

/-- An open store, and what its directory holds. -/
structure Snapshot where
  /-- The object. -/
  db : DB
  /-- The contents of the directory. -/
  contents : Contents

namespace Snapshot

/-- A store opened for the first time. -/
def first (sz : Sizing) : Snapshot where
  db := DB.recovered sz {} ⟨none, [], fun _ ↦ none⟩
  contents := Contents.reopened ⟨none, [], fun _ ↦ none⟩

/-- A record is written. -/
def write (r : WalRecord) (s : Snapshot) : Snapshot := ⟨applied r s.db, DB.logged s.db s.contents r⟩

/-- The MemTable is flushed. -/
def flush (sz : Sizing) (s : Snapshot) : Snapshot :=
  ⟨flushedDb sz s.db, DB.flushOpen s.db s.contents⟩

/-- The tables are merged. -/
def compact (sz : Sizing) (s : Snapshot) : Snapshot :=
  ⟨mergedDb sz s.db s.contents.tables, DB.mergeList sz s.db s.contents⟩

/-- What a crash leaves that loses nothing. -/
def crash (s : Snapshot) : Contents :=
  { s.contents with logs := fun id ↦ (s.contents.logs id).map File.sync }

/-- The store is opened again after a crash. -/
def reopen (sz : Sizing) (s : Snapshot) : Snapshot := ⟨DB.recovered sz {} s.crash, s.crash.reopened⟩

end Snapshot

/-- **Some history ends in an open store** as given. -/
def Reaches (sz : Sizing) (ok : Label → Prop) (P : Entries → DB → Disk → Prop)
    (s : Snapshot) : Prop :=
  ∃ hist d, Run sz (.closed ∅) hist (.opened s.db d) ∧ (∀ l ∈ hist, Meets ok P l) ∧
    Opened sz s.db d s.contents

/-- **Some history ends in a directory** with the given contents. -/
def Leaves (sz : Sizing) (ok : Label → Prop) (P : Entries → DB → Disk → Prop)
    (C : Contents) : Prop :=
  ∃ hist d, Run sz (.closed ∅) hist (.closed d) ∧ (∀ l ∈ hist, Meets ok P l) ∧
    Holds sz d C ∧ C.Sound

section Reach

variable {sz : Sizing} {ok : Label → Prop} {P : Entries → DB → Disk → Prop} {db : DB} {d : Disk}
  {C : Contents}

/-! ## Events that build nothing -/

theorem onBuild_of_isPlain {c : Call Mark} {m : DB} (hc : c.isPlain = true) :
    OnBuild P ⟨c, m, d⟩ := by
  rintro path entries rfl
  cases hc

theorem onBuild_flushEvent {F : Faults Mark} {ev : Event (Call Mark) DB Disk}
    (h : DB.FlushEvent F sz db d ev) : OnBuild P ev := by
  cases h with
  | plain hc h => exact onBuild_of_isPlain hc
  | commit h htmp => rintro path entries ⟨⟩
  | discard hf h => rintro path entries ⟨⟩
  | sealing => rintro path entries ⟨⟩
  | flushed => rintro path entries ⟨⟩

theorem onBuild_mergeEvent {F : Faults Mark} {ts : List (ℕ × Entries)}
    {ev : Event (Call Mark) DB Disk} (h : DB.MergeEvent F sz db ts d ev) : OnBuild P ev := by
  cases h with
  | plain hc h => exact onBuild_of_isPlain hc
  | commit h htmp => rintro path entries ⟨⟩
  | discard hf h => rintro path entries ⟨⟩

theorem onBuild_recoverEvent {ev : Event (Call Mark) DB Disk} (h : DB.RecoverEvent sz C ev) :
    OnBuild P ev := by
  cases h with
  | plain hc hmem h => exact onBuild_of_isPlain hc
  | commit hgen h htmp => rintro path entries ⟨⟩
  | replayed hr h => rintro path entries ⟨⟩

theorem onBuild_buildEvent {entries : Entries} (h : P entries (taken db) d) :
    OnBuild P (buildEvent db entries d) := by
  rintro path entries ⟨⟩
  exact h

/-! ## One step more -/

/-- The watch that looks at builds only. -/
def onBuilds (P : Entries → DB → Disk → Prop) : Watch (Call Mark) DB Disk :=
  ⟨fun _ ↦ True, OnBuild P⟩

theorem exists_exec {p : Io DB Unit} {Q : Unit → DB → Disk → Prop}
    (h : p.wp reliable (onBuilds P) Q (fun _ _ _ ↦ False) db d) :
    ∃ tr db' d', Exec reliable p db d tr (.ok () db' d') ∧ (∀ ev ∈ tr, OnBuild P ev) ∧
      Q () db' d' := by
  obtain ⟨tr, _, db', d', hx, hw, hQ⟩ := Exec.exists_ok (device_total .none) (fun _ ↦ trivial) h
  exact ⟨tr, db', d', hx, hw, hQ⟩

/-- A flush that nothing disturbs. -/
theorem wp_flush_onBuilds {Q : Unit → DB → Disk → Prop} {E : Error → DB → Disk → Prop}
    (hne : db.memtable.empty = false) (hopen : SSTable.Openable sz db.memtable.data)
    (hP : P db.memtable.data (taken db) d)
    (h : Q () (DB.flushedDb sz db) (DB.flushedDisk sz db d)) :
    (DB.flushMemtableLocked sz).wp reliable (onBuilds P) Q E db d :=
  DB.wp_flushMemtableLocked throwing_none hne (onBuild_buildEvent hP) fun _ ↦
    ⟨hopen, fun _ hev ↦ onBuild_flushEvent hev, fun _ _ _ ht ↦ absurd ht DB.not_flushThrew_none, h⟩

/-- A merge that nothing disturbs. -/
theorem wp_merge_onBuilds {Q : Unit → DB → Disk → Prop} {E : Error → DB → Disk → Prop}
    {ts : List (ℕ × Entries)} (hts : db.sstables = DB.tables sz ts) (hstored : DB.Stored sz d ts)
    (hopen : SSTable.Openable sz (cleanOf sz ts)) (hP : P (cleanOf sz ts) (taken db) d)
    (h : Q () (DB.mergedDb sz db ts) (DB.mergedDisk sz db ts d)) :
    (DB.merge sz).wp reliable (onBuilds P) Q E db d :=
  DB.wp_merge throwing_none (fun _ _ _ ↦ id) hts hstored
    (fun _ _ _ hc _ ↦ onBuild_of_isPlain hc) (onBuild_buildEvent hP) fun _ ↦
      ⟨hopen, fun _ hev ↦ onBuild_mergeEvent hev,
        fun _ _ _ ht _ ↦ absurd ht DB.not_mergeThrew_none, h⟩

theorem meets_snoc {hist : List (Label × Trace)} {l : Label} {tr : Trace}
    (h : ∀ s ∈ hist, Meets ok P s) (hl : ok l) (htr : ∀ ev ∈ tr, OnBuild P ev) :
    ∀ s ∈ hist ++ [(l, tr)], Meets ok P s := by
  rw [List.forall_mem_append]
  exact ⟨h, List.forall_mem_singleton.2 ⟨hl, htr⟩⟩

theorem sound_empty : (⟨none, [], fun _ ↦ none⟩ : Contents).Sound := by
  refine ⟨List.Pairwise.nil, fun _ ht ↦ absurd ht List.not_mem_nil, ?_, fun _ h ↦ absurd rfl h⟩
  rintro g ⟨⟩

theorem leaves_empty : Leaves sz ok P ⟨none, [], fun _ ↦ none⟩ :=
  ⟨[], ∅, .nil, fun _ h ↦ absurd h List.not_mem_nil, holds_empty sz, sound_empty⟩

/-- Recovery has a run that returns. -/
theorem exists_recover (hd : Holds sz d C) (hs : C.Sound) (opts : Options) :
    ∃ tr d', Exec reliable DB.recover { opts } d tr (.ok () (DB.recovered sz opts C) d') ∧
      (∀ ev ∈ tr, OnBuild P ev) ∧ Opened sz (DB.recovered sz opts C) d' C.reopened := by
  obtain ⟨tr, _, d', hx, htr, rfl, hd'⟩ := exists_exec (P := P)
    (DB.wp_recover (Q := fun _ db d ↦ db = DB.recovered sz opts C ∧
      Holds sz d C.reopened) hd hs.logs (fun _ hev ↦ onBuild_recoverEvent hev) fun d' hd' ↦
        ⟨rfl, hd'⟩)
  exact ⟨tr, d', hx, htr, opened_recovered hd' hs (fun hg ↦ (hd.first hg).1) opts⟩

theorem Leaves.open (h : Leaves sz ok P C) (opts : Options) (hok : ok (.opened opts)) :
    Reaches sz ok P ⟨DB.recovered sz opts C, C.reopened⟩ := by
  obtain ⟨hist, d, hrun, hmeets, hd, hs⟩ := h
  obtain ⟨tr, d', hx, htr, ho⟩ := exists_recover hd hs opts
  exact ⟨_, d', .snoc hrun (.opened hx), meets_snoc hmeets hok htr, ho⟩

/-- The directory after a crash that loses nothing. -/
theorem Snapshot.holds_crash {s : Snapshot} (ho : Opened sz s.db d s.contents) :
    Holds sz (d.map fun _ f ↦ f.sync) s.crash ∧ s.crash.Sound := by
  obtain ⟨C', hC, hd'⟩ := ho.holds.crashed d.crashed_sync
  have heq : C' = s.crash := by
    obtain ⟨gen, tables, logs⟩ := C'
    obtain ⟨rfl, rfl, -⟩ := hC
    have hlogs : logs = fun id ↦ (s.contents.logs id).map File.sync := by
      funext id
      have hlog := hd'.logs id
      rw [ExtTreeMap.getElem?_map, ho.holds.logs] at hlog
      exact hlog.symm
    rw [hlogs, Snapshot.crash]
  exact heq ▸ ⟨hd', ho.sound.crashed hC⟩

section Operations

variable {s : Snapshot} (ho : Opened sz s.db d s.contents)

include ho

theorem Snapshot.wp_write (op : Op) {r : WalRecord} (hr : op.record = some r)
    (hsmall : ¬(s.write r).db.opts.memtableFlushBytes ≤ (s.write r).db.memtable.bytes) :
    (op.run sz).wp reliable (onBuilds P) (fun _ db' d' ↦ db' = (s.write r).db ∧
      Opened sz (s.write r).db d' (s.write r).contents) (fun _ _ _ ↦ False) s.db d := by
  rw [run_of_record hr]
  refine DB.wp_writeRecord throwing_none ho.wal (DB.walSegPath_ne_tmp _)
    (fun c m d' hc _ ↦ onBuild_of_isPlain hc) ?_
  exact DB.wp_maybeFlush (fun _ ↦ ⟨rfl, ho.written r⟩) fun hlarge ↦ absurd hlarge hsmall

theorem Snapshot.wp_flush (hne : s.db.memtable.empty = false) (hlt : s.db.nextSstId + 1 < 2 ^ 64)
    (hopen : SSTable.Openable sz s.db.memtable.data) (hP : P s.db.memtable.data (taken s.db) d) :
    (Op.flush.run sz).wp reliable (onBuilds P) (fun _ db' d' ↦ db' = (s.flush sz).db ∧
      Opened sz (s.flush sz).db d' (s.flush sz).contents) (fun _ _ _ ↦ False) s.db d :=
  wp_flush_onBuilds hne hopen hP ⟨rfl, ho.flushed hlt hopen⟩

theorem Snapshot.wp_compact (he : s.db.memtable.empty = true) (hlen : ¬s.contents.tables.length < 2)
    (hlt : s.db.nextSstId + 1 < 2 ^ 64) (hopen : SSTable.Openable sz (cleanOf sz s.contents.tables))
    (hP : P (cleanOf sz s.contents.tables) (taken s.db) d) :
    (Op.compact.run sz).wp reliable (onBuilds P) (fun _ db' d' ↦ db' = (s.compact sz).db ∧
      Opened sz (s.compact sz).db d' (s.compact sz).contents) (fun _ _ _ ↦ False) s.db d := by
  refine DB.wp_compactLocked (by rwa [ho.tables, DB.length_tables]) ?_
  refine DB.wp_flushMemtableLocked_empty he ?_
  exact wp_merge_onBuilds ho.tables ho.holds.tables.stored hopen hP ⟨rfl, ho.merged hlt hopen⟩

end Operations

theorem noStale_first (sz : Sizing) : NoStale (Snapshot.first sz).db (Snapshot.first sz).contents :=
  fun _ hid ↦ congrArg logRecords (Contents.setLog_logs_ne _ _ hid)

theorem reaches_first (hok : ok (.opened {})) : Reaches sz ok P (.first sz) :=
  leaves_empty.open {} hok

namespace Reaches

variable {s : Snapshot}

/-- An operation that does what it should. -/
theorem did {op : Op} {s' : Snapshot} (h : Reaches sz ok P s) (hok : ok (.did op))
    (hop : ∀ d, Opened sz s.db d s.contents → (op.run sz).wp reliable (onBuilds P)
      (fun _ db' d' ↦ db' = s'.db ∧ Opened sz s'.db d' s'.contents) (fun _ _ _ ↦ False) s.db d) :
    Reaches sz ok P s' := by
  obtain ⟨hist, d, hrun, hmeets, ho⟩ := h
  obtain ⟨tr, _, d', hx, htr, rfl, ho'⟩ := exists_exec (hop d ho)
  exact ⟨_, d', .snoc hrun (.did hx), meets_snoc hmeets hok htr, ho'⟩

theorem write (h : Reaches sz ok P s) (op : Op) {r : WalRecord} (hr : op.record = some r)
    (hsmall : ¬(s.write r).db.opts.memtableFlushBytes ≤ (s.write r).db.memtable.bytes)
    (hok : ok (.did op)) : Reaches sz ok P (s.write r) :=
  h.did hok fun _ ho ↦ Snapshot.wp_write ho op hr hsmall

theorem flush (h : Reaches sz ok P s) (hne : s.db.memtable.empty = false)
    (hlt : s.db.nextSstId + 1 < 2 ^ 64) (hopen : SSTable.Openable sz s.db.memtable.data)
    (hP : ∀ d, Opened sz s.db d s.contents → P s.db.memtable.data (taken s.db) d)
    (hok : ok (.did .flush)) : Reaches sz ok P (s.flush sz) :=
  h.did hok fun d ho ↦ Snapshot.wp_flush ho hne hlt hopen (hP d ho)

theorem compact (h : Reaches sz ok P s) (he : s.db.memtable.empty = true)
    (hlen : ¬s.contents.tables.length < 2) (hlt : s.db.nextSstId + 1 < 2 ^ 64)
    (hopen : SSTable.Openable sz (cleanOf sz s.contents.tables))
    (hP : ∀ d, Opened sz s.db d s.contents → P (cleanOf sz s.contents.tables) (taken s.db) d)
    (hok : ok (.did .compact)) : Reaches sz ok P (s.compact sz) :=
  h.did hok fun d ho ↦ Snapshot.wp_compact ho he hlen hlt hopen (hP d ho)

/-- A flush leaves no records behind. -/
theorem noStale_flush (h : Reaches sz ok P s) (hlt : s.db.nextSstId + 1 < 2 ^ 64)
    (hs : NoStale s.db s.contents) : NoStale (s.flush sz).db (s.flush sz).contents := by
  obtain ⟨_, _, _, _, ho⟩ := h
  exact fun id _ ↦ Faithful.noRecords_flushOpen ho.last ho.wal_le hlt hs id

theorem crash (h : Reaches sz ok P s) (hok : ok .crashed) : Leaves sz ok P s.crash := by
  obtain ⟨hist, d, hrun, hmeets, ho⟩ := h
  exact ⟨_, _, .snoc hrun (.crashed d.crashed_sync),
    meets_snoc hmeets hok fun _ h ↦ absurd h List.not_mem_nil, Snapshot.holds_crash ho⟩

theorem reopen (h : Reaches sz ok P s) (hc : ok .crashed) (ho : ok (.opened {})) :
    Reaches sz ok P (s.reopen sz) :=
  (h.crash hc).open {} ho

end Reaches

end Reach

/-! ## A segment that stays behind -/

theorem Entries.eq_empty_of_layer {entries : Entries} (h : entries.layer = Overlay.blank) :
    entries = ∅ := by
  refine ExtTreeMap.ext_getElem? fun key ↦ ?_
  rw [ExtTreeMap.getElem?_empty]
  exact Option.map_eq_none_iff.1 (congrFun h key)

/-- A table of a few short strings can be opened. -/
theorem openable_of_size_le {entries : Entries} (hs : entries.IsShort) (h : entries.size ≤ 10) :
    SSTable.Openable .onePercent entries := by
  refine SSTable.Fits.openable ⟨hs, ?_⟩
  show (9585058378 * entries.size + 999999999) / 1000000000 ≤ 2 ^ 31
  omega

theorem size_applyRecord_le (r : WalRecord) (t : MemTable) :
    (DB.applyRecord r t).data.size ≤ t.data.size + 1 := by
  rw [data_applyRecord]
  exact ExtTreeMap.size_insert_le

theorem getElem?_applyRecord (r : WalRecord) (t : MemTable) (key : Bytes) :
    (DB.applyRecord r t).data[key]? = if key = r.key then some r.entry else t.data[key]? := by
  rw [data_applyRecord]
  split
  · rename_i hkey
    rw [hkey, ExtTreeMap.getElem?_insert_self]
  · rename_i hkey
    rw [ExtTreeMap.getElem?_insert, if_neg fun hc ↦ hkey (LawfulEqCmp.eq_of_compare hc).symm]

theorem empty_applyRecord (r : WalRecord) (t : MemTable) : (DB.applyRecord r t).empty = false := by
  rw [MemTable.empty, data_applyRecord, Bool.eq_false_iff, Ne, ExtTreeMap.isEmpty_iff]
  exact ExtTreeMap.insert_ne_empty

namespace Snapshot

/-- The first of two writes to a key. -/
def older : WalRecord := ⟨WalOp.put, [107], [49]⟩

/-- The second. -/
def newer : WalRecord := ⟨WalOp.put, [107], [50]⟩

/-- A deletion of the key. -/
def deletion : WalRecord := ⟨WalOp.del, [107], []⟩

/-- A write to another key. -/
def other : WalRecord := ⟨WalOp.put, [108], [49]⟩

/-- Two flushes and a compaction: it has taken a number without changing the segment. -/
def compacted : Snapshot :=
  first .onePercent |>.write older |>.flush .onePercent |>.write deletion |>.flush .onePercent
    |>.compact .onePercent

/-- The key is written, and the process dies; recovery replays the record, but makes the segment
with the next number the current one. -/
def reopened : Snapshot := compacted |>.write older |>.reopen .onePercent

/-- **A segment that stays behind**: the key is written again and the MemTable flushed, which seals
the current segment only. -/
def stale : Snapshot := reopened |>.write newer |>.flush .onePercent

theorem openable_applyRecord {r : WalRecord} (hr : r.IsShort) :
    SSTable.Openable .onePercent (DB.applyRecord r {}).data :=
  openable_of_size_le (isShort_applyRecord hr Entries.isShort_empty)
    ((size_applyRecord_le _ _).trans (by decide))

/-- **The first write** to a store that has been opened for the first time. -/
theorem exists_exec_older {P : Entries → DB → Disk → Prop} {d : Disk}
    (ho : Opened .onePercent (first .onePercent).db d (first .onePercent).contents) :
    ∃ tr d', Exec reliable ((Op.put [107] [49]).run .onePercent) (first .onePercent).db d tr
        (.ok () ((first .onePercent).write older).db d') ∧ (∀ ev ∈ tr, OnBuild P ev) ∧
      Opened .onePercent ((first .onePercent).write older).db d'
        ((first .onePercent).write older).contents := by
  obtain ⟨tr, _, d', hx, htr, rfl, ho'⟩ := exists_exec
    (wp_write (s := first .onePercent) (r := older) ho (.put [107] [49]) rfl (by decide))
  exact ⟨tr, d', hx, htr, ho'⟩

theorem records_crash : (compacted.write older).crash.records = [older] := by
  have hlog : (compacted.write older).crash.logs 2 = some (.saved (walCodec.encAll [older])) := rfl
  have hrecords : logRecords ((compacted.write older).crash.logs 2) = [older] := by
    rw [hlog, logRecords_saved (by decide)]
  have hother : (compacted.write older).crash.logs 0 = none ∧
      (compacted.write older).crash.logs 1 = none ∧ (compacted.write older).crash.logs 3 = none :=
    ⟨rfl, rfl, rfl⟩
  have hnext : nextOf (compacted.write older).crash.tables = 3 := rfl
  rw [Contents.records, hnext]
  simp [recordsBelow, List.range_succ, hother, hrecords]

theorem records_stale : stale.crash.records = [older] := by
  have hlog : stale.crash.logs 2 = some (.saved (walCodec.encAll [older])) := rfl
  have hrecords : logRecords (stale.crash.logs 2) = [older] := by
    rw [hlog, logRecords_saved (by decide)]
  have hother : stale.crash.logs 0 = none ∧ stale.crash.logs 1 = none ∧ stale.crash.logs 3 = none ∧
      stale.crash.logs 4 = some {} :=
    ⟨rfl, rfl, rfl, rfl⟩
  have hnext : nextOf stale.crash.tables = 4 := rfl
  rw [Contents.records, hnext]
  simp [recordsBelow, List.range_succ, hother, hrecords]

theorem cleanOf_compacted : cleanOf .onePercent [(1, (DB.applyRecord deletion {}).data),
    (0, (DB.applyRecord older {}).data)] = ∅ := by
  have hshort : ∀ t ∈ [(1, (DB.applyRecord deletion {}).data), (0, (DB.applyRecord older {}).data)],
      t.2.IsShort := by
    simp only [List.forall_mem_cons]
    exact ⟨isShort_applyRecord (by decide) Entries.isShort_empty,
      isShort_applyRecord (by decide) Entries.isShort_empty, fun _ h ↦ absurd h List.not_mem_nil⟩
  refine Entries.eq_empty_of_layer ?_
  rw [DB.layer_cleanOf _ hshort]
  funext key
  have hempty : ({} : MemTable).data.layer = Overlay.blank := layer_empty
  by_cases hkey : key = [107]
  · subst hkey
    simp [DB.tableLayer, Overlay.live, Overlay.above, layer_applyRecord, Overlay.write, deletion,
      WalRecord.write, WalOp.put, WalOp.del, Overlay.blank]
  · simp [DB.tableLayer, Overlay.live, Overlay.above, layer_applyRecord, Overlay.write,
      deletion, older, WalRecord.write, hkey, hempty, Overlay.blank]

/-- **The compaction can be reached** without a record in any segment but the current one when a
table is built. -/
theorem reaches_compacted (ok : Label → Prop) {P : Entries → DB → Disk → Prop}
    (hopen : ok (.opened {})) (hdid : ∀ op : Op, (∀ r ∈ op.record, r.IsShort) → ok (.did op))
    (hP : ∀ (s : Snapshot) (entries : Entries) (d : Disk), Opened .onePercent s.db d s.contents →
      NoStale s.db s.contents → SSTable.Openable .onePercent entries → s.db.nextSstId < 3 →
        P entries (taken s.db) d) :
    Reaches .onePercent ok P compacted ∧ NoStale compacted.db compacted.contents := by
  have hflush : ok (.did .flush) := hdid .flush (fun _ h ↦ nomatch h)
  have hcompact : ok (.did .compact) := hdid .compact (fun _ h ↦ nomatch h)
  have holder := openable_applyRecord (r := older) (by decide)
  have hdeletion := openable_applyRecord (r := deletion) (by decide)
  have hmerged : SSTable.Openable .onePercent ∅ :=
    openable_of_size_le Entries.isShort_empty (by decide)
  have hfirst : Reaches .onePercent ok P (first .onePercent |>.write older) :=
    (reaches_first hopen).write (.put [107] [49]) rfl (by decide) (hdid _ (by decide))
  have hstale := (noStale_first .onePercent).logged older
  have hone := hfirst.flush (empty_applyRecord _ _) (by decide) holder
    (fun d ho ↦ hP _ _ d ho hstale holder (by decide)) hflush
  have hdeleted := hone.write (.del [107]) (r := deletion) rfl (by decide) (hdid _ (by decide))
  have hstale₁ := (hfirst.noStale_flush (by decide) hstale).logged deletion
  have htwo := hdeleted.flush (empty_applyRecord _ _) (by decide) hdeletion
    (fun d ho ↦ hP _ _ d ho hstale₁ hdeletion (by decide)) hflush
  have hstale₂ := hdeleted.noStale_flush (by decide) hstale₁
  have hclean := cleanOf_compacted ▸ hmerged
  exact ⟨htwo.compact ExtTreeMap.isEmpty_empty (by decide) (by decide) hclean
    (fun d ho ↦ hP _ _ d ho hstale₂ hclean (by decide)) hcompact, hstale₂⟩

/-- **A segment can stay behind**: the one before the current one has a record, and there is
something to flush. -/
theorem reaches_newer (ok : Label → Prop) {P : Entries → DB → Disk → Prop} (hopen : ok (.opened {}))
    (hcrash : ok .crashed) (hdid : ∀ op : Op, (∀ r ∈ op.record, r.IsShort) → ok (.did op))
    (hP : ∀ entries db d, SSTable.Openable .onePercent entries → NoWrap db → P entries db d) :
    Reaches .onePercent ok P (reopened.write newer) := by
  have hbytes : ¬(reopened.write newer).db.opts.memtableFlushBytes ≤
      (reopened.write newer).db.memtable.bytes := by
    show ¬65536 ≤ (DB.applyRecord newer (DB.replayed (compacted.write older).crash.records)).bytes
    rw [records_crash]
    decide
  obtain ⟨h₁, -⟩ := reaches_compacted ok hopen hdid fun s _ _ _ _ hentries hlt ↦
    hP _ _ _ hentries (noWrap_taken (by omega))
  have h₂ : Reaches .onePercent ok P reopened :=
    (h₁.write (.put [107] [49]) rfl (by decide) (hdid _ (by decide))).reopen hcrash hopen
  exact h₂.write (.put [107] [50]) rfl hbytes (hdid _ (by decide))

/-- The MemTable that is flushed last holds what was replayed and what was written. -/
theorem openable_newer : SSTable.Openable .onePercent (reopened.write newer).db.memtable.data := by
  show SSTable.Openable .onePercent
    (DB.applyRecord newer (DB.replayed (compacted.write older).crash.records)).data
  rw [records_crash]
  have hsize : (DB.replayed [older]).data.size ≤ 1 := size_applyRecord_le older {}
  refine openable_of_size_le (isShort_applyRecord (by decide) (isShort_replayed (by decide))) ?_
  exact (size_applyRecord_le newer _).trans (by omega)

/-- **It stays behind** when the MemTable is flushed. -/
theorem reaches_stale (ok : Label → Prop) {P : Entries → DB → Disk → Prop} (hopen : ok (.opened {}))
    (hcrash : ok .crashed) (hdid : ∀ op : Op, (∀ r ∈ op.record, r.IsShort) → ok (.did op))
    (hP : ∀ entries db d, SSTable.Openable .onePercent entries → NoWrap db → P entries db d) :
    Reaches .onePercent ok P stale :=
  (reaches_newer ok hopen hcrash hdid hP).flush (empty_applyRecord _ _) (by decide) openable_newer
    (fun d _ ↦ hP _ _ _ openable_newer (by decide)) (hdid .flush fun _ h ↦ nomatch h)

/-! ## Counting up -/

/-- The key is written and flushed, and then so many flushes follow of a write to another key. -/
def counted : ℕ → Snapshot
  | 0 => first .onePercent |>.write older |>.flush .onePercent
  | n + 1 => counted n |>.write other |>.flush .onePercent

/-- What is known after so many flushes. -/
structure Counted (n : ℕ) (s : Snapshot) : Prop where
  /-- The options are the default ones. -/
  opts : s.db.opts = {}
  /-- The MemTable is empty. -/
  memtable : s.db.memtable = {}
  /-- The numbers up to `n` have been taken. -/
  next : s.db.nextSstId = n + 1
  /-- Only the first table knows the key. -/
  tables : ∃ ts, s.contents.tables = ts ++ [(0, (DB.applyRecord older {}).data)] ∧ ts.length = n ∧
    ∀ t ∈ ts, t.2 = (DB.applyRecord other {}).data

/-- After a write there is something to flush. -/
theorem Counted.write {n : ℕ} {s : Snapshot} (h : Counted n s) :
    (s.write other).db.memtable = DB.applyRecord other {} ∧
      ¬(s.write other).db.opts.memtableFlushBytes ≤ (s.write other).db.memtable.bytes ∧
      SSTable.Openable .onePercent (s.write other).db.memtable.data ∧
      (s.write other).db.memtable.empty = false := by
  have hmem : (s.write other).db.memtable = DB.applyRecord other {} := by
    rw [Snapshot.write, applied, h.memtable]
  refine ⟨hmem, ?_, ?_, ?_⟩
  · rw [hmem, Snapshot.write, applied, h.opts]
    decide
  · rw [hmem]
    exact openable_applyRecord (by decide)
  · rw [hmem]
    exact empty_applyRecord _ _

/-- **Every number can be reached.** -/
theorem reaches_counted (ok : Label → Prop) {P : Entries → DB → Disk → Prop}
    (hopen : ok (.opened {})) (hdid : ∀ op : Op, (∀ r ∈ op.record, r.IsShort) → ok (.did op))
    (hP : ∀ entries db d, SSTable.Openable .onePercent entries → NoWrap db → P entries db d) (n : ℕ)
    (hn : n + 1 < 2 ^ 64) : Reaches .onePercent ok P (counted n) ∧ Counted n (counted n) := by
  have hflush : ok (.did .flush) := hdid .flush (fun _ h ↦ nomatch h)
  have holder := openable_applyRecord (r := older) (by decide)
  induction n with
  | zero =>
    refine ⟨?_, rfl, rfl, rfl, [], rfl, rfl, fun _ h ↦ absurd h List.not_mem_nil⟩
    exact ((reaches_first hopen).write (.put [107] [49]) rfl (by decide) (hdid _ (by decide))).flush
      (empty_applyRecord _ _) (by decide) holder (fun d _ ↦ hP _ _ _ holder (by decide)) hflush
  | succ n ih =>
    obtain ⟨hreach, hcounted⟩ := ih (by omega)
    obtain ⟨hmem', hbytes, hnew, hne⟩ := hcounted.write
    obtain ⟨hopts, hmem, hnext, ts, hts, hlen, hknown⟩ := hcounted
    have hlt : ((counted n).write other).db.nextSstId + 1 < 2 ^ 64 := by
      show (counted n).db.nextSstId + 1 < 2 ^ 64
      omega
    refine ⟨?_, hopts, rfl, ?_, (n + 1, (DB.applyRecord other {}).data) :: ts, ?_, ?_, ?_⟩
    · exact (hreach.write (.put [108] [49]) rfl hbytes (hdid _ (by decide))).flush hne hlt hnew
        (fun d _ ↦ hP _ _ _ hnew (noWrap_taken hlt)) hflush
    · have hu := u64_of_lt hlt
      exact hu.trans (congrArg (· + 1) hnext)
    · show ((counted n).db.nextSstId, ((counted n).write other).db.memtable.data) ::
        (counted n).contents.tables = _
      rw [hmem', hnext, hts]
      rfl
    · rw [List.length_cons, hlen]
    · exact List.forall_mem_cons.2 ⟨rfl, hknown⟩

end Snapshot

end KeyValStore
