import KeyValStore.History.Reach
import KeyValStore.History.Readable

/-!
# A store on which calls have failed

After an exception the object may know more than the directory: it has taken a number, or lists a
table the MANIFEST does not list.  `Usable` is what holds all the same.  The tables in the object
need not be those of the MANIFEST; through both, and the MemTable, the same map is seen (`agree`).

A flush and a merge keep this, whether they return or throw, as long as it is not the opening of the
merged table or the renaming of the MANIFEST that fails.  `Logging` is what holds of the log
besides, as long as the next segment can be opened.
-/

set_option autoImplicit false

namespace KeyValStore

open Crash Std Overlay
open DB (applied flushedDb flushedDisk mergedDb mergedDisk loggedDisk shown walSegPath sstPath
  tableLayer
  taken)

/-- **What holds of an open store on which calls have failed.**  The directory holds `C`, and `ts`
are the tables of the object. -/
structure Usable (sz : Sizing) (L : Prop) (db : DB) (d : Disk) (C : Contents)
    (ts : List (ℕ × Entries)) : Prop where
  /-- The directory holds the contents. -/
  holds : Holds sz d C
  /-- There is a MANIFEST. -/
  gen : C.gen ≠ none
  /-- The object has the tables `ts`. -/
  tables : db.sstables = DB.tables sz ts
  /-- Their files are there. -/
  stored : HoldsTables sz d ts
  /-- The strings in all tables are short. -/
  short : ∀ t ∈ ts ++ C.tables, t.2.IsShort
  /-- The strings in the MemTable are short. -/
  memShort : db.memtable.data.IsShort
  /-- The next number is free. -/
  below : ∀ t ∈ ts ++ C.tables, t.1 < db.nextSstId
  /-- It is a number. -/
  next : db.nextSstId < 2 ^ 64
  /-- The object writes to a segment, or to none. -/
  wal : db.wal = none ∨ db.wal = some (walSegPath db.currentWalId)
  /-- No segment comes after it. -/
  last : ∀ id, C.logs id ≠ none → id ≤ db.currentWalId
  /-- Recovery would not go on with one before it. -/
  le : db.currentWalId ≤ nextOf C.tables
  /-- All segments are durable. -/
  settled : C.Settled
  /-- While the MemTable is empty, no segment has records. -/
  idle : db.memtable.empty = true → ∀ id, logRecords (C.logs id) = []
  /-- No segment but the current one has records, if that is known. -/
  noStale : L → NoStale db C
  /-- Where the MemTable knows nothing, the tables of the object and of the MANIFEST agree. -/
  agree : ∀ key, db.memtable.data[key]? = none →
    visible (tableLayer ts) key = visible (tableLayer C.tables) key

/-- **The log is in order**: there is a segment to write to, it has no incomplete record, and the
MemTable is what a replay would give. -/
structure Logging (db : DB) (C : Contents) : Prop where
  /-- The object writes to a segment. -/
  wal : db.wal = some (walSegPath db.currentWalId)
  /-- It is the last one. -/
  current : C.Current db.currentWalId
  /-- Its records are complete. -/
  whole : ∃ rs : List WalRecord, (∀ r ∈ rs, r.IsShort) ∧
    C.logs db.currentWalId = some (.saved (walCodec.encAll rs))
  /-- The MemTable is what a replay would give. -/
  mirror : db.memtable.data.layer = writes blank (C.records.map WalRecord.write)

theorem Logging.congr {db db' : DB} {C : Contents} (h : Logging db C) (hwal : db'.wal = db.wal)
    (hcur : db'.currentWalId = db.currentWalId) (hmem : db'.memtable = db.memtable) :
    Logging db' C where
  wal := by rw [hwal, hcur, h.wal]
  current := hcur ▸ h.current
  whole := hcur ▸ h.whole
  mirror := hmem ▸ h.mirror

/-- A record is logged and applied. -/
theorem Logging.written {db : DB} {C : Contents} (h : Logging db C) {r : WalRecord}
    (hr : r.IsShort) : Logging (applied r db) (DB.logged db C r) := by
  obtain ⟨rs, hrs, hlog⟩ := h.whole
  obtain ⟨hshort, hnew, hrecords⟩ := h.current.logged hrs hlog hr
  refine ⟨h.wal, ⟨?_, fun id hid ↦ ?_, h.current.le⟩, ⟨_, hshort, hnew⟩, ?_⟩
  · exact hnew ▸ Option.some_ne_none _
  · by_cases hne : id = db.currentWalId
    · exact hne.le
    · rw [DB.logged, Contents.setLog_logs_ne _ _ hne] at hid
      exact h.current.last id hid
  · rw [DB.logged, hrecords, List.map_append, writes_append, ← h.mirror]
    exact layer_applyRecord r db.memtable

theorem nextOf_le {ts : List (ℕ × Entries)} {n : ℕ} (hn : n < 2 ^ 64) (h : ∀ t ∈ ts, t.1 < n) :
    nextOf ts ≤ n := by
  induction ts with
  | nil => exact Nat.zero_le n
  | cons t ts ih =>
    rw [List.forall_mem_cons] at h
    refine max_le ?_ (ih h.2)
    rw [u64_of_lt (Nat.lt_of_le_of_lt h.1 hn)]
    exact h.1

/-- Where the tables agree outside the MemTable the same map is seen. -/
theorem shown_congr {mem : Entries} {ts ts' : List (ℕ × Entries)}
    (h : ∀ key, mem[key]? = none → visible (tableLayer ts) key = visible (tableLayer ts') key) :
    shown mem ts = shown mem ts' := by
  funext key
  rw [shown, shown, visible_above, visible_above, Entries.layer]
  cases hkey : mem[key]? with
  | none => exact h key hkey
  | some e => rfl

namespace Usable

variable {sz : Sizing} {L : Prop} {db : DB} {d : Disk} {C : Contents} {ts : List (ℕ × Entries)}

theorem of_legible (h : Legible sz db d C)
    (hidle : db.memtable.empty = true → ∀ id, logRecords (C.logs id) = [])
    (hL : L → NoStale db C) : Usable sz L db d C C.tables where
  holds := h.holds
  gen := h.gen_ne
  tables := h.tables
  stored := h.holds.tables
  short t ht := h.short t ((List.mem_append.1 ht).elim id id)
  memShort := h.memShort
  below t ht := by
    rw [h.next]
    exact h.sound.fresh t ((List.mem_append.1 ht).elim id id)
  next := h.next_lt
  wal := .inr h.wal
  last := h.last
  le := h.current.le
  settled := h.settled
  idle := hidle
  noStale := hL
  agree _ _ := rfl

section

variable (h : Usable sz L db d C ts)

include h

theorem wal_le : db.currentWalId ≤ db.nextSstId :=
  h.le.trans (nextOf_le h.next fun t ht ↦ h.below t (List.mem_append_right ts ht))

theorem wal_lt : db.currentWalId < 2 ^ 64 := h.wal_le.trans_lt h.next

theorem shortTables : ∀ t ∈ ts, t.2.IsShort := fun t ht ↦ h.short t (List.mem_append_left _ ht)

theorem fresh : ∀ t ∈ ts, t.1 ≠ db.nextSstId := fun t ht ↦
  (h.below t (List.mem_append_left C.tables ht)).ne

theorem loose : C.Loose (sstPath db.nextSstId) :=
  Contents.loose_sstPath h.gen fun t ht ↦ (h.below t (List.mem_append_right ts ht)).ne

/-- **The store answers from one map.** -/
theorem answers : Answers db d (shown db.memtable.data ts) :=
  answers_shown h.tables h.stored.stored h.shortTables

/-- While the MemTable is empty the tables decide what recovery would show. -/
theorem view_of_empty (he : db.memtable.empty = true) : C.view = shown db.memtable.data ts := by
  have hnil : C.records = [] := recordsBelow_eq_nil_iff.2 fun id _ ↦ h.idle he id
  rw [C.view_of_records hnil, shown, layer_of_empty he, blank_above]
  funext key
  refine (h.agree key ?_).symm
  rw [MemTable.empty, ExtTreeMap.isEmpty_iff] at he
  rw [he, ExtTreeMap.getElem?_empty]

/-- While the log is in order the records do. -/
theorem view_of_logging (hl : Logging db C) : C.view = shown db.memtable.data ts := by
  rw [Contents.view, ← hl.mirror]
  exact (shown_congr h.agree).symm

/-- **Recovery would bring the map back.** -/
theorem recover (hview : C.view = shown db.memtable.data ts) {d' : Disk} (hc : d.Crashed d')
    (opts : Options) : DB.recover.Returns reliable { opts } d' fun _ db' d'' ↦
      Answers db' d'' (shown db.memtable.data ts) := by
  have hlogs : ∀ id, C.logs id ≠ none → id ≤ nextOf C.tables := fun id hid ↦
    (h.last id hid).trans h.le
  have hy : C.Yields (· = shown db.memtable.data ts) :=
    ⟨fun t ht ↦ h.short t (List.mem_append_right _ ht), fun C' hC ↦
      h.settled.eq_of_crashed hC ▸ hview⟩
  intro tr o hx
  refine (hy.recover h.holds hlogs hc opts tr o hx).imp_right ?_
  rintro ⟨a, db', d'', rfl, u, rfl, hu⟩
  exact ⟨a, db', d'', rfl, hu⟩

/-! ## Changes of the object or the directory alone -/

/-- A change of files that do not matter, and numbers that are left out. -/
theorem off {d' : Disk} {n : ℕ} (hd : Disk.AgreeBut C.Loose d d') (hts : HoldsTables sz d' ts)
    (hn : n < 2 ^ 64) (hle : db.nextSstId ≤ n) :
    Usable sz L { db with nextSstId := n } d' C ts where
  holds := h.holds.off hd
  gen := h.gen
  tables := h.tables
  stored := hts
  short := h.short
  memShort := h.memShort
  below t ht := (h.below t ht).trans_le hle
  next := hn
  wal := h.wal
  last := h.last
  le := h.le
  settled := h.settled
  idle := h.idle
  noStale := h.noStale
  agree := h.agree

/-- Other tables in the object, through which the same is seen. -/
theorem relist {ts' : List (ℕ × Entries)} {g : ℕ} (hts : HoldsTables sz d ts')
    (hshort : ∀ t ∈ ts', t.2.IsShort) (hbelow : ∀ t ∈ ts', t.1 < db.nextSstId)
    (hagree : ∀ key, db.memtable.data[key]? = none →
      visible (tableLayer ts') key = visible (tableLayer ts) key) :
    Usable sz L { db with sstables := DB.tables sz ts', manifestGen := g } d C ts' where
  holds := h.holds
  gen := h.gen
  tables := rfl
  stored := hts
  short t ht := (List.mem_append.1 ht).elim (hshort t) fun ht ↦
    h.short t (List.mem_append_right ts ht)
  memShort := h.memShort
  below t ht := (List.mem_append.1 ht).elim (hbelow t) fun ht ↦
    h.below t (List.mem_append_right ts ht)
  next := h.next
  wal := h.wal
  last := h.last
  le := h.le
  settled := h.settled
  idle := h.idle
  noStale := h.noStale
  agree key hkey := (hagree key hkey).trans (h.agree key hkey)

/-- The building of a table, listed or not. -/
theorem built (hlt : db.nextSstId + 1 < 2 ^ 64) (entries : Entries) :
    Usable sz L (taken db)
      (d.insert (sstPath db.nextSstId) (.saved (SSTable.image sz entries))) C ts := by
  have htaken : taken db = { db with nextSstId := db.nextSstId + 1 } := by
    rw [taken, u64_of_lt hlt]
  rw [htaken]
  exact h.off (Disk.AgreeOff.agreeBut (Disk.agreeOff_insert d _ _) h.loose)
    (DB.holdsTables_built h.stored entries h.fresh) hlt (Nat.le_succ _)

/-- A MANIFEST that has not been replaced. -/
theorem replacing {F : Faults Mark} {d' : Disk}
    (hF : ¬F.refuse (.rename Manifest.tmp Manifest.dest))
    (hd : Manifest.Replacing F d d') : Usable sz L db d' C ts := by
  have hoff : Disk.AgreeOff Manifest.tmp d d' := hd.resolve_right fun hr ↦ hF hr.1
  exact h.off (hoff.agreeBut C.loose_tmp)
    (h.stored.off (J := (· = Manifest.tmp)) hoff fun t _ hn ↦ DB.sstPath_ne_tmp t.1 hn) h.next
    (Nat.le_refl _)

end

/-! ## Flush -/

section Flush

variable (h : Usable sz L db d C ts) (hlt : db.nextSstId + 1 < 2 ^ 64) (hs : NoStale db C)
  (hopen : SSTable.Openable sz db.memtable.data)

include h hlt

theorem below_flushed :
    ∀ t ∈ (db.nextSstId, db.memtable.data) :: ts, t.1 < u64 (db.nextSstId + 1) := by
  rw [u64_of_lt hlt]
  exact List.forall_mem_cons.2 ⟨Nat.lt_succ_self _, fun t ht ↦
    (h.below t (List.mem_append_left C.tables ht)).trans (Nat.lt_succ_self _)⟩

omit hlt in
theorem short_flushed : ∀ t ∈ (db.nextSstId, db.memtable.data) :: ts, t.2.IsShort :=
  List.forall_mem_cons.2 ⟨h.memShort, h.shortTables⟩

theorem flushOpen_logs (id : ℕ) : (DB.flushOpen db { C with tables := ts }).logs id =
    if id = db.nextSstId + 1 then some {} else if id = db.currentWalId then none else C.logs id :=
  DB.flushOpen_logs (C := { C with tables := ts }) h.last h.wal_le hlt id

include hs

theorem noRecords_flushed (id : ℕ) : logRecords
    ((DB.flushOpen db { C with tables := ts }).logs id) = [] :=
  Faithful.noRecords_flushOpen (C := { C with tables := ts }) h.last h.wal_le hlt hs id

include hopen

/-- **After a flush** the MANIFEST lists the tables of the object. -/
theorem flushed : Usable sz L (flushedDb sz db) (flushedDisk sz db d)
    (DB.flushOpen db { C with tables := ts }) ((db.nextSstId, db.memtable.data) :: ts) where
  holds := DB.holds_flushedDisk (C := { C with tables := ts }) h.holds.toHoldsLogs h.stored h.tables
    h.fresh h.next h.wal_lt hopen
  gen := Option.some_ne_none _
  tables := by
    rw [flushedDb, DB.flushListed, h.tables]
    rfl
  stored := (DB.holds_flushedDisk (C := { C with tables := ts }) h.holds.toHoldsLogs
      h.stored h.tables
    h.fresh h.next h.wal_lt hopen).tables
  short t ht := h.short_flushed t ((List.mem_append.1 ht).elim id id)
  memShort := Entries.isShort_empty
  below t ht := h.below_flushed hlt t ((List.mem_append.1 ht).elim id id)
  next := u64_lt _
  wal := .inr rfl
  last id hid := by
    rw [flushedDb, u64_of_lt hlt]
    rw [h.flushOpen_logs hlt] at hid
    split at hid
    · rename_i heq
      exact heq.le
    split at hid
    · exact absurd rfl hid
    · exact ((h.last id hid).trans h.wal_le).trans (Nat.le_succ _)
  le := le_max_left _ _
  settled :=
    (h.settled.setLog (C := DB.flushList db { C with tables := ts }) (by rintro f ⟨⟩)).opened _
  idle _ := h.noRecords_flushed hlt hs
  noStale _ id _ := h.noRecords_flushed hlt hs id
  agree _ _ := rfl

omit hopen in
/-- After a flush the log is in order, whatever it was before. -/
theorem logging_flushed : Logging (flushedDb sz db) (DB.flushOpen db { C with tables := ts }) := by
  have hlog : (DB.flushOpen db { C with tables := ts }).logs (flushedDb sz db).currentWalId =
      some {} := by
    rw [flushedDb, u64_of_lt hlt, h.flushOpen_logs hlt, if_pos rfl]
  have hnil : (DB.flushOpen db { C with tables := ts }).records = [] :=
    recordsBelow_eq_nil_iff.2 fun id _ ↦ h.noRecords_flushed hlt hs id
  refine ⟨rfl, ⟨hlog ▸ Option.some_ne_none _, fun id hid ↦ ?_, le_max_left _ _⟩,
    ⟨[], fun _ h ↦ absurd h List.not_mem_nil, hlog⟩, ?_⟩
  · rw [h.flushOpen_logs hlt] at hid
    rw [flushedDb, u64_of_lt hlt]
    split at hid
    · rename_i heq
      exact heq.le
    split at hid
    · exact absurd rfl hid
    · exact ((h.last id hid).trans h.wal_le).trans (Nat.le_succ _)
  · rw [hnil]
    exact layer_empty

/-- **When the next segment cannot be opened** the table is there and listed, and the object writes
to no segment. -/
theorem sealed (he : db.memtable.empty = false) :
    Usable sz L { DB.flushListed sz db with wal := none, currentWalId := u64 (db.nextSstId + 1) }
      (DB.flushSealed sz db d) (DB.flushSeal db { C with tables := ts })
      ((db.nextSstId, db.memtable.data) :: ts) where
  holds := DB.holds_flushSealed (C := { C with tables := ts }) h.holds.toHoldsLogs h.stored h.tables
    h.fresh h.next h.wal_lt hopen
  gen := Option.some_ne_none _
  tables := by
    rw [DB.flushListed, h.tables]
    rfl
  stored := (DB.holds_flushSealed (C := { C with tables := ts }) h.holds.toHoldsLogs
      h.stored h.tables
    h.fresh h.next h.wal_lt hopen).tables
  short t ht := h.short_flushed t ((List.mem_append.1 ht).elim id id)
  memShort := h.memShort
  below t ht := h.below_flushed hlt t ((List.mem_append.1 ht).elim id id)
  next := u64_lt _
  wal := .inl rfl
  last id hid := by
    rw [DB.flushSeal] at hid
    rw [u64_of_lt hlt]
    by_cases hne : id = db.currentWalId
    · rw [hne, Contents.setLog_logs_self] at hid
      exact absurd rfl hid
    · rw [Contents.setLog_logs_ne _ _ hne] at hid
      exact ((h.last id hid).trans h.wal_le).trans (Nat.le_succ _)
  le := le_max_left _ _
  settled := h.settled.setLog (C := DB.flushList db { C with tables := ts }) (by rintro f ⟨⟩)
  idle he' := absurd he' (by rw [DB.flushListed]; exact he ▸ Bool.false_ne_true)
  noStale _ id _ := by
    rw [DB.flushSeal]
    by_cases hne : id = db.currentWalId
    · rw [hne, Contents.setLog_logs_self]
      rfl
    · rw [Contents.setLog_logs_ne _ _ hne]
      exact hs id hne
  agree _ _ := rfl

/-- **After an exception in a flush** the same map is seen, unless it is the MANIFEST that cannot be
renamed.  The log is in order if it was, unless it is the next segment that cannot be opened. -/
theorem flushThrew {F : Faults Mark} {db' : DB} {d' : Disk} {e : Error}
    (he : db.memtable.empty = false) (hrename : ¬F.refuse (.rename Manifest.tmp Manifest.dest))
    (ht : DB.FlushThrew F sz db d e db' d') :
    ∃ C' ts', Usable sz L db' d' C' ts' ∧ shown db'.memtable.data ts' = shown db.memtable.data ts ∧
      e ≠ .nullWal ∧ (Logging db C → (∀ id, ¬F.refuse (.openAppend (walSegPath id))) →
        Logging db' C') := by
  have hbuilt := h.built hlt db.memtable.data
  have hagree : ∀ key, db.memtable.data[key]? = none →
      visible (tableLayer ((db.nextSstId, db.memtable.data) :: ts)) key =
        visible (tableLayer ts) key := by
    intro key hkey
    rw [DB.tableLayer_cons, visible_above, Entries.layer, hkey]
    rfl
  cases ht with
  | build hf =>
    have htaken : taken db = { db with nextSstId := db.nextSstId + 1 } := by
      rw [taken, u64_of_lt hlt]
    refine ⟨C, ts, ?_, rfl, by rintro ⟨⟩, fun hl _ ↦ hl.congr rfl rfl rfl⟩
    rw [htaken]
    exact h.off (Disk.AgreeBut.refl _ _) h.stored hlt (Nat.le_succ _)
  | «open» hf => exact ⟨C, ts, hbuilt, rfl, by rintro ⟨⟩, fun hl _ ↦ hl.congr rfl rfl rfl⟩
  | manifest he _ hd =>
    -- the object lists the table, the MANIFEST does not
    have hnew : HoldsTables sz (DB.flushBuilt sz db d) ((db.nextSstId, db.memtable.data) :: ts) :=
      List.forall_mem_cons.2 ⟨DB.holdsTables_new h.next hopen d _ List.mem_cons_self, hbuilt.stored⟩
    have hlisted := hbuilt.relist (g := u64 (db.manifestGen + 1)) hnew h.short_flushed
      (h.below_flushed hlt) hagree
    refine ⟨C, _, ?_, shown_congr hagree, by rcases he with rfl | rfl | rfl <;> rintro ⟨⟩,
      fun hl _ ↦ hl.congr rfl rfl rfl⟩
    rw [DB.flushListed, h.tables]
    exact hlisted.replacing hrename hd
  | wal hf =>
    exact ⟨_, _, h.sealed hlt hs hopen he, shown_congr hagree, by rintro ⟨⟩,
      fun _ hno ↦ absurd hf (hno _)⟩

end Flush

/-! ## Merge -/

section Merge

variable (h : Usable sz L db d C ts) (hlt : db.nextSstId + 1 < 2 ^ 64)
  (hopen : SSTable.Openable sz (DB.cleanOf sz ts))

include h hlt hopen

/-- **After a merge** the MANIFEST lists the merged table. -/
theorem merged (he : db.memtable.empty = true) :
    Usable sz L (mergedDb sz db ts) (mergedDisk sz db ts d)
      (DB.mergeList sz db { C with tables := ts }) [(db.nextSstId, DB.cleanOf sz ts)] where
  holds := DB.holds_mergeRemoving (C := { C with tables := ts }) h.holds.toHoldsLogs
    h.fresh h.next hopen List.prefix_rfl
  gen := Option.some_ne_none _
  tables := rfl
  stored := (DB.holds_mergeRemoving (C := { C with tables := ts }) h.holds.toHoldsLogs
      h.fresh h.next hopen
    List.prefix_rfl).tables
  short t ht := by
    obtain rfl := List.mem_singleton.1 ((List.mem_append.1 ht).elim id id)
    exact DB.isShort_cleanOf sz ts
  memShort := h.memShort
  below t ht := by
    obtain rfl := List.mem_singleton.1 ((List.mem_append.1 ht).elim id id)
    rw [mergedDb, taken, u64_of_lt hlt]
    exact Nat.lt_succ_self _
  next := u64_lt _
  wal := h.wal
  last := h.last
  le := by
    refine h.wal_le.trans ((Nat.le_succ _).trans ?_)
    show db.nextSstId + 1 ≤ max (u64 (db.nextSstId + 1)) (nextOf [])
    rw [u64_of_lt hlt]
    exact le_max_left _ _
  settled := h.settled
  idle _ := h.idle he
  noStale := h.noStale
  agree _ _ := rfl

omit hopen in
/-- A merge leaves the log alone. -/
theorem logging_merged (hl : Logging db C) (he : db.memtable.empty = true) :
    Logging (mergedDb sz db ts) (DB.mergeList sz db { C with tables := ts }) := by
  have hnil : (DB.mergeList sz db { C with tables := ts }).records = [] :=
    recordsBelow_eq_nil_iff.2 fun id _ ↦ h.idle he id
  refine ⟨hl.wal, ⟨hl.current.active, hl.current.last, ?_⟩, hl.whole, ?_⟩
  · refine h.wal_le.trans ((Nat.le_succ _).trans ?_)
    show db.nextSstId + 1 ≤ max (u64 (db.nextSstId + 1)) (nextOf [])
    rw [u64_of_lt hlt]
    exact le_max_left _ _
  · rw [hnil]
    exact layer_of_empty he

/-- **After an exception in a merge** the same map is seen, unless it is the merged table that
cannot be opened, or the MANIFEST that cannot be renamed. -/
theorem mergeThrew {F : Faults Mark} {db' : DB} {d' : Disk} {e : Error}
    (hrename : ¬F.refuse (.rename Manifest.tmp Manifest.dest))
    (hread : e = .sstOpen (sstPath db.nextSstId) → ¬F.refuse (.readFile (sstPath db.nextSstId)))
    (ht : DB.MergeThrew F sz db ts d e db' d') :
    ∃ ts', Usable sz L db' d' C ts' ∧ shown db'.memtable.data ts' = shown db.memtable.data ts ∧
      e ≠ .nullWal ∧ (Logging db C → Logging db' C) := by
  cases ht with
  | build hf =>
    have htaken : taken db = { db with nextSstId := db.nextSstId + 1 } := by
      rw [taken, u64_of_lt hlt]
    refine ⟨ts, ?_, rfl, by rintro ⟨⟩, fun hl ↦ hl.congr rfl rfl rfl⟩
    rw [htaken]
    exact h.off (Disk.AgreeBut.refl _ _) h.stored hlt (Nat.le_succ _)
  | «open» hf => exact absurd hf (hread rfl)
  | manifest he _ hd =>
    have hbelow : ∀ t ∈ [(db.nextSstId, DB.cleanOf sz ts)], t.1 < (taken db).nextSstId := by
      rw [taken, u64_of_lt hlt]
      exact List.forall_mem_singleton.2 (Nat.lt_succ_self _)
    have hlisted := (h.built hlt (DB.cleanOf sz ts)).relist (g := u64 (db.manifestGen + 1))
      (DB.holdsTables_new h.next hopen d)
      (List.forall_mem_singleton.2 (DB.isShort_cleanOf sz ts)) hbelow
      fun key _ ↦ congrFun (visible_cleanOf sz db.nextSstId h.shortTables) key
    exact ⟨_, hlisted.replacing hrename hd,
      shown_merge sz db.nextSstId db.memtable.data h.shortTables,
      by rcases he with rfl | rfl | rfl <;> rintro ⟨⟩, fun hl ↦ hl.congr rfl rfl rfl⟩

end Merge

/-! ## Write -/

/-- **After a record has been logged and applied.** -/
theorem written (h : Usable sz L db d C ts) {r : WalRecord} (hr : r.IsShort) :
    Usable sz L (applied r db) (loggedDisk (walSegPath db.currentWalId) r d)
      (DB.logged db C r) ts where
  holds := DB.holds_loggedDisk h.holds h.wal_lt r
  gen := h.gen
  tables := h.tables
  stored := h.stored.off (J := (· = walSegPath db.currentWalId)) (Disk.agreeOff_modify d _ _)
    fun t _ hn ↦ DB.sstPath_ne_walSegPath t.1 _ hn
  short := h.short
  memShort := isShort_applyRecord hr h.memShort
  below := h.below
  next := h.next
  wal := h.wal
  last id hid := by
    by_cases hne : id = db.currentWalId
    · exact hne.le
    · rw [DB.logged, Contents.setLog_logs_ne _ _ hne] at hid
      exact h.last id hid
  le := h.le
  settled := by
    refine h.settled.setLog fun f hf ↦ ?_
    obtain ⟨f', -, rfl⟩ := Option.map_eq_some_iff.1 hf
    rw [File.sync_eq_saved, File.content_saved]
  idle he := by
    rw [applied, empty_applyRecord] at he
    cases he
  noStale hl id hid := by
    have hlog : (DB.logged db C r).logs id = C.logs id := C.setLog_logs_ne _ hid
    rw [hlog]
    exact h.noStale hl id hid
  agree key hkey := by
    refine h.agree key ?_
    rw [applied, data_applyRecord, ExtTreeMap.getElem?_insert] at hkey
    split at hkey
    · cases hkey
    · exact hkey

end Usable

end KeyValStore
