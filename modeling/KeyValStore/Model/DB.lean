import KeyValStore.Model.Wal
import KeyValStore.Model.SSTable
import KeyValStore.Model.Manifest

/-!
# The store

The `DB` object and its operations.  Each is a program whose memory is the object itself; the
object is locked while one runs, so operations follow one another.
-/

set_option autoImplicit false

namespace KeyValStore

open Crash

/-- `DB::Options`. -/
structure Options where
  /-- Flush the MemTable once it holds this many bytes. -/
  memtableFlushBytes : UInt64 := 64 * 1024
  /-- Compact once this many tables have accumulated. -/
  compactionThreshold : ℕ := 4

/-- The state of a `DB` object. -/
structure DB where
  /-- `opts_`. -/
  opts : Options := {}
  /-- `memtable_`. -/
  memtable : MemTable := {}
  /-- `wal_`: the segment it writes to, or null. -/
  wal : Option Name := none
  /-- `sstables_`, newest first. -/
  sstables : List SSTable := []
  /-- `next_sst_id_`. -/
  nextSstId : ℕ := 0
  /-- `current_wal_id_`. -/
  currentWalId : ℕ := 0
  /-- `manifest_gen_`. -/
  manifestGen : ℕ := 0
  /-- `wal_replayed_`. -/
  walReplayed : ℕ := 0

/-- `DBStats`. -/
structure DBStats where
  /-- The entries of the MemTable. -/
  memtableEntries : ℕ
  /-- Its bytes. -/
  memtableBytes : UInt64
  /-- The live tables. -/
  sstableCount : ℕ
  /-- The records replayed when the store was opened. -/
  walReplayed : ℕ
  /-- The number of the active segment. -/
  activeWalId : ℕ
  /-- The generation of the MANIFEST. -/
  manifestGen : ℕ

namespace DB

/-! ## Names -/

/-- `DB::sst_path`. -/
def sstPath (id : ℕ) : Name := ascii "sst_" ++ Codec.padded 6 id ++ ascii ".sst"

/-- `DB::wal_seg_path`. -/
def walSegPath (id : ℕ) : Name := ascii "wal_" ++ Codec.padded 6 id ++ ascii ".log"

/-- The name of a sealed segment. -/
def donePath (seg : Name) : Name := seg ++ ascii ".done"

/-! ## Flush and compaction -/

/-- `DB::update_manifest_locked`. -/
def updateManifestLocked : Io DB Unit := do
  modify fun db ↦ { db with manifestGen := u64 (db.manifestGen + 1) }
  let db ← get
  Manifest.write ⟨db.manifestGen, db.sstables.map (·.path)⟩

/-- `wal_.reset()`, and what the destructor of `DB` does to `wal_`. -/
def resetWal : Io DB Unit := do
  let db ← get
  match db.wal with
  | some f => WAL.close f
  | none => pure ()
  modify fun db ↦ { db with wal := none }

/-- `DB::flush_memtable_locked`. -/
def flushMemtableLocked (sz : Sizing) : Io DB Unit := do
  let db ← get
  if db.memtable.empty then return
  modify fun db ↦ { db with nextSstId := u64 (db.nextSstId + 1) }
  let sst := sstPath db.nextSstId
  SSTable.build sz sst db.memtable.data
  let table ← SSTable.open sst
  modify fun db ↦ { db with sstables := table :: db.sstables }
  updateManifestLocked
  let oldSeg := walSegPath (← get).currentWalId
  resetWal
  let doneSeg := donePath oldSeg
  call (.rename oldSeg doneSeg)
  modify fun db ↦ { db with currentWalId := db.nextSstId }
  let wal ← WAL.open (walSegPath (← get).currentWalId)
  modify fun db ↦ { db with wal := some wal }
  modify fun db ↦ { db with memtable := db.memtable.clear }
  call (.remove doneSeg)
  call (.mark .flushed)

/-- Put the entries of a table into the merged map. -/
def mergeInto (merged : Entries) (es : List SSTEntry) : Entries :=
  es.foldl (fun m e ↦ m.insert e.key ⟨e.value, e.tombstone⟩) merged

/-- The merge loop of `compact_locked`, over the tables oldest first. -/
def mergeTables : List SSTable → Entries → Io DB Entries
  | [], merged => return merged
  | t :: ts, merged => do
    let es ← t.scanAll
    mergeTables ts (mergeInto merged es)

/-- The rest of `compact_locked`: the merged entries that are live become the only table. -/
def mergeRest (sz : Sizing) (merged : Entries) : Io DB Unit := do
  let clean := merged.filter fun _ e ↦ !e.tombstone
  let db ← get
  modify fun db ↦ { db with nextSstId := u64 (db.nextSstId + 1) }
  let newPath := sstPath db.nextSstId
  SSTable.build sz newPath clean
  let old := db.sstables
  modify fun db ↦ { db with sstables := [] }
  let table ← SSTable.open newPath
  modify fun db ↦ { db with sstables := [table] }
  updateManifestLocked
  forM old fun sst ↦ call (.remove sst.path)

/-- What `compact_locked` does after its flush. -/
def merge (sz : Sizing) : Io DB Unit := do
  let merged ← mergeTables (← get).sstables.reverse ∅
  mergeRest sz merged

/-- `DB::compact_locked`. -/
def compactLocked (sz : Sizing) : Io DB Unit := do
  if (← get).sstables.length < 2 then return
  flushMemtableLocked sz
  merge sz

/-- `DB::maybe_flush`. -/
def maybeFlush (sz : Sizing) : Io DB Unit := do
  let db ← get
  if db.opts.memtableFlushBytes ≤ db.memtable.bytes then
    flushMemtableLocked sz
    let db ← get
    if db.opts.compactionThreshold ≤ db.sstables.length then
      compactLocked sz

/-! ## The public operations -/

/-- The segment `wal_` writes to; using it while it is null is an error. -/
def activeWal : Io DB Name := do
  match (← get).wal with
  | some f => return f
  | none => Prog.throw .nullWal

/-- `DB::put`. -/
def put (sz : Sizing) (key value : Bytes) : Io DB Unit := do
  let wal ← activeWal
  WAL.append wal WalOp.put key value
  WAL.sync wal
  modify fun db ↦ { db with memtable := db.memtable.put key value }
  maybeFlush sz

/-- `DB::del`. -/
def del (sz : Sizing) (key : Bytes) : Io DB Unit := do
  let wal ← activeWal
  WAL.append wal WalOp.del key []
  WAL.sync wal
  modify fun db ↦ { db with memtable := db.memtable.del key }
  maybeFlush sz

/-- The loop of `DB::get` over the tables, newest first. -/
def getFrom (key : Bytes) : List SSTable → Io DB (Option Bytes)
  | [] => return none
  | t :: ts => do
    match ← t.lookup key with
    | .notFound => getFrom key ts
    | .tombstone => return none
    | .found v => return some v

/-- `DB::get`. -/
def get (key : Bytes) : Io DB (Option Bytes) := do
  let db ← MonadState.get
  match db.memtable.raw key with
  | some e => return if e.tombstone then none else some e.value
  | none => getFrom key db.sstables

/-- `DB::flush_memtable`. -/
def flushMemtable (sz : Sizing) : Io DB Unit := flushMemtableLocked sz

/-- `DB::compact`. -/
def compact (sz : Sizing) : Io DB Unit := compactLocked sz

/-- `DB::stats`. -/
def stats (db : DB) : DBStats :=
  ⟨db.memtable.size, db.memtable.bytes, db.sstables.length, db.walReplayed, db.currentWalId,
    db.manifestGen⟩

/-! ## Recovery -/

/-- Is the file a sealed WAL segment? -/
def isSealed (p : Name) : Bool := extension p = ascii ".done" && extension (stem p) = ascii ".log"

/-- The number in the name of a file listed in the MANIFEST: the stem without its first four
characters. -/
def listedId (name : Name) : Except Error ℕ := do stoull (← substr (stem name) 4)

/-- The number in the name of a file found in the directory, for the names of the kind looked for:
the right extension and prefix. -/
def scannedId (ext pre : Bytes) (p : Name) : Except Error (Option ℕ) :=
  if extension p ≠ ext then .ok none
  else if (stem p).length < 4 ∨ (stem p).take 4 ≠ pre then .ok none
  else return some (← stoull ((stem p).drop 4))

/-- Open a table that recovery has found, and count its number. -/
def loadTable (id : ℕ) (p : Name) : Io DB Unit := do
  modify fun db ↦ { db with nextSstId := max db.nextSstId (u64 (id + 1)) }
  let table ← SSTable.open p
  modify fun db ↦ { db with sstables := db.sstables ++ [table] }

/-- Steps 1 and 2 of `recover`: delete the temporary MANIFEST and the sealed segments. -/
def removeLeftovers : Io DB Unit := do
  call (.remove Manifest.tmp)
  let names ← listDir
  forM names fun p ↦ if isSealed p then call (.remove p) else pure ()

/-- Step 3 with a MANIFEST. -/
def loadListed : Io DB Unit := do
  let data ← Manifest.read
  modify fun db ↦ { db with manifestGen := data.generation }
  forM data.liveSstables fun name ↦ do
    let id ← Prog.ofExcept (listedId name)
    loadTable id name

/-- The order in which a scanned directory is sorted: by stem, as strings, the greatest first. -/
def stemGe (a b : SSTable) : Bool := compare (stem a.path) (stem b.path) != .lt

/-- Step 3 without one: scan the directory, newest name first, and write the first MANIFEST. -/
def loadScanned : Io DB Unit := do
  let names ← listDir
  forM names fun p ↦ do
    match ← Prog.ofExcept (scannedId (ascii ".sst") (ascii "sst_") p) with
    | none => pure ()
    | some id => loadTable id p
  modify fun db ↦ { db with sstables := db.sstables.mergeSort stemGe }
  updateManifestLocked

/-- Step 3: load the tables. -/
def loadTables : Io DB Unit := do
  if ← Manifest.exists then loadListed else loadScanned

/-- Step 4: delete the tables the MANIFEST does not list. -/
def removeOrphans : Io DB Unit := do
  let live := (← MonadState.get).sstables.map (·.path)
  let names ← listDir
  forM names fun p ↦
    if extension p = ascii ".sst" ∧ p ∉ live then call (.remove p) else pure ()

/-- Collect the active segments of step 5. -/
def walSegments : List Name → Except Error (List (ℕ × Name))
  | [] => return []
  | p :: ps => do
    match ← scannedId (ascii ".log") (ascii "wal_") p with
    | none => walSegments ps
    | some id => return (id, p) :: (← walSegments ps)

/-- The order of `std::pair<uint64_t, fs::path>`. -/
def segLe (a b : ℕ × Name) : Bool := a.1 < b.1 || (a.1 == b.1 && compare a.2 b.2 != .gt)

/-- What recovery does with a record. -/
def applyRecord (r : WalRecord) (t : MemTable) : MemTable :=
  if r.op = WalOp.put then t.put r.key r.value else t.del r.key

/-- Step 5: replay the active segments, oldest first, into the MemTable. -/
def replaySegments : Io DB Unit := do
  let names ← listDir
  let segs ← Prog.ofExcept (walSegments names)
  forM (segs.mergeSort segLe) fun (id, path) ↦ do
    modify fun db ↦ { db with currentWalId := max db.currentWalId id }
    let reader ← WAL.open path
    WAL.replay reader fun r ↦ do
      call (.mark (.replayed r))
      modify fun db ↦
        { db with memtable := applyRecord r db.memtable, walReplayed := db.walReplayed + 1 }
    WAL.close reader

/-- Step 6: open the active segment. -/
def openActive : Io DB Unit := do
  modify fun db ↦ { db with currentWalId := max db.currentWalId db.nextSstId }
  let wal ← WAL.open (walSegPath (← MonadState.get).currentWalId)
  modify fun db ↦ { db with wal := some wal }

/-- `DB::recover`. -/
def recover : Io DB Unit := do
  removeLeftovers
  loadTables
  removeOrphans
  replaySegments
  openActive

/-- `DB::~DB`: flush what is left, then destroy the members. -/
def close (sz : Sizing) : Io DB Unit := do
  if !(← MonadState.get).memtable.empty then flushMemtableLocked sz
  resetWal

end DB

end KeyValStore
