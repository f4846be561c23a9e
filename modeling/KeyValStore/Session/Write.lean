import KeyValStore.Session.Compact

/-!
# What a write does

`put` and `del` are one program, `writeRecord`, for the record they log: it appends the record to
the active segment, syncs it, applies it to the MemTable and flushes if the MemTable has grown too
large.
-/

set_option autoImplicit false

namespace KeyValStore

open Crash Std

namespace DB

/-- The object once a record has been applied. -/
def applied (r : WalRecord) (db : DB) : DB := { db with memtable := applyRecord r db.memtable }

/-- The directory once a record has been logged. -/
def loggedDisk (seg : Name) (r : WalRecord) (d : Disk) : Disk :=
  d.modify seg fun f ↦ (f.append r.bytes).sync

/-- The first part of `put` and `del`: the record is appended to the segment and synced. -/
def logRecord (r : WalRecord) : Io DB Unit := do
  let wal ← activeWal
  WAL.append wal r.op r.key r.value
  WAL.sync wal

/-- The second part: the record is applied, and the MemTable flushed if it has grown too large. -/
def finishWrite (sz : Sizing) (r : WalRecord) : Io DB Unit := do
  modify (applied r)
  maybeFlush sz

/-- What `put` and `del` do with the record they log. -/
def writeRecord (sz : Sizing) (r : WalRecord) : Io DB Unit := do
  logRecord r
  finishWrite sz r

theorem put_eq (sz : Sizing) (key value : Bytes) :
    put sz key value = writeRecord sz ⟨WalOp.put, key, value⟩ := by
  rw [writeRecord, logRecord, Prog.bind_assoc]
  rfl

theorem del_eq (sz : Sizing) (key : Bytes) :
    del sz key = writeRecord sz ⟨WalOp.del, key, []⟩ := by
  rw [writeRecord, logRecord, Prog.bind_assoc]
  rfl

section Rules

variable {F : Faults Mark} {W : Watch (Call Mark) DB Disk} {E : Error → DB → Disk → Prop}
  {db : DB} {d : Disk} {sz : Sizing}

/-- **What a write does.** -/
theorem wp_writeRecord {Q : Unit → DB → Disk → Prop} {seg : Name} {r : WalRecord}
    (hF : Throwing F) (hwal : db.wal = some seg) (hseg : seg ≠ Manifest.tmp)
    (hw : Allows W (WAL.Growing seg r.bytes d))
    (h : (maybeFlush sz).wp (device F) W Q E (applied r db) (loggedDisk seg r d)) :
    (writeRecord sz r).wp (device F) W Q E db d := by
  rw [writeRecord, wp_bind, logRecord, wp_bind, activeWal, wp_bind, Crash.wp_get, hwal,
    wp_pure, wp_bind]
  refine WAL.wp_append (hF.short_write hseg) hw ?_
  refine WAL.wp_sync hF (hw.mono ?_) ?_
  · rintro _ rfl
    exact ⟨_, List.prefix_rfl, rfl⟩
  rw [finishWrite, wp_bind, wp_modify, Disk.modify_modify]
  exact h

/-- A write while `wal_` is null. -/
theorem wp_writeRecord_null {Q : Unit → DB → Disk → Prop} {r : WalRecord} (hwal : db.wal = none)
    (h : E .nullWal db d) : (writeRecord sz r).wp (device F) W Q E db d := by
  rw [writeRecord, wp_bind, logRecord, wp_bind, activeWal, wp_bind, Crash.wp_get, hwal]
  exact h

/-- Whether a write goes on to flush, and to compact. -/
theorem wp_maybeFlush {Q : Unit → DB → Disk → Prop}
    (hsmall : ¬db.opts.memtableFlushBytes ≤ db.memtable.bytes → Q () db d)
    (hlarge : db.opts.memtableFlushBytes ≤ db.memtable.bytes →
      (flushMemtableLocked sz).wp (device F) W (fun _ db d ↦
        if db.opts.compactionThreshold ≤ db.sstables.length then
          (compactLocked sz).wp (device F) W Q E db d
        else Q () db d) E db d) :
    (maybeFlush sz).wp (device F) W Q E db d := by
  rw [maybeFlush, wp_bind, Crash.wp_get]
  by_cases hb : db.opts.memtableFlushBytes ≤ db.memtable.bytes
  · rw [if_pos hb, wp_bind]
    refine wp_mono (hlarge hb) (fun _ db d h ↦ ?_) fun _ _ _ h ↦ h
    rw [wp_bind, Crash.wp_get, wp_ite]
    exact h
  · rw [if_neg hb]
    exact hsmall hb

end Rules

end DB

end KeyValStore
