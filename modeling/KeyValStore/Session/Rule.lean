import KeyValStore.Session.Write

/-!
# The invariant rule of a session

On a reliable directory an operation is a sequence of writes, flushes and merges.  `Keeps` says what
has to be known of an invariant for each of these steps; the theorems below conclude that it is kept
by every operation, that no operation throws, and that every call is one the watch accepts.
-/

set_option autoImplicit false

namespace KeyValStore

open Crash Std

namespace DB

/-- **An invariant that flushes and merges keep**, on a reliable directory under the watch `W`. -/
structure Keeps (sz : Sizing) (W : Watch (Call Mark) DB Disk) (I : DB → Disk → Prop) : Prop where
  /-- Calls that change nothing may be made between the steps. -/
  idle : ∀ {db : DB} {d : Disk}, I db d → Allows W (· = d)
  /-- The building of the table of a flush. -/
  flushBuild : ∀ {db : DB} {d : Disk}, I db d → db.memtable.empty = false →
    W.always (buildEvent db db.memtable.data d)
  /-- A flush. -/
  flush : ∀ {db : DB} {d : Disk}, I db d → db.memtable.empty = false →
    W.assume (buildEvent db db.memtable.data d) → SSTable.Openable sz db.memtable.data ∧
      (∀ ev, FlushEvent .none sz db d ev → W.always ev) ∧ I (flushedDb sz db) (flushedDisk sz db d)
  /-- A merge. -/
  merge : ∀ {db : DB} {d : Disk}, I db d → db.memtable.empty = true →
    ∃ ts, db.sstables = tables sz ts ∧ Stored sz d ts ∧
      W.always (buildEvent db (cleanOf sz ts) d) ∧
      (W.assume (buildEvent db (cleanOf sz ts) d) → SSTable.Openable sz (cleanOf sz ts) ∧
        (∀ ev, MergeEvent .none sz db ts d ev → W.always ev) ∧
        I (mergedDb sz db ts) (mergedDisk sz db ts d))

theorem not_flushThrew_none {sz : Sizing} {db db' : DB} {d d' : Disk} {e : Error} :
    ¬FlushThrew .none sz db d e db' d' := by
  intro h
  cases h with
  | build hf => exact hf
  | «open» hf => exact hf
  | manifest _ hf _ =>
    rcases hf with hf | ⟨_, hf⟩ | hf
    · exact hf
    · exact hf
    · exact hf
  | wal hf => exact hf

theorem not_mergeThrew_none {sz : Sizing} {db db' : DB} {ts : List (ℕ × Entries)} {d d' : Disk}
    {e : Error} : ¬MergeThrew .none sz db ts d e db' d' := by
  intro h
  cases h with
  | build hf => exact hf
  | «open» hf => exact hf
  | manifest _ hf _ =>
    rcases hf with hf | ⟨_, hf⟩ | hf
    · exact hf
    · exact hf
    · exact hf

namespace Keeps

variable {sz : Sizing} {W : Watch (Call Mark) DB Disk} {I : DB → Disk → Prop} {db : DB} {d : Disk}

/-- After a flush the MemTable is empty. -/
theorem wp_flush (h : Keeps sz W I) (hI : I db d) : (flushMemtableLocked sz).wp reliable W
    (fun _ db d ↦ I db d ∧ db.memtable.empty = true) (fun _ _ _ ↦ False) db d := by
  cases hne : db.memtable.empty with
  | true => exact wp_flushMemtableLocked_empty hne ⟨hI, hne⟩
  | false =>
    refine wp_flushMemtableLocked throwing_none hne (h.flushBuild hI hne) fun hA ↦ ?_
    obtain ⟨hopen, hw, hI'⟩ := h.flush hI hne hA
    exact ⟨hopen, hw, fun _ _ _ ↦ not_flushThrew_none, hI', ExtTreeMap.isEmpty_empty⟩

theorem wp_compact (h : Keeps sz W I) (hI : I db d) : (compactLocked sz).wp reliable W
    (fun _ db d ↦ I db d) (fun _ _ _ ↦ False) db d := by
  by_cases hlen : db.sstables.length < 2
  · exact wp_compactLocked_few hlen hI
  refine wp_compactLocked hlen (wp_mono (h.wp_flush hI) (fun _ db d ⟨hI, he⟩ ↦ ?_) fun _ _ _ ↦ id)
  obtain ⟨ts, hdb, hts, hbuild, hmerge⟩ := h.merge hI he
  refine wp_merge throwing_none (fun _ _ _ ↦ id) hdb hts (h.idle hI) hbuild fun hA ↦ ?_
  obtain ⟨hopen, hw, hI'⟩ := hmerge hA
  exact ⟨hopen, hw, fun _ _ _ h _ ↦ not_mergeThrew_none h, hI'⟩

theorem wp_maybeFlush (h : Keeps sz W I) (hI : I db d) : (maybeFlush sz).wp reliable W
    (fun _ db d ↦ I db d) (fun _ _ _ ↦ False) db d := by
  refine DB.wp_maybeFlush (fun _ ↦ hI) fun _ ↦ ?_
  refine wp_mono (h.wp_flush hI) (fun _ db d ⟨hI, _⟩ ↦ ?_) fun _ _ _ ↦ id
  split
  · exact h.wp_compact hI
  · exact hI

/-- A write keeps the invariant if logging and applying the record does. -/
theorem wp_write (h : Keeps sz W I) {r : WalRecord}
    (hwal : db.wal = some (walSegPath db.currentWalId))
    (hw : Allows W (WAL.Growing (walSegPath db.currentWalId) r.bytes d))
    (hI : I (applied r db) (loggedDisk (walSegPath db.currentWalId) r d)) :
    (writeRecord sz r).wp reliable W (fun _ db d ↦ I db d) (fun _ _ _ ↦ False) db d :=
  wp_writeRecord throwing_none hwal (walSegPath_ne_tmp _) hw (h.wp_maybeFlush hI)

/-- A close leaves a directory that goes with an empty MemTable. -/
theorem wp_close (h : Keeps sz W I) (hI : I db d) : (close sz).wp reliable W
    (fun _ _ d ↦ ∃ db, I db d ∧ db.memtable.empty = true) (fun _ _ _ ↦ False) db d := by
  have hreset : ∀ {db : DB} {d : Disk}, I db d → db.memtable.empty = true →
      resetWal.wp reliable W (fun _ _ d ↦ ∃ db, I db d ∧ db.memtable.empty = true)
        (fun _ _ _ ↦ False) db d := fun hI he ↦
    wp_resetWal throwing_none (h.idle hI) ⟨_, hI, he⟩
  rw [close, wp_bind, Crash.wp_get]
  cases he : db.memtable.empty with
  | true => exact hreset hI he
  | false =>
    simp only [Bool.not_false, if_true]
    rw [wp_bind]
    exact wp_mono (h.wp_flush hI) (fun _ _ _ ⟨hI, he⟩ ↦ hreset hI he) fun _ _ _ ↦ id

end Keeps

end DB

end KeyValStore
