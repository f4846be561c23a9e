import KeyValStore.Store.Changes

/-!
# The inventory

`Contents.Sound` is what holds of the contents of a directory at every step of every history: the
numbers of the tables decrease strictly, the next number is above them all, the generation counts
the tables that have been built, and no segment has a number above the next one.  `Opened` adds how
an open object goes with the contents between two operations.

The numbers are 64 bits wide; a step that takes the number `n` keeps the invariant as long as
`n + 1` is a number, too.
-/

set_option autoImplicit false

namespace KeyValStore

open Crash Std
open DB (tables walSegPath flushedDb flushedDisk mergedDb mergedDisk applied loggedDisk cleanOf)

/-- The number recovery counts on from: one more than the greatest number of a table. -/
def nextOf : List (ℕ × Entries) → ℕ
  | [] => 0
  | t :: ts => max (u64 (t.1 + 1)) (nextOf ts)

theorem nextOf_lt (ts : List (ℕ × Entries)) : nextOf ts < 2 ^ 64 := by
  induction ts with
  | nil => exact Nat.two_pow_pos 64
  | cons t ts ih => exact max_lt (u64_lt _) ih

/-- **What holds of the contents at every step.** -/
structure Contents.Sound (C : Contents) : Prop where
  /-- The newest table comes first. -/
  sorted : C.tables.Pairwise fun a b ↦ b.1 < a.1
  /-- The next number is free. -/
  fresh : ∀ t ∈ C.tables, t.1 < nextOf C.tables
  /-- The generation counts the tables that have been built. -/
  gen : ∀ g, C.gen = some g → g = u64 (nextOf C.tables + 1)
  /-- No segment has a number above the next one. -/
  logs : ∀ id, C.logs id ≠ none → id ≤ nextOf C.tables

/-- The segment with the number `w` is the one that is written to, and the last one. -/
structure Contents.Current (C : Contents) (w : ℕ) : Prop where
  /-- It is there. -/
  active : C.logs w ≠ none
  /-- It is the last one. -/
  last : ∀ id, C.logs id ≠ none → id ≤ w
  /-- Its number is not above the next one. -/
  le : w ≤ nextOf C.tables

/-- **What holds of an open store between two operations.** -/
structure Opened (sz : Sizing) (db : DB) (d : Disk) (C : Contents) : Prop where
  /-- The directory holds the contents. -/
  holds : Holds sz d C
  /-- The contents are sound. -/
  sound : C.Sound
  /-- The object knows the generation. -/
  gen : C.gen = some db.manifestGen
  /-- It has the tables that are listed. -/
  tables : db.sstables = tables sz C.tables
  /-- It knows the next number. -/
  next : db.nextSstId = nextOf C.tables
  /-- It writes to the current segment. -/
  wal : db.wal = some (walSegPath db.currentWalId)
  /-- The current segment is there. -/
  active : C.logs db.currentWalId ≠ none
  /-- It is the last one. -/
  last : ∀ id, C.logs id ≠ none → id ≤ db.currentWalId

namespace Contents.Sound

variable {C : Contents}

theorem setLog (h : C.Sound) {id : ℕ} {o : Option File} (hid : id ≤ nextOf C.tables) :
    (C.setLog id o).Sound where
  sorted := h.sorted
  fresh := h.fresh
  gen := h.gen
  logs id' h' := by
    by_cases hne : id' = id
    · exact hne ▸ hid
    · exact h.logs id' (C.setLog_logs_ne o hne ▸ h')

theorem crashed (h : C.Sound) {C' : Contents} (hc : C.Crashed C') : C'.Sound where
  sorted := hc.tables ▸ h.sorted
  fresh := hc.tables ▸ h.fresh
  gen g hg := hc.tables ▸ h.gen g (hc.gen ▸ hg)
  logs id hid := hc.tables ▸ h.logs id fun hne ↦ hid ((hc.logs_eq_none_iff id).2 hne)

/-- A new table in front. -/
theorem cons (h : C.Sound) {n g : ℕ} (hn : n = nextOf C.tables) (hlt : n + 1 < 2 ^ 64)
    (hg : C.gen = some g) (entries : Entries) :
    (C.list (u64 (g + 1)) ((n, entries) :: C.tables)).Sound := by
  have hnext : nextOf ((n, entries) :: C.tables) = n + 1 := by
    rw [nextOf, u64_of_lt hlt, ← hn]
    exact max_eq_left (Nat.le_succ n)
  refine ⟨?_, ?_, ?_, ?_⟩
  · exact List.pairwise_cons.2 ⟨fun t ht ↦ hn ▸ h.fresh t ht, h.sorted⟩
  · intro t ht
    rw [Contents.list, hnext]
    rcases List.mem_cons.1 ht with rfl | ht
    · exact Nat.lt_succ_self _
    · exact (h.fresh t ht).trans_le (hn ▸ Nat.le_succ n)
  · rintro _ ⟨⟩
    rw [Contents.list, hnext, h.gen g hg, ← hn]
    simp only [u64]
    omega
  · intro id hid
    rw [Contents.list, hnext]
    exact (h.logs id hid).trans (hn ▸ Nat.le_succ n)

/-- A new table instead of the others. -/
theorem single (h : C.Sound) {n g : ℕ} (hn : n = nextOf C.tables) (hlt : n + 1 < 2 ^ 64)
    (hg : C.gen = some g) (entries : Entries) :
    (C.list (u64 (g + 1)) [(n, entries)]).Sound := by
  have hnext : nextOf [(n, entries)] = n + 1 := by
    rw [nextOf, u64_of_lt hlt, nextOf]
    exact max_eq_left (Nat.zero_le _)
  refine ⟨List.pairwise_singleton _ _, ?_, ?_, ?_⟩
  · intro t ht
    obtain rfl := List.mem_singleton.1 ht
    rw [Contents.list, hnext]
    exact Nat.lt_succ_self _
  · rintro _ ⟨⟩
    rw [Contents.list, hnext, h.gen g hg, ← hn]
    simp only [u64]
    omega
  · intro id hid
    rw [Contents.list, hnext]
    exact (h.logs id hid).trans (hn ▸ Nat.le_succ n)

end Contents.Sound

/-- The segments after a flush: the current one is empty, the one before is gone. -/
theorem DB.flushOpen_logs {db : DB} {C : Contents}
    (hlast : ∀ id, C.logs id ≠ none → id ≤ db.currentWalId)
    (hle : db.currentWalId ≤ db.nextSstId) (hlt : db.nextSstId + 1 < 2 ^ 64) (id : ℕ) :
    (DB.flushOpen db C).logs id =
      if id = db.nextSstId + 1 then some {} else if id = db.currentWalId then none
        else C.logs id := by
  have hwal : db.nextSstId + 1 ≠ db.currentWalId := (Nat.lt_succ_of_le hle).ne'
  have hnone : C.logs (db.nextSstId + 1) = none := by
    by_contra hne
    exact absurd ((hlast _ hne).trans hle) (Nat.not_succ_le_self _)
  rw [DB.flushOpen, u64_of_lt hlt]
  by_cases hid : id = db.nextSstId + 1
  · rw [if_pos hid, hid, Contents.setLog_logs_self, DB.flushSeal, Contents.setLog_logs_ne _ _ hwal,
      DB.flushList, Contents.list_logs, hnone]
    rfl
  rw [if_neg hid, Contents.setLog_logs_ne _ _ hid, DB.flushSeal]
  by_cases hw : id = db.currentWalId
  · rw [if_pos hw, hw, Contents.setLog_logs_self]
  · rw [if_neg hw, Contents.setLog_logs_ne _ _ hw]
    rfl

namespace Opened

variable {sz : Sizing} {db : DB} {d : Disk} {C : Contents}

theorem next_lt (h : Opened sz db d C) : db.nextSstId < 2 ^ 64 := h.next ▸ nextOf_lt _

theorem wal_le (h : Opened sz db d C) : db.currentWalId ≤ db.nextSstId :=
  h.next ▸ h.sound.logs _ h.active

theorem wal_lt (h : Opened sz db d C) : db.currentWalId < 2 ^ 64 := h.wal_le.trans_lt h.next_lt

theorem current (h : Opened sz db d C) : C.Current db.currentWalId :=
  ⟨h.active, h.last, h.next ▸ h.wal_le⟩

theorem fresh (h : Opened sz db d C) : ∀ t ∈ C.tables, t.1 ≠ db.nextSstId := fun t ht ↦
  (h.next ▸ h.sound.fresh t ht).ne

theorem gen_ne (h : Opened sz db d C) : C.gen ≠ none := by
  rw [h.gen]
  exact Option.some_ne_none _

/-! ## Flush -/

section Flush

variable (h : Opened sz db d C) (hlt : db.nextSstId + 1 < 2 ^ 64)

include h hlt

theorem nextOf_flushList : nextOf (DB.flushList db C).tables = db.nextSstId + 1 := by
  rw [DB.flushList, Contents.list, nextOf, u64_of_lt hlt, ← h.next]
  exact max_eq_left (Nat.le_succ _)

theorem sound_flushContents : ∀ C' ∈ DB.flushContents db C, C'.Sound := by
  have hlist : (DB.flushList db C).Sound := h.sound.cons h.next hlt h.gen _
  have hnext := h.nextOf_flushList hlt
  have hseal : (DB.flushSeal db C).Sound :=
    hlist.setLog (hnext ▸ h.wal_le.trans (Nat.le_succ _))
  have hopen : (DB.flushOpen db C).Sound := by
    refine hseal.setLog ?_
    rw [u64_of_lt hlt]
    exact hnext.ge
  simp only [DB.flushContents, List.forall_mem_cons]
  exact ⟨h.sound, hlist, hseal, hopen, fun _ ht ↦ absurd ht List.not_mem_nil⟩

/-- **A flush keeps the invariant.** -/
theorem flushed (hopen : SSTable.Openable sz db.memtable.data) :
    Opened sz (flushedDb sz db) (flushedDisk sz db d) (DB.flushOpen db C) where
  holds := DB.holds_flushedDisk h.holds.toHoldsLogs h.holds.tables h.tables h.fresh h.next_lt
    h.wal_lt hopen
  sound := h.sound_flushContents hlt _ (by simp [DB.flushContents])
  gen := rfl
  tables := by rw [flushedDb, DB.flushListed, h.tables]; rfl
  next := (u64_of_lt hlt).trans (h.nextOf_flushList hlt).symm
  wal := rfl
  active := by
    rw [flushedDb, u64_of_lt hlt, DB.flushOpen_logs h.last h.wal_le hlt, if_pos rfl]
    exact Option.some_ne_none _
  last id hid := by
    rw [flushedDb, u64_of_lt hlt]
    rw [DB.flushOpen_logs h.last h.wal_le hlt] at hid
    split at hid
    · rename_i heq
      exact heq.le
    split at hid
    · exact absurd rfl hid
    · exact ((h.last id hid).trans h.wal_le).trans (Nat.le_succ _)

end Flush

/-! ## Merge -/

section Merge

variable (h : Opened sz db d C) (hlt : db.nextSstId + 1 < 2 ^ 64)

include h hlt

theorem sound_mergeContents : ∀ C' ∈ DB.mergeContents sz db C, C'.Sound := by
  simp only [DB.mergeContents, List.forall_mem_cons]
  exact ⟨h.sound, h.sound.single h.next hlt h.gen _, fun _ ht ↦ absurd ht List.not_mem_nil⟩

/-- **A merge keeps the invariant.** -/
theorem merged (hopen : SSTable.Openable sz (cleanOf sz C.tables)) :
    Opened sz (mergedDb sz db C.tables) (mergedDisk sz db C.tables d) (DB.mergeList sz db C) where
  holds := DB.holds_mergeRemoving h.holds.toHoldsLogs h.fresh h.next_lt hopen List.prefix_rfl
  sound := h.sound_mergeContents hlt _ (by simp [DB.mergeContents])
  gen := rfl
  tables := rfl
  next := by
    rw [mergedDb, DB.taken, DB.mergeList, Contents.list, nextOf, nextOf]
    exact (max_eq_left (Nat.zero_le _)).symm
  wal := h.wal
  active := h.active
  last := h.last

end Merge

/-! ## Write -/

theorem sound_growing (h : Opened sz db d C) (p : Bytes) : (DB.growing db C p).Sound :=
  h.sound.setLog (h.next ▸ h.wal_le)

/-- **Logging a record keeps the invariant.** -/
theorem written (h : Opened sz db d C) (r : WalRecord) :
    Opened sz (applied r db) (loggedDisk (walSegPath db.currentWalId) r d) (DB.logged db C r) where
  holds := DB.holds_loggedDisk h.holds h.wal_lt r
  sound := h.sound.setLog (h.next ▸ h.wal_le)
  gen := h.gen
  tables := h.tables
  next := h.next
  wal := h.wal
  active := by
    rw [applied, DB.logged, Contents.setLog_logs_self, Ne, Option.map_eq_none_iff]
    exact h.active
  last id hid := by
    by_cases hne : id = db.currentWalId
    · exact hne.le
    · rw [DB.logged, Contents.setLog_logs_ne _ _ hne] at hid
      exact h.last id hid

end Opened

end KeyValStore
