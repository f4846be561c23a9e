import KeyValStore.Store.Contents

/-!
# What the steps of a session do to the contents

A flush goes through four contents (`flushContents`), a merge through two (`mergeContents`), and a
write extends the active segment.  The theorems say that the directories of `FlushStage`,
`MergeStage` and `WAL.Growing` hold these contents, whatever the MANIFEST was before.
-/

set_option autoImplicit false

namespace KeyValStore

open Crash Std

theorem u64_lt (n : ℕ) : u64 n < 2 ^ 64 := Nat.mod_lt _ (by decide)

theorem u64_of_lt {n : ℕ} (h : n < 2 ^ 64) : u64 n = n := Nat.mod_eq_of_lt h

namespace DB

section Contents

variable (sz : Sizing) (db : DB) (C : Contents)

/-- The contents once the MANIFEST lists the table of a flush. -/
def flushList : Contents :=
  C.list (u64 (db.manifestGen + 1)) ((db.nextSstId, db.memtable.data) :: C.tables)

/-- The contents once the active segment has been sealed. -/
def flushSeal : Contents := (flushList db C).setLog db.currentWalId none

/-- **The contents after a flush.** -/
def flushOpen : Contents :=
  (flushSeal db C).setLog (u64 (db.nextSstId + 1))
    (some (((flushSeal db C).logs (u64 (db.nextSstId + 1))).getD {}))

/-- The contents a flush goes through. -/
def flushContents : List Contents := [C, flushList db C, flushSeal db C, flushOpen db C]

/-- **The contents after a merge.** -/
def mergeList : Contents :=
  C.list (u64 (db.manifestGen + 1)) [(db.nextSstId, cleanOf sz C.tables)]

/-- The contents a merge goes through. -/
def mergeContents : List Contents := [C, mergeList sz db C]

/-- The contents while a record is being written, of which `p` has come to the segment. -/
def growing (p : Bytes) : Contents :=
  C.setLog db.currentWalId ((C.logs db.currentWalId).map (·.append p))

/-- **The contents after a record has been logged.** -/
def logged (r : WalRecord) : Contents :=
  C.setLog db.currentWalId ((C.logs db.currentWalId).map fun f ↦ (f.append r.bytes).sync)

end Contents

section Steps

variable {sz : Sizing} {db : DB} {d d' : Disk} {C : Contents}

/-! ## Tables -/

theorem agreeOff_build (n : ℕ) (entries : Entries) (d : Disk) : Disk.AgreeOff (sstPath n) d
    (d.insert (sstPath n) (.saved (SSTable.image sz entries))) :=
  Disk.agreeOff_insert d _ _

theorem holdsLogs_built {logs : ℕ → Option File} (h : HoldsLogs d logs) (n : ℕ)
    (entries : Entries) :
    HoldsLogs (d.insert (sstPath n) (.saved (SSTable.image sz entries))) logs :=
  h.off (J := (· = sstPath n)) (agreeOff_build n entries d) (fun _ hn ↦ hn ▸ .sst n)
    fun id hn ↦ sstPath_ne_walSegPath n id hn.symm

theorem holdsTables_built {ts : List (ℕ × Entries)} (h : HoldsTables sz d ts) {n : ℕ}
    (entries : Entries) (hn : ∀ t ∈ ts, t.1 ≠ n) :
    HoldsTables sz (d.insert (sstPath n) (.saved (SSTable.image sz entries))) ts :=
  h.off (J := (· = sstPath n)) (agreeOff_build n entries d)
    fun t ht h' ↦ hn t ht (sstPath_inj.1 h')

theorem holdsTables_new {n : ℕ} {entries : Entries} (hn : n < 2 ^ 64)
    (hopen : SSTable.Openable sz entries) (d : Disk) :
    HoldsTables sz (d.insert (sstPath n) (.saved (SSTable.image sz entries))) [(n, entries)] := by
  intro t ht
  obtain rfl := List.mem_singleton.1 ht
  exact ⟨hn, hopen, ExtTreeMap.getElem?_insert_self⟩

/-! ## Flush -/

section Flush

variable (hlogs : HoldsLogs d C.logs) (htables : HoldsTables sz d C.tables)
  (hdb : db.sstables = tables sz C.tables) (hfresh : ∀ t ∈ C.tables, t.1 ≠ db.nextSstId)
  (hn : db.nextSstId < 2 ^ 64) (hwal : db.currentWalId < 2 ^ 64)
  (hopen : SSTable.Openable sz db.memtable.data)

include hlogs htables hdb hfresh hn hopen

theorem holds_flushCommitted : Holds sz (flushCommitted sz db d) (flushList db C) := by
  have hpaths : flushManifest db = ⟨u64 (db.manifestGen + 1),
      ((db.nextSstId, db.memtable.data) :: C.tables).map (sstPath ·.1)⟩ := by
    rw [flushManifest, hdb, map_path_tables, List.map_cons]
  rw [flushCommitted, hpaths]
  refine HoldsLogs.commit (holdsLogs_built hlogs _ _) (u64_lt _) ?_
  exact List.forall_mem_cons.2 ⟨holdsTables_new hn hopen d _ List.mem_cons_self,
    holdsTables_built htables _ hfresh⟩

include hwal

theorem holds_flushSealed : Holds sz (flushSealed sz db d) (flushSeal db C) :=
  (holds_flushCommitted hlogs htables hdb hfresh hn hopen).sealed hwal

theorem holds_flushOpened : Holds sz (flushOpened sz db d) (flushOpen db C) :=
  (holds_flushSealed hlogs htables hdb hfresh hn hwal hopen).opened (u64_lt _)

/-- **The directory after a flush.** -/
theorem holds_flushedDisk : Holds sz (flushedDisk sz db d) (flushOpen db C) :=
  (holds_flushOpened hlogs htables hdb hfresh hn hwal hopen).off
    ((Disk.agreeOff_erase _ _).agreeBut (Contents.loose_donePath _ _))

end Flush

/-- **The directories a flush goes through** hold the contents it goes through. -/
theorem holds_of_flushStage (h : Holds sz d C) (hgen : C.gen ≠ none)
    (hdb : db.sstables = tables sz C.tables) (hfresh : ∀ t ∈ C.tables, t.1 ≠ db.nextSstId)
    (hn : db.nextSstId < 2 ^ 64) (hwal : db.currentWalId < 2 ^ 64)
    (hopen : SSTable.Openable sz db.memtable.data) (hs : FlushStage .none sz db d d') :
    ∃ C' ∈ flushContents db C, Holds sz d' C' := by
  have hloose : C.Loose (sstPath db.nextSstId) := Contents.loose_sstPath hgen hfresh
  simp only [flushContents, List.mem_cons, List.not_mem_nil, or_false, exists_eq_or_imp,
    exists_eq_left]
  cases hs with
  | building hoff => exact .inl (h.off (hoff.agreeBut hloose))
  | replacing hrep =>
    rcases hrep with hoff | ⟨hf, -⟩
    · refine .inl (h.off (Disk.AgreeBut.trans (Disk.AgreeOff.agreeBut ?_ hloose)
        (hoff.agreeBut C.loose_tmp)))
      exact Disk.agreeOff_insert d _ _
    · exact hf.elim
  | committed => exact .inr (.inl (holds_flushCommitted h.toHoldsLogs h.tables hdb hfresh hn hopen))
  | «sealed» =>
    exact .inr (.inr (.inl (holds_flushSealed h.toHoldsLogs h.tables hdb hfresh hn hwal hopen)))
  | opened =>
    exact .inr (.inr (.inr (holds_flushOpened h.toHoldsLogs h.tables hdb hfresh hn hwal hopen)))
  | done =>
    exact .inr (.inr (.inr (holds_flushedDisk h.toHoldsLogs h.tables hdb hfresh hn hwal hopen)))

/-! ## Merge -/

/-- **The directory while the tables of a merge are removed**, and after it. -/
theorem holds_mergeRemoving (hlogs : HoldsLogs d C.logs)
    (hfresh : ∀ t ∈ C.tables, t.1 ≠ db.nextSstId)
    (hn : db.nextSstId < 2 ^ 64) (hopen : SSTable.Openable sz (cleanOf sz C.tables))
    {names : List Name} (hnames : names <+: C.tables.map (sstPath ·.1)) :
    Holds sz (eraseAll names (mergeCommitted sz db C.tables d)) (mergeList sz db C) := by
  have hcommitted : Holds sz (mergeCommitted sz db C.tables d) (mergeList sz db C) := by
    have hbuilt : HoldsLogs (mergeBuilt sz db C.tables d) C.logs := holdsLogs_built hlogs _ _
    have hnew : HoldsTables sz (mergeBuilt sz db C.tables d)
        [(db.nextSstId, cleanOf sz C.tables)] :=
      holdsTables_new hn hopen d
    have hcommit := hbuilt.commit (u64_lt (db.manifestGen + 1)) hnew
    exact hcommit
  refine hcommitted.off fun n hnot ↦ ?_
  rw [getElem?_eraseAll, if_neg]
  intro hmem
  obtain ⟨t, ht, rfl⟩ := List.mem_map.1 (hnames.subset hmem)
  refine hnot (Contents.loose_sstPath (by simp [mergeList, Contents.list]) fun t' ht' ↦ ?_)
  rw [List.mem_singleton.1 ht']
  exact (hfresh t ht).symm

/-- **The directories a merge goes through** hold the contents it goes through. -/
theorem holds_of_mergeStage (h : Holds sz d C) (hgen : C.gen ≠ none)
    (hfresh : ∀ t ∈ C.tables, t.1 ≠ db.nextSstId) (hn : db.nextSstId < 2 ^ 64)
    (hopen : SSTable.Openable sz (cleanOf sz C.tables))
    (hs : MergeStage .none sz db C.tables d d') : ∃ C' ∈ mergeContents sz db C, Holds sz d' C' := by
  have hloose : C.Loose (sstPath db.nextSstId) := Contents.loose_sstPath hgen hfresh
  simp only [mergeContents, List.mem_cons, List.not_mem_nil, or_false, exists_eq_or_imp,
    exists_eq_left]
  cases hs with
  | building hoff => exact .inl (h.off (hoff.agreeBut hloose))
  | replacing hrep =>
    rcases hrep with hoff | ⟨hf, -⟩
    · refine .inl (h.off (Disk.AgreeBut.trans (Disk.AgreeOff.agreeBut ?_ hloose)
        (hoff.agreeBut C.loose_tmp)))
      exact Disk.agreeOff_insert d _ _
    · exact hf.elim
  | removing hnames => exact .inr (holds_mergeRemoving h.toHoldsLogs hfresh hn hopen hnames)

/-! ## Write -/

theorem holds_of_growing (h : Holds sz d C) (hwal : db.currentWalId < 2 ^ 64) {bs : Bytes}
    (hg : WAL.Growing (walSegPath db.currentWalId) bs d d') :
    ∃ p, p <+: bs ∧ Holds sz d' (growing db C p) := by
  obtain ⟨p, hp, rfl⟩ := hg
  exact ⟨p, hp, h.modified hwal _⟩

theorem holds_loggedDisk (h : Holds sz d C) (hwal : db.currentWalId < 2 ^ 64) (r : WalRecord) :
    Holds sz (loggedDisk (walSegPath db.currentWalId) r d) (logged db C r) :=
  h.modified hwal _

end Steps

end DB

end KeyValStore
