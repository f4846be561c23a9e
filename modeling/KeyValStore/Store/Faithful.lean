import KeyValStore.Store.View

/-!
# Faithful sessions

A session is *faithful* when its MemTable is what a replay of the segments would give.  It stays so
when records are written and tables are merged; a flush seals the current segment only, so it needs
that no other segment has records (`NoStale`).  Then nothing that a flush or a merge goes through
would be recovered differently (`Yields`).
-/

set_option autoImplicit false

namespace KeyValStore

open Crash Std Overlay
open DB (applied flushedDb flushedDisk mergedDb mergedDisk loggedDisk shown walSegPath tableLayer)

/-! ## Crashes -/

namespace Contents

/-- Whatever a crash leaves of the contents, recovery will show one of the given maps. -/
structure Yields (C : Contents) (P : (Bytes → Option Bytes) → Prop) : Prop where
  /-- All strings in the tables are short. -/
  short : C.IsShort
  /-- What recovery will show. -/
  view : ∀ C', C.Crashed C' → P C'.view

theorem Yields.mono {C : Contents} {P P' : (Bytes → Option Bytes) → Prop} (h : C.Yields P)
    (hP : ∀ v, P v → P' v) : C.Yields P' :=
  ⟨h.short, fun C' hc ↦ hP _ (h.view C' hc)⟩

/-- Every segment is durable. -/
def Settled (C : Contents) : Prop := ∀ id f, C.logs id = some f → f = .saved f.content

/-- What a crash leaves is durable. -/
theorem Crashed.settled {C C' : Contents} (hc : C.Crashed C') : C'.Settled := by
  intro id f hf
  have hrel := hc.logs id
  rw [hf] at hrel
  generalize C.logs id = o at hrel
  cases hrel with
  | some h =>
    obtain ⟨p, -, rfl⟩ := h
    rw [File.content_saved]

/-- A crash changes nothing that is durable. -/
theorem Settled.eq_of_crashed {C C' : Contents} (h : C.Settled) (hc : C.Crashed C') : C' = C := by
  have hlogs : C'.logs = C.logs := by
    funext id
    have hrel := hc.logs id
    cases hid : C.logs id with
    | none => exact (hc.logs_eq_none_iff id).2 hid
    | some f =>
      rw [hid, h id f hid] at hrel
      generalize C'.logs id = o at hrel
      cases hrel with
      | some hf => rw [File.crashed_saved_iff.1 hf, ← h id f hid]
  obtain ⟨gen, tables, logs⟩ := C'
  obtain ⟨hgen, htables, -⟩ := hc
  subst hgen htables hlogs
  rfl

theorem Whole.settled {C : Contents} (h : C.Whole) : C.Settled := by
  intro id f hid
  obtain ⟨rs, -, rfl⟩ := h id f hid
  rw [File.content_saved]

/-- Complete segments survive a crash as they are. -/
theorem Whole.eq_of_crashed {C C' : Contents} (h : C.Whole) (hc : C.Crashed C') : C' = C :=
  h.settled.eq_of_crashed hc

theorem Whole.yields {C : Contents} (h : C.Whole) (hs : C.IsShort)
    {P : (Bytes → Option Bytes) → Prop} (hP : P C.view) : C.Yields P :=
  ⟨hs, fun _ hc ↦ h.eq_of_crashed hc ▸ hP⟩

theorem Whole.setLog {C : Contents} (h : C.Whole) {id : ℕ} {o : Option File}
    (ho : ∀ f, o = some f →
      ∃ rs : List WalRecord, (∀ r ∈ rs, r.IsShort) ∧ f = .saved (walCodec.encAll rs)) :
    (C.setLog id o).Whole := by
  intro id' f hf
  by_cases hid : id' = id
  · subst hid
    rw [C.setLog_logs_self] at hf
    exact ho f hf
  · rw [C.setLog_logs_ne o hid] at hf
    exact h id' f hf

end Contents

/-- An empty segment is complete. -/
theorem whole_empty : ∀ f : File, some {} = some f →
    ∃ rs : List WalRecord, (∀ r ∈ rs, r.IsShort) ∧ f = .saved (walCodec.encAll rs) := by
  rintro _ ⟨⟩
  exact ⟨[], fun _ hr ↦ absurd hr List.not_mem_nil, rfl⟩

@[simp] theorem logRecords_empty : logRecords (some {}) = [] := by
  rw [logRecords_some, walRecords_eq]
  exact Codec.SelfDelimiting.all_nil

/-- The segments recovery leaves have the records they had. -/
theorem Contents.logRecords_reopened (C : Contents) (id : ℕ) :
    logRecords (C.reopened.logs id) = logRecords (C.logs id) := by
  rw [C.reopened_logs]
  split
  · cases C.logs id with
    | none => exact logRecords_empty
    | some f => rfl
  · rfl

theorem logRecords_saved {rs : List WalRecord} (h : ∀ r ∈ rs, r.IsShort) :
    logRecords (some (.saved (walCodec.encAll rs))) = rs := by
  rw [logRecords_some, File.content_saved, walRecords_eq]
  exact Codec.SelfDelimiting.all_encAll h

/-- The end of a segment that is not a complete record does not count. -/
theorem logRecords_torn {rs : List WalRecord} (h : ∀ r ∈ rs, r.IsShort) {r : WalRecord}
    (hr : r.IsShort) {t : Bytes} (ht : t <+: r.bytes) (hne : t ≠ r.bytes) :
    logRecords (some (.saved (walCodec.encAll rs ++ t))) = rs := by
  rw [logRecords_some, File.content_saved, walRecords_eq]
  exact Codec.SelfDelimiting.all_encAll_append_strict_prefix (C := walCodec) h hr ht hne

/-- **A record that is logged** is the last one to be replayed. -/
theorem Contents.Current.logged {C : Contents} {w : ℕ} (h : C.Current w) {rs : List WalRecord}
    (hrs : ∀ r ∈ rs, r.IsShort) (hlog : C.logs w = some (.saved (walCodec.encAll rs)))
    {r : WalRecord} (hr : r.IsShort) :
    (∀ r' ∈ rs ++ [r], r'.IsShort) ∧
    (C.setLog w ((C.logs w).map fun f ↦ (f.append r.bytes).sync)).logs w =
      some (.saved (walCodec.encAll (rs ++ [r]))) ∧
    (C.setLog w ((C.logs w).map fun f ↦ (f.append r.bytes).sync)).records = C.records ++ [r] := by
  have hnew : (C.logs w).map (fun f ↦ (f.append r.bytes).sync) =
      some (.saved (walCodec.encAll (rs ++ [r]))) := by
    rw [hlog, Option.map_some, File.sync_eq_saved, File.content_append, File.content_saved,
      Codec.SelfDelimiting.encAll_append]
    simp [walCodec]
  have hshort : ∀ r' ∈ rs ++ [r], r'.IsShort := by
    rw [List.forall_mem_append]
    exact ⟨hrs, List.forall_mem_singleton.2 hr⟩
  refine ⟨hshort, (C.setLog_logs_self _ _).trans hnew, ?_⟩
  rw [h.records_setLog, hnew, logRecords_saved hshort, h.records_eq, hlog, logRecords_saved hrs,
    List.append_assoc]

/-! ## Faithful sessions -/

/-- No segment but the current one has records. -/
def NoStale (db : DB) (C : Contents) : Prop :=
  ∀ id, id ≠ db.currentWalId → logRecords (C.logs id) = []

theorem NoStale.logged {db : DB} {C : Contents} (h : NoStale db C) (r : WalRecord) :
    NoStale (DB.applied r db) (DB.logged db C r) := fun id hid ↦ by
  have hlog : (DB.logged db C r).logs id = C.logs id := C.setLog_logs_ne _ hid
  rw [hlog]
  exact h id hid

/-- **The MemTable is what a replay of the segments would give.** -/
structure Faithful (db : DB) (C : Contents) : Prop where
  /-- All strings in the tables are short. -/
  short : C.IsShort
  /-- All strings in the MemTable are short. -/
  memShort : db.memtable.data.IsShort
  /-- The segments are complete. -/
  whole : C.Whole
  /-- The MemTable is what a replay would give. -/
  mirror : db.memtable.data.layer = writes blank (C.records.map WalRecord.write)

namespace Faithful

variable {sz : Sizing} {db : DB} {d : Disk} {C : Contents}

theorem view_eq (h : Faithful db C) : C.view = shown db.memtable.data C.tables := by
  rw [shown, h.mirror, Contents.view]

/-- While the MemTable is empty there is nothing to replay. -/
theorem records_of_empty (h : Faithful db C) (he : db.memtable.empty = true) : C.records = [] := by
  have hblank := h.mirror.symm.trans (layer_of_empty he)
  exact List.map_eq_nil_iff.1 (eq_nil_of_writes_blank hblank)

/-! ### Write -/

/-- **Logging and applying a record keeps a session faithful.** -/
theorem logged (hf : Faithful db C) (h : C.Current db.currentWalId) {r : WalRecord}
    (hr : r.IsShort) : Faithful (applied r db) (DB.logged db C r) := by
  obtain ⟨f, hlog⟩ := Option.ne_none_iff_exists'.1 h.active
  obtain ⟨rs, hrs, rfl⟩ := hf.whole _ f hlog
  obtain ⟨hshort, hnew, hrecords⟩ := h.logged hrs hlog hr
  refine ⟨hf.short, isShort_applyRecord hr hf.memShort, ?_, ?_⟩
  · refine hf.whole.setLog fun f hf ↦ ?_
    rw [← C.setLog_logs_self db.currentWalId ((C.logs db.currentWalId).map _)] at hf
    rw [hnew, Option.some_inj] at hf
    exact ⟨_, hshort, hf.symm⟩
  · rw [DB.logged, hrecords, List.map_append, writes_append, ← hf.mirror]
    exact layer_applyRecord r db.memtable

/-- **While a record is being written**, a crash loses it or keeps it. -/
theorem yields_growing (hf : Faithful db C) (h : C.Current db.currentWalId) {r : WalRecord}
    (hr : r.IsShort) {p : Bytes} (hp : p <+: r.bytes) : (DB.growing db C p).Yields fun v ↦
      v = shown db.memtable.data C.tables ∨ v = shown (applied r db).memtable.data C.tables := by
  obtain ⟨f, hlog⟩ := Option.ne_none_iff_exists'.1 h.active
  obtain ⟨rs, hrs, rfl⟩ := hf.whole _ f hlog
  refine ⟨hf.short, fun C' hc ↦ ?_⟩
  -- what is left of the current segment
  have hcur := hc.logs db.currentWalId
  rw [DB.growing, Contents.setLog_logs_self, hlog, Option.map_some] at hcur
  generalize ho : C'.logs db.currentWalId = o at hcur
  obtain ⟨q, hq, rfl⟩ : ∃ q, q <+: p ∧ o = some (.saved (walCodec.encAll rs ++ q)) := by
    cases hcur with
    | some hf' =>
      obtain ⟨q, hq, rfl⟩ := hf'
      exact ⟨q, hq, rfl⟩
  -- the other segments are as they were
  have hother : ∀ id, id ≠ db.currentWalId → C'.logs id = C.logs id := fun id hid ↦ by
    have hrel := hc.logs id
    rw [DB.growing, C.setLog_logs_ne _ hid] at hrel
    cases hlog' : C.logs id with
    | none =>
      refine (hc.logs_eq_none_iff id).2 ?_
      rw [DB.growing, C.setLog_logs_ne _ hid, hlog']
    | some f =>
      obtain ⟨rs', -, rfl⟩ := hf.whole id f hlog'
      rw [hlog'] at hrel
      generalize C'.logs id = o at hrel
      cases hrel with
      | some hf' => rw [File.crashed_saved_iff.1 hf']
  have htables : C'.tables = C.tables := hc.tables
  by_cases hfull : q = r.bytes
  · subst hfull
    refine .inr ?_
    refine (Contents.view_congr (C := DB.logged db C r) htables fun id ↦ ?_).trans
      (hf.logged h hr).view_eq
    by_cases hid : id = db.currentWalId
    · rw [hid, ho, DB.logged, Contents.setLog_logs_self, hlog, Option.map_some, File.sync_eq_saved,
        File.content_append, File.content_saved]
    · rw [hother id hid, DB.logged, C.setLog_logs_ne _ hid]
  · refine .inl ?_
    refine (Contents.view_congr (C := C) htables fun id ↦ ?_).trans hf.view_eq
    by_cases hid : id = db.currentWalId
    · rw [hid, ho, logRecords_torn hrs hr (hq.trans hp) hfull, hlog, logRecords_saved hrs]
    · rw [hother id hid]

/-! ### Flush -/

section Flush

section Logs

variable (hlast : ∀ id, C.logs id ≠ none → id ≤ db.currentWalId)
  (hle : db.currentWalId ≤ db.nextSstId) (hlt : db.nextSstId + 1 < 2 ^ 64) (hs : NoStale db C)

include hlast hle hlt hs

/-- After a flush there is nothing to replay. -/
theorem noRecords_flushOpen (id : ℕ) : logRecords ((DB.flushOpen db C).logs id) = [] := by
  rw [DB.flushOpen_logs hlast hle hlt]
  split
  · exact logRecords_empty
  split
  · rfl
  · rename_i hid
    exact hs id hid

/-- **A flush leaves a faithful session**, when no segment but the current one has records. -/
theorem flushOpen (hshort : C.IsShort) (hmem : db.memtable.data.IsShort)
    (hwhole : ∀ id f, id ≠ db.currentWalId → C.logs id = some f →
      ∃ rs : List WalRecord, (∀ r ∈ rs, r.IsShort) ∧ f = .saved (walCodec.encAll rs))
        (sz : Sizing) : Faithful (flushedDb sz db) (DB.flushOpen db C) where
  short := List.forall_mem_cons.2 ⟨hmem, hshort⟩
  memShort := Entries.isShort_empty
  whole := by
    intro id f hid
    rw [DB.flushOpen_logs hlast hle hlt] at hid
    split at hid
    · exact whole_empty f hid
    split at hid
    · cases hid
    · rename_i hne
      exact hwhole id f hne hid
  mirror := by
    have hnil : (DB.flushOpen db C).records = [] :=
      recordsBelow_eq_nil_iff.2 fun id _ ↦ noRecords_flushOpen hlast hle hlt hs id
    rw [hnil]
    exact layer_empty

end Logs

variable (hf : Faithful db C) (h : Opened sz db d C) (hlt : db.nextSstId + 1 < 2 ^ 64)
  (hs : NoStale db C)

include hf h hlt hs

/-- **A flush keeps a session faithful**, when no segment but the current one has records. -/
theorem flushed : Faithful (flushedDb sz db) (DB.flushOpen db C) :=
  flushOpen h.last h.wal_le hlt hs hf.short hf.memShort (fun id f _ ↦ hf.whole id f) sz

/-- **Nothing a flush goes through would be recovered differently.** -/
theorem yields_flushContents : ∀ C' ∈ DB.flushContents db C,
    C'.Yields (· = shown db.memtable.data C.tables) := by
  have hshort : (DB.flushList db C).IsShort := List.forall_mem_cons.2 ⟨hf.memShort, hf.short⟩
  have hlist : (DB.flushList db C).Whole := hf.whole
  have hopen := hf.flushed h hlt hs
  simp only [DB.flushContents, List.forall_mem_cons]
  refine ⟨hf.whole.yields hf.short hf.view_eq, hlist.yields hshort ?_, ?_, ?_,
    fun _ ht ↦ absurd ht List.not_mem_nil⟩
  · -- the table is listed and its records are still there
    have hrecords : (DB.flushList db C).records = C.records := by
      rw [Contents.records, h.nextOf_flushList hlt, DB.flushList, Contents.list_logs,
        recordsBelow_succ, Contents.records, ← h.next]
      rw [not_not.1 fun hne ↦ absurd ((h.last _ hne).trans h.wal_le) (Nat.not_succ_le_self _),
        logRecords_none, List.append_nil]
    rw [Contents.view, hrecords, ← hf.mirror, DB.flushList, Contents.list, DB.tableLayer_cons,
      above_above_self, shown]
  · -- the segment is sealed
    refine (hlist.setLog fun f hf ↦ by cases hf).yields hshort ?_
    have hnil : (DB.flushSeal db C).records = [] := by
      refine recordsBelow_eq_nil_iff.2 fun id _ ↦ ?_
      by_cases hid : id = db.currentWalId
      · rw [hid, DB.flushSeal, Contents.setLog_logs_self]
        rfl
      · rw [DB.flushSeal, Contents.setLog_logs_ne _ _ hid]
        exact hs id hid
    rw [← DB.flushSeal, Contents.view_of_records hnil]
    rfl
  · refine hopen.whole.yields hopen.short ?_
    rw [hopen.view_eq]
    exact shown_flush db.nextSstId db.memtable.data C.tables

end Flush

/-! ### Merge -/

section Merge

/-- While the MemTable is empty no segment has records. -/
theorem noRecords_of_empty (hf : Faithful db C)
    (hlogs : ∀ id, C.logs id ≠ none → id ≤ nextOf C.tables)
    (he : db.memtable.empty = true) (id : ℕ) : logRecords (C.logs id) = [] := by
  by_cases hid : id < nextOf C.tables + 1
  · exact recordsBelow_eq_nil_iff.1 (hf.records_of_empty he) id hid
  · rw [not_not.1 fun hne ↦ hid (Nat.lt_succ_of_le (hlogs id hne)), logRecords_none]

/-- **A merge leaves a faithful session.** -/
theorem mergeList (sz : Sizing) (hwhole : C.Whole) (hnil : ∀ id, logRecords (C.logs id) = [])
    (he : db.memtable.empty = true) :
    Faithful (mergedDb sz db C.tables) (DB.mergeList sz db C) where
  short := List.forall_mem_singleton.2 (DB.isShort_cleanOf sz C.tables)
  memShort := by
    rw [MemTable.empty, ExtTreeMap.isEmpty_iff] at he
    exact (he ▸ Entries.isShort_empty : db.memtable.data.IsShort)
  whole := hwhole
  mirror := by
    have hrecords : (DB.mergeList sz db C).records = [] :=
      recordsBelow_eq_nil_iff.2 fun id _ ↦ hnil id
    rw [hrecords]
    exact layer_of_empty he

variable (hf : Faithful db C) (h : Opened sz db d C) (he : db.memtable.empty = true)

include hf h he

/-- **A merge keeps a session faithful.** -/
theorem merged : Faithful (mergedDb sz db C.tables) (DB.mergeList sz db C) :=
  mergeList sz hf.whole (hf.noRecords_of_empty h.sound.logs he) he

/-- **Nothing a merge goes through would be recovered differently.** -/
theorem yields_mergeContents : ∀ C' ∈ DB.mergeContents sz db C,
    C'.Yields (· = shown db.memtable.data C.tables) := by
  have hmerged := hf.merged h he
  simp only [DB.mergeContents, List.forall_mem_cons]
  refine ⟨hf.whole.yields hf.short hf.view_eq, hmerged.whole.yields hmerged.short ?_,
    fun _ ht ↦ absurd ht List.not_mem_nil⟩
  rw [hmerged.view_eq]
  exact shown_merge sz db.nextSstId db.memtable.data hf.short

end Merge

/-! ### Recovery -/

/-- **Recovery makes a faithful session of complete segments.** -/
theorem recovered (hw : C.Whole) (hs : C.IsShort) (sz : Sizing) (opts : Options) :
    Faithful (DB.recovered sz opts C) C.reopened where
  short := hs
  memShort := isShort_replayed fun _ ↦ Contents.short_of_mem_records
  whole := by
    intro id f hid
    rw [C.reopened_logs] at hid
    split at hid
    · cases hlog : C.logs id with
      | none =>
        rw [hlog] at hid
        exact whole_empty f hid
      | some f' =>
        rw [hlog, Option.getD_some, Option.some_inj] at hid
        exact hw id f (hid ▸ hlog)
    · exact hw id f hid
  mirror := by
    have hrecords : C.reopened.records = C.records := by
      refine recordsBelow_congr fun id _ ↦ ?_
      rw [C.reopened_logs]
      split
      · cases hlog : C.logs id with
        | none => simp
        | some f => rfl
      · rfl
    rw [hrecords]
    exact layer_replayed C.records

end Faithful

end KeyValStore
