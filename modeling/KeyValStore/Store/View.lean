import KeyValStore.Recovery.Run
import KeyValStore.Store.MemTable

/-!
# What a reader sees

A log record is a write into a layered map, and the MemTable is the layer all its records have been
written into.  `Contents.view` is the map that recovery will show, `DB.shown` the one an open store
shows; flushes and merges change neither the one nor the other as long as the MemTable is what a
replay of the segments would give (`Faithful`).
-/

set_option autoImplicit false

namespace KeyValStore

open Crash Std Overlay
open DB (applyRecord replayed tableLayer shown)

/-! ## Records as writes -/

/-- What a record writes. -/
def WalRecord.write (r : WalRecord) : Bytes × Option Bytes :=
  (r.key, if r.op = WalOp.put then some r.value else none)

/-- What the MemTable holds for the key of a record. -/
def WalRecord.entry (r : WalRecord) : MemEntry :=
  if r.op = WalOp.put then ⟨r.value, false⟩ else ⟨[], true⟩

theorem data_applyRecord (r : WalRecord) (t : MemTable) :
    (applyRecord r t).data = t.data.insert r.key r.entry := by
  rw [applyRecord, WalRecord.entry]
  split
  · exact t.data_store r.key ⟨r.value, false⟩
  · exact t.data_store r.key ⟨[], true⟩

/-- **Applying a record is writing into the layer of the MemTable.** -/
theorem layer_applyRecord (r : WalRecord) (t : MemTable) :
    (applyRecord r t).data.layer = Overlay.write t.data.layer r.write := by
  rw [data_applyRecord, layer_insert, WalRecord.entry, WalRecord.write]
  split <;> rfl

theorem isShort_applyRecord {r : WalRecord} {t : MemTable} (hr : r.IsShort) (ht : t.data.IsShort) :
    (applyRecord r t).data.IsShort := by
  rw [data_applyRecord]
  refine ht.insert hr.1 ?_
  rw [WalRecord.entry]
  split
  · exact hr.2
  · exact Nat.two_pow_pos 32

theorem layer_foldl_applyRecord (rs : List WalRecord) (t : MemTable) :
    (rs.foldl (fun t r ↦ applyRecord r t) t).data.layer =
      writes t.data.layer (rs.map WalRecord.write) := by
  induction rs generalizing t with
  | nil => rfl
  | cons r rs ih => rw [List.foldl_cons, ih, layer_applyRecord, List.map_cons, writes_cons]

theorem layer_replayed (rs : List WalRecord) :
    (replayed rs).data.layer = writes blank (rs.map WalRecord.write) := by
  rw [replayed, layer_foldl_applyRecord, ← layer_empty]

theorem isShort_replayed {rs : List WalRecord} (h : ∀ r ∈ rs, r.IsShort) :
    (replayed rs).data.IsShort := by
  have hfold : ∀ (rs : List WalRecord) (t : MemTable), (∀ r ∈ rs, r.IsShort) → t.data.IsShort →
      (rs.foldl (fun t r ↦ applyRecord r t) t).data.IsShort := by
    intro rs
    induction rs with
    | nil => exact fun t _ ht ↦ ht
    | cons r rs ih =>
      intro t h ht
      rw [List.forall_mem_cons] at h
      exact ih _ h.2 (isShort_applyRecord h.1 ht)
  exact hfold rs {} h Entries.isShort_empty

/-- The records of a segment are short, whatever is in the file. -/
theorem short_of_mem_logRecords {o : Option File} {r : WalRecord} (h : r ∈ logRecords o) :
    r.IsShort := by
  cases o with
  | none => simp at h
  | some f => exact Codec.SelfDelimiting.valid_of_mem_all (C := walCodec) h

theorem Contents.short_of_mem_records {C : Contents} {r : WalRecord} (h : r ∈ C.records) :
    r.IsShort := by
  obtain ⟨id, -, hr⟩ := List.mem_flatMap.1 h
  exact short_of_mem_logRecords hr

theorem layer_of_empty {t : MemTable} (h : t.empty = true) : t.data.layer = blank := by
  rw [MemTable.empty, ExtTreeMap.isEmpty_iff] at h
  rw [h, layer_empty]

theorem empty_of_layer {t : MemTable} (h : t.data.layer = blank) : t.empty = true := by
  rw [MemTable.empty, ExtTreeMap.isEmpty_iff]
  refine ExtTreeMap.ext_getElem? fun k ↦ ?_
  have hk : (t.data[k]?).map MemEntry.says = none := congrFun h k
  rw [Option.map_eq_none_iff.1 hk, ExtTreeMap.getElem?_empty]

/-- A key that has been written is known. -/
theorem eq_nil_of_writes_blank {ws : List (Bytes × Option Bytes)}
    (h : writes blank ws = (blank : Layer Bytes Bytes)) : ws = [] := by
  cases ws with
  | nil => rfl
  | cons w ws =>
    have hnone := congrFun h w.1
    exact absurd rfl ((writes_eq_none_iff.1 hnone).2 w List.mem_cons_self)

/-! ## What an open store shows -/

/-- **A flush changes nothing that is seen.** -/
theorem shown_flush (n : ℕ) (mem : Entries) (ts : List (ℕ × Entries)) :
    shown ∅ ((n, mem) :: ts) = shown mem ts := by
  simp [shown]

/-- Through the merged table is seen what is seen through the tables. -/
theorem visible_cleanOf (sz : Sizing) (n : ℕ) {ts : List (ℕ × Entries)}
    (h : ∀ t ∈ ts, t.2.IsShort) :
    visible (tableLayer [(n, DB.cleanOf sz ts)]) = visible (tableLayer ts) := by
  rw [DB.tableLayer_cons, DB.tableLayer_nil, above_blank, DB.layer_cleanOf sz h, visible_live]

/-- **A merge changes nothing that is seen.** -/
theorem shown_merge (sz : Sizing) (n : ℕ) (mem : Entries) {ts : List (ℕ × Entries)}
    (h : ∀ t ∈ ts, t.2.IsShort) : shown mem [(n, DB.cleanOf sz ts)] = shown mem ts :=
  visible_above_congr _ (visible_cleanOf sz n h)

/-- **A write changes what is seen at its key.** -/
theorem shown_applyRecord (r : WalRecord) (t : MemTable) (ts : List (ℕ × Entries)) :
    shown (applyRecord r t).data ts = Function.update (shown t.data ts) r.write.1 r.write.2 := by
  rw [shown, shown, layer_applyRecord, ← write_above, visible_write]

/-- An open store answers every `get` from a map, and a `get` changes nothing. -/
def Answers (db : DB) (d : Disk) (v : Bytes → Option Bytes) : Prop :=
  ∀ key, (DB.get key).Returns reliable db d fun r db' d' ↦ r = v key ∧ db' = db ∧ d' = d

theorem answers_shown {sz : Sizing} {db : DB} {d : Disk} {ts : List (ℕ × Entries)}
    (hdb : db.sstables = DB.tables sz ts) (hts : DB.Stored sz d ts)
    (hshort : ∀ t ∈ ts, t.2.IsShort) : Answers db d (shown db.memtable.data ts) := fun _ ↦
  Prog.returns_of_wp (DB.wp_get throwing_none (fun _ _ ↦ id) hdb hts hshort
    (fun _ _ _ _ _ ↦ trivial) ⟨rfl, rfl, rfl⟩)

/-- The answers determine the map. -/
theorem Answers.unique {db : DB} {d : Disk} {v v' : Bytes → Option Bytes} (h : Answers db d v)
    (h' : Answers db d v') : v = v' := by
  funext key
  obtain ⟨tr, o, hx, ho⟩ := Exec.exists_run (device_total .none) (DB.get key) db d
  rcases h key tr o hx with ⟨d', rfl⟩ | ⟨r, _, _, rfl, hr, -⟩
  · exact absurd rfl (ho d')
  rcases h' key _ _ hx with ⟨d', h'⟩ | ⟨r', _, _, heq, hr', -⟩
  · cases h'
  · cases heq
    rw [← hr, ← hr']

/-! ## What recovery will show -/

namespace Contents

/-- **The map recovery will show.** -/
def view (C : Contents) : Bytes → Option Bytes :=
  visible (above (writes blank (C.records.map WalRecord.write)) (tableLayer C.tables))

/-- All strings in the tables are short. -/
def IsShort (C : Contents) : Prop := ∀ t ∈ C.tables, t.2.IsShort

/-- Every segment is a sequence of complete records, durable. -/
def Whole (C : Contents) : Prop :=
  ∀ id f, C.logs id = some f →
    ∃ rs : List WalRecord, (∀ r ∈ rs, r.IsShort) ∧ f = .saved (walCodec.encAll rs)

theorem shown_replayed (C : Contents) : shown (replayed C.records).data C.tables = C.view := by
  rw [shown, layer_replayed, view]

theorem view_congr {C C' : Contents} (hts : C'.tables = C.tables)
    (hlogs : ∀ id, logRecords (C'.logs id) = logRecords (C.logs id)) : C'.view = C.view := by
  have hrecords : C'.records = C.records := by
    rw [records, records, hts]
    exact recordsBelow_congr fun id _ ↦ hlogs id
  rw [view, view, hrecords, hts]

/-- Without records in the segments the tables decide. -/
theorem view_of_records {C : Contents} (h : C.records = []) :
    C.view = visible (tableLayer C.tables) := by
  rw [view, h, List.map_nil, writes_nil, blank_above]

end Contents

theorem recordsBelow_last {logs : ℕ → Option File} {n w : ℕ} (hw : w ≤ n)
    (h : ∀ id, w < id → logRecords (logs id) = []) :
    recordsBelow logs (n + 1) = recordsBelow logs w ++ logRecords (logs w) := by
  rw [recordsBelow_of_le (Nat.succ_le_succ hw) h, recordsBelow_succ]

namespace Contents.Current

variable {C : Contents} {w : ℕ}

theorem records_eq (h : C.Current w) :
    C.records = recordsBelow C.logs w ++ logRecords (C.logs w) := by
  refine recordsBelow_last h.le fun id hid ↦ ?_
  rw [not_not.1 fun hne ↦ hid.not_ge (h.last id hne), logRecords_none]

/-- The current segment comes last. -/
theorem records_setLog (h : C.Current w) (o : Option File) :
    (C.setLog w o).records = recordsBelow C.logs w ++ logRecords o := by
  have hlast : ∀ id, w < id → logRecords ((C.setLog w o).logs id) = [] := fun id hid ↦ by
    rw [C.setLog_logs_ne o hid.ne', not_not.1 fun hne ↦ hid.not_ge (h.last id hne), logRecords_none]
  rw [Contents.records, Contents.setLog_tables, recordsBelow_last h.le hlast, C.setLog_logs_self,
    recordsBelow_congr fun id hid ↦ by rw [C.setLog_logs_ne o hid.ne]]

end Contents.Current

end KeyValStore
