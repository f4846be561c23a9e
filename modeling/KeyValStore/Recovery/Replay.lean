import KeyValStore.Recovery.Load
import KeyValStore.Wal.Log

/-!
# What recovery replays

Step 5 of `recover` replays the segments in the order of their numbers.  In a directory that holds
some contents these are the records `Contents.records` (`wp_replaySegments`).
-/

set_option autoImplicit false

namespace KeyValStore

open Crash Std
open DB (StoreName walSegPath scannedId walSegments segLe applyRecord)

/-! ## The records of the contents -/

/-- The records of a segment, if it is there. -/
def logRecords (o : Option File) : List WalRecord :=
  match o with
  | some f => WAL.records f.content
  | none => []

@[simp] theorem logRecords_none : logRecords none = [] := rfl

theorem logRecords_some (f : File) : logRecords (some f) = WAL.records f.content := rfl

/-- The records of the segments with numbers below `n`, in the order of the numbers. -/
def recordsBelow (logs : ℕ → Option File) (n : ℕ) : List WalRecord :=
  (List.range n).flatMap fun id ↦ logRecords (logs id)

/-- **The records that are replayed.** -/
def Contents.records (C : Contents) : List WalRecord := recordsBelow C.logs (nextOf C.tables + 1)

theorem recordsBelow_succ (logs : ℕ → Option File) (n : ℕ) :
    recordsBelow logs (n + 1) = recordsBelow logs n ++ logRecords (logs n) := by
  rw [recordsBelow, List.range_succ, List.flatMap_append, List.flatMap_singleton]
  rfl

theorem recordsBelow_congr {logs logs' : ℕ → Option File} {n : ℕ}
    (h : ∀ id < n, logRecords (logs id) = logRecords (logs' id)) :
    recordsBelow logs n = recordsBelow logs' n :=
  List.flatMap_congr fun id hid ↦ h id (List.mem_range.1 hid)

/-- Segments without records do not count. -/
theorem recordsBelow_of_le {logs : ℕ → Option File} {n m : ℕ} (hnm : n ≤ m)
    (h : ∀ id, n ≤ id → logRecords (logs id) = []) : recordsBelow logs m = recordsBelow logs n := by
  induction m, hnm using Nat.le_induction with
  | base => rfl
  | succ m hm ih => rw [recordsBelow_succ, h m hm, List.append_nil, ih]

theorem recordsBelow_eq_nil_iff {logs : ℕ → Option File} {n : ℕ} :
    recordsBelow logs n = [] ↔ ∀ id < n, logRecords (logs id) = [] := by
  simp [recordsBelow, List.flatMap_eq_nil_iff]

/-- What an increasing list of numbers selects is in the order of the numbers. -/
theorem recordsBelow_of_sorted {logs : ℕ → Option File} {ids : List ℕ} {n : ℕ}
    (hsorted : ids.Pairwise (· < ·)) (hlt : ∀ id ∈ ids, id < n)
    (hrest : ∀ id, id ∉ ids → logRecords (logs id) = []) :
    recordsBelow logs n = ids.flatMap fun id ↦ logRecords (logs id) := by
  have hids : (List.range n).filter (· ∈ ids) = ids := by
    have hnodup : ((List.range n).filter (· ∈ ids)).Nodup := List.nodup_range.filter _
    refine List.Perm.eq_of_pairwise (fun a b _ _ ↦ ?_) (List.pairwise_lt_range.filter _) hsorted ?_
    · exact fun hab hba ↦ absurd hab hba.not_gt
    · refine (List.perm_ext_iff_of_nodup hnodup (hsorted.imp Nat.ne_of_lt)).2 fun id ↦ ?_
      rw [List.mem_filter, List.mem_range, decide_eq_true_eq]
      exact ⟨fun h ↦ h.2, fun h ↦ ⟨hlt id h, h⟩⟩
  have hdrop : ∀ l : List ℕ, (l.filter (· ∈ ids)).flatMap (fun id ↦ logRecords (logs id)) =
      l.flatMap fun id ↦ logRecords (logs id) := by
    intro l
    induction l with
    | nil => rfl
    | cons id l ih =>
      by_cases hid : id ∈ ids
      · rw [List.filter_cons_of_pos (by simpa using hid), List.flatMap_cons, List.flatMap_cons, ih]
      · rw [List.filter_cons_of_neg (by simpa using hid), List.flatMap_cons, hrest id hid, ih,
          List.nil_append]
  rw [recordsBelow, ← hdrop, hids]

namespace DB

/-! ## Collecting the segments -/

theorem scannedId_of_storeName {p : Name} (h : StoreName p) :
    (∃ id, p = walSegPath id ∧ scannedId (ascii ".log") (ascii "wal_") p = .ok (some id)) ∨
      (∀ id, p ≠ walSegPath id) ∧ scannedId (ascii ".log") (ascii "wal_") p = .ok none := by
  have hother : extension p ≠ ascii ".log" → (∀ id, p ≠ walSegPath id) ∧
      scannedId (ascii ".log") (ascii "wal_") p = .ok none := fun hext ↦
    ⟨fun id hid ↦ hext (hid ▸ extension_walSegPath id), scannedId_of_extension hext⟩
  cases h with
  | dest => exact .inr (hother (by decide))
  | tmp => exact .inr (hother (by decide))
  | sst id =>
    refine .inr (hother ?_)
    rw [extension_sstPath]
    decide
  | log hid => exact .inl ⟨_, rfl, scannedId_walSegPath hid⟩
  | done id =>
    refine .inr (hother ?_)
    rw [extension_donePath]
    decide

/-- The entry of a segment in the list that is sorted. -/
def segment (id : ℕ) : ℕ × Name := (id, walSegPath id)

theorem exists_walSegments {names : List Name} (h : ∀ p ∈ names, StoreName p)
    (hnodup : names.Nodup) :
    ∃ ids : List ℕ, walSegments names = .ok (ids.map segment) ∧
      (∀ id, id ∈ ids ↔ walSegPath id ∈ names) ∧ ids.Nodup := by
  induction names with
  | nil => exact ⟨[], rfl, by simp, List.nodup_nil⟩
  | cons p names ih =>
    rw [List.forall_mem_cons] at h
    rw [List.nodup_cons] at hnodup
    obtain ⟨ids, hids, hmem, hn⟩ := ih h.2 hnodup.2
    rcases scannedId_of_storeName h.1 with ⟨id, rfl, hp⟩ | ⟨hne, hp⟩
    · refine ⟨id :: ids, ?_, fun id' ↦ ?_, List.nodup_cons.2 ⟨?_, hn⟩⟩
      · rw [walSegments, hp, hids]
        rfl
      · rw [List.mem_cons, List.mem_cons, hmem, walSegPath_inj]
      · rw [hmem]
        exact hnodup.1
    · refine ⟨ids, ?_, fun id ↦ ?_, hn⟩
      · rw [walSegments, hp]
        exact hids
      · rw [List.mem_cons, hmem]
        exact ⟨.inr, fun h' ↦ h'.resolve_left fun heq ↦ hne id heq.symm⟩

/-- Sorting the segments sorts their numbers. -/
theorem mergeSort_segments (ids : List ℕ) :
    (ids.map segment).mergeSort segLe = (ids.mergeSort fun a b ↦ decide (a ≤ b)).map segment := by
  refine (List.map_mergeSort fun a _ b _ ↦ ?_).symm
  rw [segment, segment, segLe]
  rcases Nat.lt_trichotomy a b with h | rfl | h
  · simp [h, h.le]
  · simp [ReflCmp.compare_self]
  · simp [h.not_ge, h.ne', h.le]

theorem sorted_mergeSort {ids : List ℕ} (h : ids.Nodup) :
    (ids.mergeSort fun a b ↦ decide (a ≤ b)).Pairwise (· < ·) := by
  have hle := @List.pairwise_mergeSort ℕ (fun a b ↦ decide (a ≤ b))
    (by simpa using fun _ _ _ ↦ Nat.le_trans) (by simpa using Nat.le_total) ids
  have hnodup : (ids.mergeSort fun a b ↦ decide (a ≤ b)).Nodup :=
    (List.mergeSort_perm ids _).nodup_iff.2 h
  refine (hle.and hnodup).imp fun hab ↦ ?_
  exact Nat.lt_of_le_of_ne (of_decide_eq_true hab.1) hab.2

/-! ## Replaying them -/

/-- The object once some records have been replayed. -/
def replayedDb (rs : List WalRecord) (db : DB) : DB :=
  { db with
    memtable := rs.foldl (fun t r ↦ applyRecord r t) db.memtable
    walReplayed := db.walReplayed + rs.length }

/-- The object once some segments have been replayed. -/
def segmentsDb (d : Disk) (ids : List ℕ) (db : DB) : DB :=
  { replayedDb (ids.flatMap fun id ↦ logRecords d[walSegPath id]?) db with
    currentWalId := ids.foldl max db.currentWalId }

/-- The object once some segments, whatever their names, have been replayed. -/
def scannedSegmentsDb (d : Disk) (segs : List (ℕ × Name)) (db : DB) : DB :=
  { replayedDb (segs.flatMap fun s ↦ logRecords d[s.2]?) db with
    currentWalId := segs.foldl (fun n s ↦ max n s.1) db.currentWalId }

theorem scannedSegmentsDb_cons (d : Disk) (s : ℕ × Name) (segs : List (ℕ × Name)) (db : DB) :
    scannedSegmentsDb d (s :: segs) db = scannedSegmentsDb d segs (replayedDb (logRecords d[s.2]?)
      { db with currentWalId := max db.currentWalId s.1 }) := by
  simp [scannedSegmentsDb, replayedDb, Nat.add_assoc]

theorem segmentsDb_eq (d : Disk) (ids : List ℕ) (db : DB) :
    segmentsDb d ids db = scannedSegmentsDb d (ids.map segment) db := by
  rw [segmentsDb, scannedSegmentsDb, List.flatMap_map, List.foldl_map]
  rfl

/-- What recovery does with a record. -/
def replayRecord (r : WalRecord) : Io DB Unit := do
  call (.mark (.replayed r))
  modify fun db ↦
    { db with memtable := applyRecord r db.memtable, walReplayed := db.walReplayed + 1 }

/-- What recovery does with a segment. -/
def replaySegment (s : ℕ × Name) : Io DB Unit := do
  modify fun db ↦ { db with currentWalId := max db.currentWalId s.1 }
  let reader ← WAL.open s.2
  WAL.replay reader replayRecord
  WAL.close reader

section Replay

variable {W : Watch (Call Mark) DB Disk} {E : Error → DB → Disk → Prop} {db : DB} {d : Disk}

theorem wp_replayRecords {Q : PUnit → DB → Disk → Prop} {rs : List WalRecord}
    (hmark : ∀ r ∈ rs, ∀ m, W.always ⟨.mark (.replayed r), m, d⟩)
    (h : Q () (replayedDb rs db) d) :
    (forM rs replayRecord : Io DB PUnit).wp reliable W Q E db d := by
  induction rs generalizing db with
  | nil => exact h
  | cons r rs ih =>
    rw [List.forall_mem_cons] at hmark
    rw [List.forM_cons, wp_bind, replayRecord, wp_bind]
    refine wp_call.2 ((wp_mark _).2 ⟨hmark.1 _, fun _ ↦ ?_⟩)
    rw [wp_modify]
    refine ih hmark.2 ?_
    rw [replayedDb] at h ⊢
    rwa [List.foldl_cons, List.length_cons, Nat.add_comm rs.length, ← Nat.add_assoc] at h

theorem wp_replayScanned {Q : PUnit → DB → Disk → Prop} {segs : List (ℕ × Name)}
    (hsegs : ∀ s ∈ segs, ∃ f, d[s.2]? = some f) (hw : Allows W (· = d))
    (hmark : ∀ s ∈ segs, ∀ r ∈ logRecords d[s.2]?, ∀ m, W.always ⟨.mark (.replayed r), m, d⟩)
    (h : Q () (scannedSegmentsDb d segs db) d) :
    (forM segs replaySegment : Io DB PUnit).wp reliable W Q E db d := by
  induction segs generalizing db with
  | nil =>
    simpa [scannedSegmentsDb, replayedDb] using h
  | cons s segs ih =>
    rw [List.forall_mem_cons] at hsegs hmark
    obtain ⟨f, hf⟩ := hsegs.1
    rw [scannedSegmentsDb_cons] at h
    rw [List.forM_cons, wp_bind, replaySegment, wp_bind, wp_modify, wp_bind]
    refine WAL.wp_open (hw _ _ _ rfl rfl) (fun hf ↦ hf.elim) ?_
    rw [Disk.insertIfNew_eq_self hf, wp_bind]
    refine WAL.wp_replay (fun hf ↦ hf.elim) (fun hf ↦ hf.elim) (hw _ _ _ rfl rfl) hf
      (wp_replayRecords ?_ ?_)
    · rw [← logRecords_some, ← hf]
      exact hmark.1
    · refine WAL.wp_close throwing_none hw (ih hsegs.2 hmark.2 ?_)
      rw [hf] at h
      exact h

/-- The segments of a directory, in the order of their numbers. -/
theorem exists_sorted_segments {logs : ℕ → Option File} {names : List Name} (h : HoldsLogs d logs)
    (hperm : names.Perm d.keys) : ∃ (segs : List (ℕ × Name)) (ids : List ℕ),
      walSegments names = .ok segs ∧ segs.mergeSort segLe = ids.map segment ∧
      ids.Pairwise (· < ·) ∧ ∀ id, id ∈ ids ↔ logs id ≠ none := by
  have hstore : ∀ p ∈ names, StoreName p := fun p hp ↦ by
    obtain ⟨f, hf⟩ := (mem_of_perm_keys hperm p).1 hp
    exact h.names p f hf
  obtain ⟨ids, hsegs, hmem, hnodup⟩ := exists_walSegments hstore
    (hperm.nodup_iff.2 ExtTreeMap.nodup_keys)
  refine ⟨_, _, hsegs, mergeSort_segments ids, sorted_mergeSort hnodup, fun id ↦ ?_⟩
  rw [(List.mergeSort_perm ids _).mem_iff, hmem, mem_of_perm_keys hperm, h.logs,
    Option.ne_none_iff_exists']

/-- **Step 5** in a directory that holds some segments. -/
theorem wp_replaySegments {Q : Unit → DB → Disk → Prop} {logs : ℕ → Option File} {n : ℕ}
    (hlogs : HoldsLogs d logs) (hlt : ∀ id, logs id ≠ none → id < n) (hw : Allows W (· = d))
    (hmark : ∀ r ∈ recordsBelow logs n, ∀ m, W.always ⟨.mark (.replayed r), m, d⟩)
    (h : ∀ id, db.currentWalId ≤ id → id < max n (db.currentWalId + 1) →
      Q () { replayedDb (recordsBelow logs n) db with currentWalId := id } d) :
    replaySegments.wp reliable W Q E db d := by
  rw [replaySegments, wp_bind]
  refine wp_listDir.2 ⟨hw _ _ _ rfl rfl, fun _ names hperm ↦ ?_⟩
  obtain ⟨segs, sorted, hsegs, hsort, hsorted, hsame⟩ := exists_sorted_segments hlogs hperm
  have hrecords : recordsBelow logs n = sorted.flatMap fun id ↦ logRecords (logs id) := by
    refine recordsBelow_of_sorted hsorted (fun id hid ↦ hlt id ((hsame id).1 hid)) fun id hid ↦ ?_
    rw [not_not.1 fun hne ↦ hid ((hsame id).2 hne)]
    rfl
  have hlogs' : (fun id ↦ logRecords d[walSegPath id]?) = fun id ↦ logRecords (logs id) :=
    funext fun id ↦ by rw [hlogs.logs]
  rw [wp_bind, hsegs, wp_ofExcept_ok, hsort]
  refine wp_replayScanned (List.forall_mem_map.2 fun id hid ↦ ?_) hw
    (List.forall_mem_map.2 fun id hid r hr m ↦ hmark r ?_ m) ?_
  · rw [segment, hlogs.logs]
    exact Option.ne_none_iff_exists'.1 ((hsame id).1 hid)
  · rw [hrecords]
    rw [segment, hlogs.logs] at hr
    exact List.mem_flatMap.2 ⟨id, hid, hr⟩
  · rw [← segmentsDb_eq, segmentsDb, hlogs', ← hrecords]
    have hbound : ∀ (l : List ℕ) (a : ℕ), (∀ id ∈ l, id < n) →
        a ≤ l.foldl max a ∧ l.foldl max a < max n (a + 1) := by
      intro l
      induction l with
      | nil => exact fun a _ ↦ ⟨le_rfl, lt_max_of_lt_right (Nat.lt_succ_self a)⟩
      | cons id l ih =>
        intro a hl
        rw [List.forall_mem_cons] at hl
        obtain ⟨h1, h2⟩ := ih (max a id) hl.2
        rw [List.foldl_cons]
        omega
    obtain ⟨h1, h2⟩ := hbound sorted db.currentWalId fun id hid ↦ hlt id ((hsame id).1 hid)
    exact h _ h1 h2

end Replay

end DB

end KeyValStore
