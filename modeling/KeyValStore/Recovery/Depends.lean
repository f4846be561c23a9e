import KeyValStore.Recovery.Whole

/-!
# What recovery depends on

The files that recovery deletes have other extensions than the segments it replays, so the segments
are those of the directory it started in (`recoverOf_eq`), and two directories with the same
segments are replayed alike (`segmentsOf_congr`).  Deleting the same files from two directories that
agree on the others gives the same directory (`without_congr`).
-/

set_option autoImplicit false

namespace KeyValStore

open Crash Std

namespace DB

/-! ## Segments -/

theorem scannedSegment_of_extension {p : Name} (h : extension p ≠ ascii ".log") :
    scannedSegment p = some none := by
  rw [scannedSegment, scannedId_of_extension h]
  rfl

theorem segmentsOf_empty : segmentsOf ∅ = some [] := by
  have hkeys : (∅ : Disk).keys = [] := ExtTreeMap.keys_eq_nil_iff.2 rfl
  rw [segmentsOf, hkeys, collect_nil, Option.map_some, List.mergeSort_nil]

/-- **Directories with the same segments** are replayed alike. -/
theorem segmentsOf_congr {d d' : Disk}
    (h : ∀ n, extension n = ascii ".log" → d'[n]? = d[n]?) : segmentsOf d' = segmentsOf d := by
  let c : Name → Bool := fun n ↦ extension n = ascii ".log"
  have hfilter : ∀ d : Disk, collect scannedSegment (d.keys.filter c) =
      collect scannedSegment d.keys :=
    fun d ↦ collect_filter fun n _ hn ↦ scannedSegment_of_extension (by simpa [c] using hn)
  have hperm : (d'.keys.filter c).Perm (d.keys.filter c) := by
    refine (List.perm_ext_iff_of_nodup (ExtTreeMap.nodup_keys.filter _)
      (ExtTreeMap.nodup_keys.filter _)).2 fun n ↦ ?_
    simp only [List.mem_filter, ExtTreeMap.mem_keys, ExtTreeMap.mem_iff_isSome_getElem?]
    refine and_congr_left fun hn ↦ ?_
    rw [h n (by simpa [c] using hn)]
  rw [segmentsOf, segmentsOf, ← hfilter d', ← hfilter d]
  cases hs : collect scannedSegment (d.keys.filter c) with
  | none => rw [collect_eq_none_of_perm hperm.symm hs]
  | some segs =>
    obtain ⟨segs', hs', hp⟩ := collect_perm hperm.symm hs
    rw [hs', Option.map_some, Option.map_some, mergeSort_segLe_congr hp]

theorem mem_segmentsOf {d : Disk} {segs : List (ℕ × Name)}
    (h : segmentsOf d = some segs) {s : ℕ × Name}
    (hs : s ∈ segs) : (∃ f, d[s.2]? = some f) ∧ extension s.2 = ascii ".log" := by
  obtain ⟨segs₀, hsegs₀, rfl⟩ := Option.map_eq_some_iff.1 h
  obtain ⟨hmem, hid⟩ :=
    mem_of_collect_segments hsegs₀ ((List.mergeSort_perm segs₀ segLe).mem_iff.1 hs)
  exact ⟨(mem_of_perm_keys (.refl _) _).1 hmem, extension_of_scannedId hid⟩

theorem scannedSegmentsDb_congr {d d' : Disk} {segs : List (ℕ × Name)}
    (h : ∀ n, extension n = ascii ".log" → d'[n]? = d[n]?)
    (hsegs : segmentsOf d = some segs) (db : DB) :
    scannedSegmentsDb d' segs db = scannedSegmentsDb d segs db := by
  have hrecords : (segs.flatMap fun s ↦ logRecords d'[s.2]?) = segs.flatMap fun s ↦
      logRecords d[s.2]? :=
    List.flatMap_congr fun s hs ↦ by rw [h _ (mem_segmentsOf hsegs hs).2]
  rw [scannedSegmentsDb, hrecords, scannedSegmentsDb]

/-! ## What is deleted -/

theorem isLeftover_of_extension {n : Name} (htmp : extension n ≠ extension Manifest.tmp)
    (hdone : extension n ≠ ascii ".done") : isLeftover n = false := by
  rw [isLeftover, isSealed, Bool.or_eq_false_iff, Bool.and_eq_false_iff]
  exact ⟨decide_eq_false (ne_of_extension htmp), .inl (decide_eq_false hdone)⟩

theorem isOrphan_of_extension {ts : List (ℕ × SSTable)} {n : Name}
    (h : extension n ≠ ascii ".sst") : isOrphan ts n = false := Bool.eq_false_iff.2 fun hn ↦
    h (isOrphan_iff.1 hn).1

theorem without_congr {c : Name → Bool} {d d' : Disk} (h : Disk.AgreeBut (c · = true) d d') :
    without c d' = without c d := by
  refine ExtTreeMap.ext_getElem? fun n ↦ ?_
  rw [getElem?_without, getElem?_without]
  split
  · rfl
  · exact h n (by assumption)

theorem getElem?_swept {d : Disk} {n : Name} (h : isLeftover n = false) :
    (swept d)[n]? = d[n]? := by
  rw [swept, getElem?_without, h]
  rfl

/-- Names that neither are deleted nor name the MANIFEST keep their files up to step 4. -/
theorem getElem?_kept {ts : List (ℕ × SSTable)} {d : Disk} {n : Name} (hl : isLeftover n = false)
    (ho : isOrphan ts n = false) (hn : n ≠ Manifest.dest) :
    (without (isOrphan ts) (listedDisk ts (swept d)))[n]? = d[n]? := by
  have htmp : n ≠ Manifest.tmp := by
    rintro rfl
    simp [isLeftover] at hl
  rw [getElem?_without, ho, listedDisk, ← getElem?_swept (d := d) hl]
  split
  · contradiction
  · split
    · rfl
    · rw [Manifest.commit, Disk.getElem?_insert_ne hn, Disk.getElem?_erase_ne htmp]

theorem getElem?_kept_segment {ts : List (ℕ × SSTable)} {d : Disk} {n : Name}
    (h : extension n = ascii ".log") :
    (without (isOrphan ts) (listedDisk ts (swept d)))[n]? = d[n]? :=
  getElem?_kept (isLeftover_of_extension (by rw [h]; decide) (by rw [h]; decide))
    (isOrphan_of_extension (by rw [h]; decide)) (ne_of_extension (by rw [h]; decide))

/-- **The segments are those of the directory recovery starts in.** -/
theorem recoverOf_eq (opts : Options) (d : Disk) : recoverOf opts d = do
    let (gen, ts) ← foundTables (swept d)
    let segs ← segmentsOf d
    let db := openedDb (scannedSegmentsDb d segs (foundDb opts gen ts))
    return (db, (without (isOrphan ts) (listedDisk ts (swept d))).insertIfNew
      (walSegPath db.currentWalId) {}) := by
  rw [recoverOf]
  cases foundTables (swept d) with
  | none => rfl
  | some r =>
    obtain ⟨gen, ts⟩ := r
    have hkept : ∀ n, extension n = ascii ".log" →
        (without (isOrphan ts) (listedDisk ts (swept d)))[n]? = d[n]? :=
        fun _ ↦ getElem?_kept_segment
    have hsegs := segmentsOf_congr hkept
    rw [Option.bind_eq_bind, Option.bind_some, Option.bind_some]
    simp only [hsegs]
    cases hs : segmentsOf d with
    | none => rfl
    | some segs =>
      have hdb := scannedSegmentsDb_congr hkept hs (foundDb opts gen ts)
      simp only [Option.bind_eq_bind, Option.bind_some, hdb]

/-! ## What is replayed -/

/-- The records that recovery replays. -/
def replays (d : Disk) : Option (List WalRecord) :=
  (segmentsOf d).map fun segs ↦ segs.flatMap fun s ↦ logRecords d[s.2]?

end DB

theorem HoldsLogs.replays {d : Disk} {logs : ℕ → Option File} (h : HoldsLogs d logs) {n : ℕ}
    (hlt : ∀ id, logs id ≠ none → id < n) : DB.replays d = some (recordsBelow logs n) := by
  obtain ⟨segs, ids, hsegs, hsort, hsorted, hsame⟩ := DB.exists_sorted_segments h (.refl d.keys)
  have hcollect : collect DB.scannedSegment d.keys = some segs := by
    rw [← DB.toOption_walSegments, hsegs]
    rfl
  have hrecords : recordsBelow logs n = ids.flatMap fun id ↦ logRecords (logs id) := by
    refine recordsBelow_of_sorted hsorted (fun id hid ↦ hlt id ((hsame id).1 hid)) fun id hid ↦ ?_
    rw [not_not.1 fun hne ↦ hid ((hsame id).2 hne)]
    rfl
  rw [DB.replays, DB.segmentsOf, hcollect, Option.map_some, Option.map_some, hsort, hrecords,
    List.flatMap_map]
  simp only [DB.segment, h.logs]

/-- **Recovery replays the records of the contents.** -/
theorem Holds.replays {sz : Sizing} {d : Disk} {C : Contents} (h : Holds sz d C)
    (hlogs : ∀ id, C.logs id ≠ none → id ≤ nextOf C.tables) : DB.replays d = some C.records :=
  h.toHoldsLogs.replays fun id hid ↦ Nat.lt_succ_of_le (hlogs id hid)

end KeyValStore
