import KeyValStore.Recovery.Leftovers
import KeyValStore.Store.Faithful

/-!
# Recovering again

However recovery of a directory is interrupted, and also after it has come to its end, recovery of
what is left gives the same object and the same files (`recoversAgain`), unless there is no MANIFEST
and the name of a table contains a newline: such a name does not survive in the MANIFEST that
recovery writes.
-/

set_option autoImplicit false

namespace KeyValStore

open Crash Std

/-! ## Numbers -/

theorem stoull_lt {s : Bytes} {n : ℕ} (h : stoull s = .ok n) : n < 2 ^ 64 := by
  rw [stoull] at h
  split at h
  simp only at h
  split at h
  · cases h
  · split at h
    · cases h
    · rename_i hlt
      obtain rfl := Except.ok.inj h
      split
      · exact Nat.mod_lt _ (Nat.two_pow_pos 64)
      · exact Nat.not_le.1 hlt

namespace DB

theorem scannedId_lt {ext pre : Bytes} {p : Name} {id : ℕ}
    (h : scannedId ext pre p = .ok (some id)) : id < 2 ^ 64 := by
  rw [scannedId] at h
  split at h
  · cases h
  · split at h
    · cases h
    · cases hn : stoull ((stem p).drop 4) with
      | error e =>
        rw [hn] at h
        cases h
      | ok n =>
        rw [hn] at h
        obtain rfl := Option.some.inj (Except.ok.inj h)
        exact stoull_lt hn

/-! ## A new segment -/

theorem flatMap_filter_of_nil {α β : Type} {p : α → Bool} {g : α → List β} {l : List α}
    (h : ∀ a ∈ l, p a = false → g a = []) : (l.filter p).flatMap g = l.flatMap g := by
  induction l with
  | nil => rfl
  | cons a l ih =>
    rw [List.forall_mem_cons] at h
    rw [List.filter_cons, List.flatMap_cons]
    cases hp : p a with
    | true => rw [if_pos rfl, List.flatMap_cons, ih h.2]
    | false => rw [if_neg Bool.false_ne_true, ih h.2, h.1 hp, List.nil_append]

theorem foldl_max_perm {segs segs' : List (ℕ × Name)} (h : segs'.Perm segs) (n : ℕ) :
    segs'.foldl (fun n s ↦ max n s.1) n = segs.foldl (fun n s ↦ max n s.1) n := by
  have hcomm : RightCommutative fun (n : ℕ) (s : ℕ × Name) ↦ max n s.1 :=
    ⟨fun n a b ↦ max_right_comm _ _ _⟩
  exact h.foldl_eq n

theorem foldl_max_lt {segs : List (ℕ × Name)} {n b : ℕ} (hn : n < b) (h : ∀ s ∈ segs, s.1 < b) :
    segs.foldl (fun n s ↦ max n s.1) n < b := by
  induction segs generalizing n with
  | nil => exact hn
  | cons s segs ih =>
    rw [List.forall_mem_cons] at h
    exact ih (max_lt hn h.1) h.2

section Segment

variable {d : Disk} {w : ℕ} {segs : List (ℕ × Name)}

/-- The segments once a new one has been opened. -/
theorem segmentsOf_opened (hsegs : segmentsOf d = some segs) (hw : w < 2 ^ 64)
    (hnew : d[walSegPath w]? = none) :
    ∃ segs', segmentsOf (d.insertIfNew (walSegPath w) {}) = some segs' ∧
      segs'.Perm ((w, walSegPath w) :: segs) ∧
      (segs'.filter fun s ↦ s.2 ≠ walSegPath w) = segs := by
  obtain ⟨segs₀, hsegs₀, rfl⟩ := Option.map_eq_some_iff.1 hsegs
  have hkeys : (walSegPath w :: d.keys).Perm (d.insertIfNew (walSegPath w) {}).keys := by
    refine (List.perm_ext_iff_of_nodup (List.nodup_cons.2 ⟨?_, ExtTreeMap.nodup_keys⟩)
      ExtTreeMap.nodup_keys).2 fun n ↦ ?_
    · rw [mem_of_perm_keys (.refl _), hnew]
      simp
    · rw [List.mem_cons, mem_of_perm_keys (.refl _), mem_of_perm_keys (.refl _)]
      by_cases hn : n = walSegPath w
      · rw [hn, Disk.getElem?_insertIfNew_self]
        simp
      · rw [Disk.getElem?_insertIfNew_ne hn]
        simp [hn]
  have hcollect : collect scannedSegment (walSegPath w :: d.keys) =
      some ((w, walSegPath w) :: segs₀) := by
    rw [collect_cons, scannedSegment, scannedId_walSegPath hw, hsegs₀]
    rfl
  obtain ⟨segs₁, hsegs₁, hp⟩ := collect_perm hkeys hcollect
  have hp' : (segs₁.mergeSort segLe).Perm ((w, walSegPath w) :: segs₀.mergeSort segLe) :=
    (List.mergeSort_perm _ _).trans (hp.trans ((List.mergeSort_perm _ _).symm.cons _))
  refine ⟨segs₁.mergeSort segLe, by rw [segmentsOf, hsegs₁]; rfl, hp', ?_⟩
  have hold : ∀ s ∈ segs₀.mergeSort segLe, s.2 ≠ walSegPath w := fun s hs heq ↦ by
    obtain ⟨f, hf⟩ := (mem_segmentsOf hsegs hs).1
    rw [heq, hnew] at hf
    cases hf
  refine List.Perm.eq_of_pairwise (fun _ _ _ _ ↦ eq_of_segLe)
    ((List.pairwise_mergeSort segLe_trans segLe_total segs₁).filter _)
    (List.pairwise_mergeSort segLe_trans segLe_total segs₀) ((hp'.filter _).trans ?_)
  rw [List.filter_cons_of_neg (by simp), List.filter_eq_self.2 fun s hs ↦ by simpa using hold s hs]

/-- **Opening a new segment changes nothing** about what is replayed. -/
theorem scannedSegmentsDb_opened (hnew : d[walSegPath w]? = none) {segs' : List (ℕ × Name)}
    (hp : segs'.Perm ((w, walSegPath w) :: segs))
    (hfilter : (segs'.filter fun s ↦ s.2 ≠ walSegPath w) = segs) (db : DB) :
    scannedSegmentsDb (d.insertIfNew (walSegPath w) {}) segs' db =
      { scannedSegmentsDb d segs db with
        currentWalId := max (scannedSegmentsDb d segs db).currentWalId w } := by
  have hrecords : (segs'.flatMap fun s ↦ logRecords (d.insertIfNew (walSegPath w) {})[s.2]?) =
      segs.flatMap fun s ↦ logRecords d[s.2]? := by
    have hnil : ∀ s ∈ segs', (decide (s.2 ≠ walSegPath w)) = false →
        logRecords (d.insertIfNew (walSegPath w) {})[s.2]? = [] := fun s _ hs ↦ by
      rw [not_not.1 (of_decide_eq_false hs), Disk.getElem?_insertIfNew_self, hnew]
      exact logRecords_empty
    rw [← flatMap_filter_of_nil hnil, hfilter]
    refine List.flatMap_congr fun s hs ↦ ?_
    rw [← hfilter, List.mem_filter, decide_eq_true_eq] at hs
    rw [Disk.getElem?_insertIfNew_ne hs.2]
  have hids : segs'.foldl (fun n s ↦ max n s.1) db.currentWalId =
      max (segs.foldl (fun n s ↦ max n s.1) db.currentWalId) w := by
    rw [foldl_max_perm (hp.trans (List.perm_append_singleton (w, walSegPath w) segs).symm),
      List.foldl_append]
    rfl
  rw [scannedSegmentsDb, scannedSegmentsDb, hrecords, hids]

end Segment

section Again

variable {d d' : Disk} {db : DB} {opts : Options}

theorem scannedSegmentsDb_currentWalId_lt {segs : List (ℕ × Name)}
    (hsegs : segmentsOf d = some segs) (gen : ℕ) (ts : List (ℕ × SSTable)) :
    (scannedSegmentsDb d segs (foundDb opts gen ts)).currentWalId < 2 ^ 64 := by
  refine foldl_max_lt (Nat.two_pow_pos 64) fun s hs ↦ ?_
  obtain ⟨segs₀, hsegs₀, rfl⟩ := Option.map_eq_some_iff.1 hsegs
  exact scannedId_lt
    (mem_of_collect_segments hsegs₀ ((List.mergeSort_perm segs₀ segLe).mem_iff.1 hs)).2

/-- Opening the active segment again. -/
theorem openedDb_opened (db : DB) :
    openedDb { db with currentWalId := max db.currentWalId (openedDb db).currentWalId } =
      openedDb db := by
  have hmax : max (max db.currentWalId (max db.currentWalId db.nextSstId)) db.nextSstId =
      max db.currentWalId db.nextSstId := by omega
  simp only [openedDb, hmax]

/-- Without a MANIFEST, no name that step 3 takes for the name of a table contains a newline. -/
def Listable (d : Disk) : Prop := d[Manifest.dest]? = none → ∀ (n : Name) (f : File) (id : ℕ),
  d[n]? = some f → scannedId (ascii ".sst") (ascii "sst_") n = .ok (some id) → 10 ∉ n

theorem listable_of_manifest (h : d.contains Manifest.dest = true) : Listable d := fun hnone ↦ by
  rw [ExtTreeMap.contains_eq_isSome_getElem?, hnone] at h
  cases h

theorem newline_not_mem_path (hnames : Listable d) {gen : ℕ} {ts : List (ℕ × SSTable)}
    (hfound : foundTables (swept d) = some (gen, ts)) (hd : d[Manifest.dest]? = none) :
    ∀ t ∈ ts, 10 ∉ t.2.path := fun t ht ↦ by
  obtain ⟨f, hf, hid⟩ := exists_file_of_foundTables hfound hd ht
  exact hnames hd _ f _ hf hid

theorem isLeftover_walSegPath (id : ℕ) : isLeftover (walSegPath id) = false :=
  isLeftover_of_extension (by rw [extension_walSegPath]; decide)
    (by rw [extension_walSegPath]; decide)

theorem isOrphan_walSegPath (ts : List (ℕ × SSTable)) (id : ℕ) :
    isOrphan ts (walSegPath id) = false :=
  isOrphan_of_extension (by rw [extension_walSegPath]; decide)

/-- **Recovery is idempotent.** -/
theorem recoverOf_recovered (hnames : Listable d)
    (h : recoverOf opts d = some (db, d')) : recoverOf opts d' = some (db, d') := by
  obtain ⟨gen, ts, segs, hfound, hsegs, hdb, rfl⟩ := recoverOf_eq_some_iff.1 h
  have hpaths := newline_not_mem_path hnames hfound
  obtain ⟨f, hf, -⟩ := foundTables_listedDisk hfound hpaths
  let e := (cleaned ts d).insertIfNew (walSegPath db.currentWalId) {}
  have hold : ∀ n f, (cleaned ts d)[n]? = some f → e[n]? = some f := fun n f hn ↦ by
    by_cases hnw : n = walSegPath db.currentWalId
    · rw [hnw, Disk.getElem?_insertIfNew_self, ← hnw, hn, Option.getD_some]
    · rw [Disk.getElem?_insertIfNew_ne hnw, hn]
  have hnone : ∀ n, isLeftover n = true ∨ isOrphan ts n = true → e[n]? = none := fun n hn ↦ by
    have hnw : n ≠ walSegPath db.currentWalId := by
      rintro rfl
      rw [isLeftover_walSegPath, isOrphan_walSegPath] at hn
      simp at hn
    rw [Disk.getElem?_insertIfNew_ne hnw, cleaned_eq_none hn]
  have hclean : cleaned ts e = e := without_listedDisk
    (hold _ f ((getElem?_cleaned (isOrphan_dest ts)).trans hf)) hnone fun _ _ _ ↦ rfl
  have hfound' : foundTables (swept e) = some (gen, ts) :=
    foundTables_congr hfound hpaths fun n f _ ho hn ↦ hold n f ((getElem?_cleaned ho).trans hn)
  have hsegs' : ∃ segs', segmentsOf e = some segs' ∧
      db = openedDb (scannedSegmentsDb e segs' (foundDb opts gen ts)) := by
    cases hK : (cleaned ts d)[walSegPath db.currentWalId]? with
    | some g =>
      -- the active segment was there before
      have hsame : e = cleaned ts d := Disk.insertIfNew_eq_self hK {}
      rw [hsame]
      exact ⟨segs, hsegs, hdb⟩
    | none =>
      have hw : db.currentWalId < 2 ^ 64 := by
        rw [hdb]
        exact max_lt (scannedSegmentsDb_currentWalId_lt hsegs gen ts) (nextAfter_lt ts)
      obtain ⟨segs', hsegs', hp, hfilter⟩ := segmentsOf_opened hsegs hw hK
      refine ⟨segs', hsegs', ?_⟩
      rw [scannedSegmentsDb_opened hK hp hfilter, hdb]
      exact (openedDb_opened _).symm
  obtain ⟨segs', hsegs', hdb'⟩ := hsegs'
  refine recoverOf_eq_some_iff.2 ⟨gen, ts, segs', hfound', by rw [hclean, hsegs'],
    by rw [hclean, ← hdb'], ?_⟩
  have hw : e[walSegPath db.currentWalId]? =
      some (((cleaned ts d)[walSegPath db.currentWalId]?).getD {}) :=
    Disk.getElem?_insertIfNew_self _ _ _
  rw [hclean]
  exact (Disk.insertIfNew_eq_self hw {}).symm

end Again

/-! ## Interrupted runs -/

/-- The directory a run leaves. -/
def leftBy : Outcome DB Error Unit Disk → Disk
  | .ok _ _ d => d
  | .threw _ _ d => d
  | .cut d => d

/-- Recovery makes of whatever is found (`R`) where a run of recovery, interrupted or not, has left
the directory what it makes of the directory itself: the same object and the same files. -/
def RecoversAgain (opts : Options) (d : Disk) (R : Disk → Disk → Prop) : Prop :=
  ∀ tr db d', Exec reliable recover { opts } d tr (.ok () db d') →
    ∀ tr₁ o, Exec reliable recover { opts } d tr₁ o → ∀ d₁, R (leftBy o) d₁ →
      recover.Returns reliable { opts } d₁ fun _ db₁ d₂ ↦ db₁ = db ∧ d₂ = d'

section Runs

variable {d d' : Disk} {db : DB} {opts : Options}

theorem recoverOf_congr_swept (h : swept d' = swept d) : recoverOf opts d' = recoverOf opts d := by
  rw [recoverOf, recoverOf, h]

theorem agreeBut_crashed {J : Name → Prop} {e e' : Disk} (hd : d.Settled) (h : Disk.AgreeBut J d e)
    (hc : e.Crashed e') : Disk.AgreeBut J d e' := fun n hn ↦ by
  have he := h n hn
  cases hf : d[n]? with
  | none => exact hc.get_none (he.trans hf)
  | some f =>
    have hsaved : f = .saved f.synced := by rw [File.saved, ← hd n f hf]
    rw [hsaved] at hf ⊢
    exact hc.get_saved (he.trans hf)

theorem settled_without (c : Name → Bool) (h : d.Settled) : (without c d).Settled := fun n f hf ↦ by
  rw [getElem?_without] at hf
  split at hf
  · cases hf
  · exact h n f hf

theorem settled_listedDisk (ts : List (ℕ × SSTable)) (h : d.Settled) :
    (listedDisk ts d).Settled := by
  rw [listedDisk]
  split
  · exact h
  · intro n f hf
    by_cases hn : n = Manifest.dest
    · rw [hn, Manifest.commit_dest] at hf
      obtain rfl := Option.some.inj hf
      rfl
    · rw [Manifest.commit, Disk.getElem?_insert_ne hn] at hf
      by_cases htmp : n = Manifest.tmp
      · rw [htmp, ExtTreeMap.getElem?_erase_self] at hf
        cases hf
      · exact h n f (Disk.getElem?_erase_ne htmp ▸ hf)

theorem settled_opened (h : d.Settled) (p : Name) : Disk.Settled (d.insertIfNew p {}) :=
  fun n f hf ↦ by
  by_cases hn : n = p
  · rw [hn, Disk.getElem?_insertIfNew_self] at hf
    obtain rfl := Option.some.inj hf
    cases hp : d[p]? with
    | none => rfl
    | some g => exact h p g hp
  · exact h n f (Disk.getElem?_insertIfNew_ne hn ▸ hf)

/-- **Recovery can be interrupted anywhere**, if the tables have names that a MANIFEST can list:
when the process dies, and also when the power goes, provided nothing was waiting to be synced at
the start. -/
theorem recoversAgain (hnames : Listable d) (opts : Options) :
    RecoversAgain opts d fun x d₁ ↦ d₁ = x ∨ d.Settled ∧ x.Crashed d₁ := by
  intro tr db d' hx tr₁ o hx₁ d₁ hd₁
  have hdb := exec_recover hx
  let Good : Disk → Prop := fun x ↦ ∀ d₁, (d₁ = x ∨ d.Settled ∧ x.Crashed d₁) →
    recoverOf opts d₁ = some (db, d')
  suffices hgood : Good (leftBy o) by exact returns_recover (hgood d₁ hd₁) ⟨rfl, rfl⟩
  have hwp : recover.wp reliable ⟨fun _ ↦ True, fun ev ↦ Good ev.disk⟩ (fun _ _ d'' ↦ Good d'')
      (fun _ _ _ ↦ False) { opts } d := by
    refine wp_recoverOf (fun _ _ e he e' he' ↦ ?_) (fun gen ts hfound _ _ e he e' he' ↦ ?_)
      (fun hnone ↦ ?_) fun db₁ d₂ h ↦ ?_
    · have hagree : Disk.AgreeBut (isLeftover · = true) d e' := by
        rcases he' with rfl | ⟨hd, hc⟩
        · exact he
        · exact agreeBut_crashed hd he hc
      rw [recoverOf_congr_swept (without_congr hagree), hdb]
    · have hagree : Disk.AgreeBut (isOrphan ts · = true) (listedDisk ts (swept d)) e' := by
        rcases he' with rfl | ⟨hd, hc⟩
        · exact he
        · exact agreeBut_crashed (settled_listedDisk ts (settled_without _ hd)) he hc
      rw [recoverOf_congr hfound (newline_not_mem_path hnames hfound)
        fun n _ ho ↦ hagree n (Bool.eq_false_iff.1 ho), hdb]
    · rw [hdb] at hnone
      cases hnone
    · rw [hdb] at h
      obtain ⟨rfl, rfl⟩ := Prod.mk.inj (Option.some.inj h)
      intro e' he'
      have hsame : e' = d' := by
        rcases he' with rfl | ⟨hd, hc⟩
        · rfl
        · obtain ⟨_, ts, _, -, -, -, rfl⟩ := recoverOf_eq_some_iff.1 hdb
          refine (Disk.Settled.crashed_iff ?_).1 hc
          exact settled_opened (settled_without _ (settled_listedDisk ts (settled_without _ hd))) _
      rw [hsame]
      exact recoverOf_recovered hnames hdb
  have ho := (hx₁.of_wp (fun _ _ ↦ trivial) hwp).2
  cases o with
  | ok a m d'' => exact ho
  | threw e m d'' => exact ho.elim
  | cut d'' =>
    obtain ⟨c, m, hgood⟩ := ho
    exact hgood

end Runs

theorem exists_recoverOf_of_holds {sz : Sizing} {d : Disk} {C : Contents} (h : Holds sz d C)
    (hlogs : ∀ id, C.logs id ≠ none → id ≤ nextOf C.tables) (opts : Options) :
    ∃ d', recoverOf opts d = some (recovered sz opts C, d') := by
  have hreturns : recover.Returns reliable { opts } d fun _ db _ ↦ db = recovered sz opts C :=
    Prog.returns_of_wp (wp_recover h hlogs (fun _ _ ↦ trivial) fun _ _ ↦ rfl)
  obtain ⟨tr, db, d', hx, rfl⟩ := exists_exec_of_returns hreturns
  exact ⟨d', exec_recover hx⟩

/-- What a process may have left: a MANIFEST with one table, two segments, the last one torn, and an
orphan, a sealed segment and a temporary MANIFEST. -/
def leftFiles : List (Name × File) :=
  [(Manifest.dest, .saved (Manifest.text ⟨4, [sstPath 2]⟩)),
    (sstPath 2, .saved (SSTable.image .onePercent SSTable.single)),
    (walSegPath 2, .saved (WalRecord.bytes ⟨WalOp.put, [107], [118]⟩)),
    (walSegPath 3, .saved (WalRecord.bytes ⟨WalOp.del, [108], []⟩ ++ [0])),
    (sstPath 1, .saved [1, 2, 3]), (donePath (walSegPath 1), .saved [0]),
    (Manifest.tmp, .saved [103])]

/-- The directory with these files. -/
def leftDisk : Disk := ExtTreeMap.ofList leftFiles compare

theorem getElem?_leftDisk {n : Name} {f : File} : leftDisk[n]? = some f ↔ (n, f) ∈ leftFiles := by
  have hdistinct : leftFiles.Pairwise fun a b ↦ ¬compare a.1 b.1 = .eq := by decide +kernel
  have hget : ∀ p ∈ leftFiles, leftDisk[p.1]? = some p.2 := fun p hp ↦
    ExtTreeMap.getElem?_ofList_of_mem compare_self hdistinct hp
  refine ⟨fun h ↦ ?_, fun h ↦ hget _ h⟩
  have hmem : n ∈ leftDisk := ExtTreeMap.isSome_getElem?_iff_mem.1 (by rw [h]; rfl)
  rw [leftDisk, ExtTreeMap.mem_ofList, List.contains_iff_mem] at hmem
  obtain ⟨p, hp, rfl⟩ := List.mem_map.1 hmem
  rw [hget p hp] at h
  obtain rfl := Option.some.inj h
  exact hp

theorem settled_leftDisk : leftDisk.Settled := fun n f hf ↦ by
  have h := getElem?_leftDisk.1 hf
  simp only [leftFiles, List.mem_cons, Prod.mk.injEq, List.not_mem_nil, or_false] at h
  rcases h with ⟨-, rfl⟩ | ⟨-, rfl⟩ | ⟨-, rfl⟩ | ⟨-, rfl⟩ | ⟨-, rfl⟩ | ⟨-, rfl⟩ | ⟨-, rfl⟩ <;> rfl

/-- What it holds. -/
def left : Contents := ⟨some 4, [(2, SSTable.single)], fun id ↦ leftDisk[walSegPath id]?⟩

theorem holds_leftDisk : Holds .onePercent leftDisk left where
  names n f hf := by
    have h := getElem?_leftDisk.1 hf
    simp only [leftFiles, List.mem_cons, Prod.mk.injEq, List.not_mem_nil, or_false] at h
    rcases h with ⟨rfl, -⟩ | ⟨rfl, -⟩ | ⟨rfl, -⟩ | ⟨rfl, -⟩ | ⟨rfl, -⟩ | ⟨rfl, -⟩ | ⟨rfl, -⟩
    · exact .dest
    · exact .sst 2
    · exact .log (by norm_num)
    · exact .log (by norm_num)
    · exact .sst 1
    · exact .done 1
    · exact .tmp
  logs id := rfl
  tables := List.forall_mem_singleton.2 ⟨by norm_num, SSTable.fits_single.openable,
    getElem?_leftDisk.2 (by simp [leftFiles])⟩
  manifest := getElem?_leftDisk.2 List.mem_cons_self
  gen g h := by
    obtain rfl := Option.some.inj h
    norm_num
  first h := by cases h

theorem logs_left {id : ℕ} (h : left.logs id ≠ none) : id ≤ nextOf left.tables := by
  obtain ⟨f, hf⟩ := Option.ne_none_iff_exists'.1 h
  have hmem := getElem?_leftDisk.1 hf
  simp only [leftFiles, List.mem_cons, Prod.mk.injEq, walSegPath_inj, walSegPath_ne_dest,
    walSegPath_ne_tmp, walSegPath_ne_donePath, (sstPath_ne_walSegPath _ id).symm, false_and,
    false_or, or_false, List.not_mem_nil] at hmem
  rcases hmem with ⟨rfl, -⟩ | ⟨rfl, -⟩ <;> decide

theorem recoversAgain_leftDisk : leftDisk.Settled ∧
    (∃ tr db d', Exec reliable recover {} leftDisk tr (.ok () db d')) ∧
    RecoversAgain {} leftDisk fun x d₁ ↦ d₁ = x ∨ leftDisk.Settled ∧ x.Crashed d₁ := by
  have hdest : leftDisk.contains Manifest.dest = true := by
    rw [ExtTreeMap.contains_eq_isSome_getElem?, getElem?_leftDisk.2 List.mem_cons_self]
    rfl
  obtain ⟨d', hd'⟩ := exists_recoverOf_of_holds holds_leftDisk (fun _ ↦ logs_left) {}
  obtain ⟨tr, hx⟩ := exists_exec_recover hd'
  exact ⟨settled_leftDisk, ⟨tr, _, d', hx⟩, recoversAgain (listable_of_manifest hdest) {}⟩

/-! ## A newline in a name -/

/-- A name with a newline, which recovery takes for the name of a table. -/
def twoLines : Name := ascii "sst_5" ++ 10 :: ascii ".sst"

/-- The directory with an empty file of that name. -/
def twoLinesDisk : Disk := (∅ : Disk).insert twoLines {}

theorem parse_twoLines :
    Manifest.parse (Manifest.text ⟨1, [twoLines]⟩) = .ok ⟨1, [ascii "sst_5"]⟩ := by
  have hg : 10 ∉ ascii "generation " ++ Codec.decimal 1 := by
    rw [List.mem_append, not_or]
    exact ⟨by decide, Manifest.newline_not_mem_decimal 1⟩
  have htext : Manifest.text ⟨1, [twoLines]⟩ = (ascii "generation " ++ Codec.decimal 1) ++
      10 :: ((ascii "file " ++ ascii "sst_5") ++ 10 :: (ascii ".sst" ++ 10 :: [])) := by
    rw [Manifest.text_eq]
    simp [twoLines]
  rw [Manifest.parse, htext, Manifest.lines_append hg, Manifest.lines_append (by decide),
    Manifest.lines_append (by decide), Manifest.lines_nil,
    Manifest.readLines_generation (by norm_num), Manifest.readLines_file]
  rfl

theorem foundTables_twoLines : ∃ t, t.path = twoLines ∧
    foundTables (swept twoLinesDisk) = some (1, [(5, t)]) := by
  have hnone : ∀ n, n ≠ twoLines → twoLinesDisk[n]? = none := fun n hn ↦ by
    rw [twoLinesDisk, Disk.getElem?_insert_ne hn]
    simp
  have hfile : (swept twoLinesDisk)[twoLines]? = some {} := by
    rw [getElem?_swept (by decide), twoLinesDisk, ExtTreeMap.getElem?_insert_self]
  have hkeys : [twoLines].Perm (swept twoLinesDisk).keys := by
    refine (List.perm_ext_iff_of_nodup (List.nodup_singleton _) ExtTreeMap.nodup_keys).2 fun n ↦ ?_
    rw [List.mem_singleton, mem_of_perm_keys (.refl _)]
    constructor
    · rintro rfl
      exact ⟨_, hfile⟩
    · rintro ⟨f, hf⟩
      by_contra hn
      rw [swept, getElem?_without, hnone n hn, ite_self] at hf
      cases hf
  obtain ⟨t, ht⟩ : ∃ t, SSTable.loadMeta twoLines [] = .ok t := ⟨_, rfl⟩
  have hopen : openOf (swept twoLinesDisk) twoLines = some t := by
    rw [openOf, hfile, Option.bind_some]
    exact congrArg Except.toOption ht
  have hcollect : collect (scannedTable (swept twoLinesDisk)) [twoLines] = some [(5, t)] := by
    have hid : scannedId (ascii ".sst") (ascii "sst_") twoLines = .ok (some 5) := rfl
    rw [collect_cons, scannedTable, hid, hopen]
    rfl
  obtain ⟨ts, hts, hp⟩ := collect_perm hkeys hcollect
  obtain rfl := List.perm_singleton.1 hp
  refine ⟨t, openOf_path hopen, ?_⟩
  rw [foundTables, getElem?_swept isLeftover_dest, hnone _ (by decide)]
  simp only [hts, Option.bind_eq_bind, Option.bind_some, newestFirst, List.mergeSort_singleton]
  rfl

theorem getElem?_listedDisk_twoLines {ts : List (ℕ × SSTable)} :
    listedDisk ts (swept twoLinesDisk) =
      Manifest.commit (Manifest.text ⟨1, ts.map (·.2.path)⟩) (swept twoLinesDisk) := by
  rw [listedDisk, if_neg]
  rw [ExtTreeMap.contains_eq_isSome_getElem?, getElem?_swept isLeftover_dest, twoLinesDisk,
    Disk.getElem?_insert_ne (by decide)]
  simp

/-- **A table whose name contains a newline** makes the next recovery throw. -/
theorem not_recoversAgain_twoLines : ¬RecoversAgain {} twoLinesDisk fun x d₁ ↦ d₁ = x := by
  intro h
  obtain ⟨t, hpath, hfound⟩ := foundTables_twoLines
  have hlog : ∀ n, extension n = ascii ".log" →
      (cleaned [(5, t)] twoLinesDisk)[n]? = (∅ : Disk)[n]? :=
    fun n hn ↦ by
      have hne : n ≠ twoLines := ne_of_extension (by rw [hn]; decide)
      rw [cleaned, getElem?_kept_segment hn, twoLinesDisk, Disk.getElem?_insert_ne hne]
  have hsegs : segmentsOf (cleaned [(5, t)] twoLinesDisk) = some [] := by
    rw [segmentsOf_congr hlog, segmentsOf_empty]
  obtain ⟨db, w, hdb⟩ : ∃ db w, recoverOf {} twoLinesDisk =
      some (db, (cleaned [(5, t)] twoLinesDisk).insertIfNew (walSegPath w) {}) :=
    ⟨_, _, recoverOf_eq_some_iff.2 ⟨1, _, [], hfound, hsegs, rfl, rfl⟩⟩
  obtain ⟨tr, hx⟩ := exists_exec_recover hdb
  obtain ⟨tr₁, db₁, d₁, hx₁, -⟩ := exists_exec_of_returns (h tr _ _ hx tr _ hx _ rfl)
  obtain ⟨gen, ts, -, hfound₁, -⟩ := recoverOf_eq_some_iff.1 (exec_recover hx₁)
  rw [leftBy] at hfound₁
  -- the name is cut at the newline when it is read back
  have hdest : ((cleaned [(5, t)] twoLinesDisk).insertIfNew (walSegPath w) {})[Manifest.dest]? =
      some (.saved (Manifest.text ⟨1, [twoLines]⟩)) := by
    rw [Disk.getElem?_insertIfNew_ne (walSegPath_ne_dest w).symm,
      getElem?_cleaned (isOrphan_dest _), getElem?_listedDisk_twoLines,
      Manifest.commit_dest, ← hpath]
    rfl
  have hgone : ((cleaned [(5, t)] twoLinesDisk).insertIfNew (walSegPath w) {})[ascii "sst_5"]? =
      none := by
    rw [Disk.getElem?_insertIfNew_ne (ne_of_extension (by rw [extension_walSegPath]; decide)),
      getElem?_cleaned (isOrphan_of_extension (by decide)), getElem?_listedDisk_twoLines,
      Manifest.commit, Disk.getElem?_insert_ne (by decide), Disk.getElem?_erase_ne (by decide),
      getElem?_swept (by decide), twoLinesDisk, Disk.getElem?_insert_ne (by decide)]
    simp
  rw [foundTables, getElem?_swept isLeftover_dest, hdest] at hfound₁
  simp only [File.content_saved, parse_twoLines, Except.toOption, Option.bind_eq_bind,
    Option.bind_some] at hfound₁
  obtain ⟨ts', hts', -⟩ := Option.bind_eq_some_iff.1 hfound₁
  obtain ⟨o, ho⟩ := Option.isSome_iff_exists.1 ((collect_eq_some.1 hts').1 _ List.mem_cons_self)
  obtain ⟨_, _, -, -, hopen⟩ := listedTable_eq_some ho
  rw [openOf, getElem?_swept (by decide), hgone] at hopen
  cases hopen

/-! ## A record that was not synced -/

section Unsynced

variable {sz : Sizing} {d : Disk} {C : Contents}

/-- The directory of a new store whose segment holds some bytes that have not been synced. -/
def unsyncedDisk (bs : Bytes) : Disk := (∅ : Disk).insert (walSegPath 0) ⟨[], bs⟩

/-- What it holds. -/
def unsynced (bs : Bytes) : Contents :=
  (⟨none, [], fun _ ↦ none⟩ : Contents).setLog 0 (some ⟨[], bs⟩)

theorem getElem?_unsyncedDisk_ne (bs : Bytes) {n : Name} (h : n ≠ walSegPath 0) :
    (unsyncedDisk bs)[n]? = none := by
  rw [unsyncedDisk, Disk.getElem?_insert_ne h]
  simp

theorem holds_unsyncedDisk (sz : Sizing) (bs : Bytes) :
    Holds sz (unsyncedDisk bs) (unsynced bs) where
  names n f hf := by
    by_cases hn : n = walSegPath 0
    · exact hn ▸ .log (Nat.two_pow_pos 64)
    · rw [getElem?_unsyncedDisk_ne bs hn] at hf
      cases hf
  logs id := by
    by_cases hid : id = 0
    · rw [hid, unsynced, Contents.setLog_logs_self, unsyncedDisk, ExtTreeMap.getElem?_insert_self]
    · rw [unsynced, Contents.setLog_logs_ne _ _ hid,
        getElem?_unsyncedDisk_ne bs fun heq ↦ hid (walSegPath_inj.1 heq)]
  tables t ht := absurd ht List.not_mem_nil
  manifest := getElem?_unsyncedDisk_ne bs (walSegPath_ne_dest 0).symm
  gen g h := by cases h
  first _ := ⟨rfl, fun id ↦ getElem?_unsyncedDisk_ne bs (sstPath_ne_walSegPath id 0)⟩

theorem records_unsynced (bs : Bytes) : (unsynced bs).records = WAL.records bs := by
  have hlast : (unsynced bs).records = recordsBelow (unsynced bs).logs (0 + 1) := rfl
  rw [hlast, recordsBelow_succ, unsynced, Contents.setLog_logs_self]
  rfl

theorem crashed_unsyncedDisk (bs : Bytes) :
    (unsyncedDisk bs).Crashed (unsyncedDisk []) := fun n ↦ by
  by_cases hn : n = walSegPath 0
  · rw [hn, unsyncedDisk, unsyncedDisk, ExtTreeMap.getElem?_insert_self,
      ExtTreeMap.getElem?_insert_self]
    exact .some ⟨[], List.nil_prefix, rfl⟩
  · rw [getElem?_unsyncedDisk_ne _ hn, getElem?_unsyncedDisk_ne _ hn]
    exact .none

/-- **A record that was not synced** is replayed, and may then be lost with the power. -/
theorem not_recoversAgain_unsynced {r : WalRecord} (hr : r.IsShort) :
    ¬RecoversAgain {} (unsyncedDisk r.bytes) Disk.Crashed := by
  intro h
  have hlogs : ∀ bs id, (unsynced bs).logs id ≠ none → id ≤ nextOf (unsynced bs).tables := by
    intro bs id hid
    by_contra hne
    refine hid (Contents.setLog_logs_ne _ _ ?_)
    rintro rfl
    exact hne (Nat.zero_le _)
  obtain ⟨d', hd'⟩ :=
    exists_recoverOf_of_holds (holds_unsyncedDisk .onePercent r.bytes) (hlogs _) {}
  obtain ⟨d₁, hd₁⟩ := exists_recoverOf_of_holds (holds_unsyncedDisk .onePercent []) (hlogs _) {}
  obtain ⟨tr, hx⟩ := exists_exec_recover hd'
  have hcut : Exec reliable recover ({} : DB) (unsyncedDisk r.bytes) []
    (.cut (unsyncedDisk r.bytes)) := .cut
  have hreturns := h tr _ _ hx [] _ hcut _ (crashed_unsyncedDisk r.bytes)
  obtain ⟨hsame, -⟩ := (returns_recover_iff hd₁).1 hreturns
  have hmem := congrArg (fun db : DB ↦ db.memtable.data.layer) hsame
  have hrecords : WAL.records r.bytes = [r] := by
    have hall := Codec.SelfDelimiting.all_encAll (C := walCodec) (List.forall_mem_singleton.2 hr)
    rwa [Codec.SelfDelimiting.encAll_cons, Codec.SelfDelimiting.encAll_nil, List.append_nil] at hall
  have hnil : WAL.records [] = [] := by
    rw [walRecords_eq]
    exact Codec.SelfDelimiting.all_nil
  simp only [recovered, records_unsynced, layer_replayed, hrecords, hnil] at hmem
  cases eq_nil_of_writes_blank (hmem.symm.trans (Overlay.writes_nil _))

end Unsynced

/-- **Both provisos are needed**: a newline in a name is lost in the MANIFEST, and unsynced records
may be replayed and then lost. -/
theorem not_recoversAgain : (¬∀ opts d, RecoversAgain opts d fun x d₁ ↦ d₁ = x) ∧
    ¬∀ (opts : Options) (d : Disk), (∀ (n : Name) (f : File), d[n]? = some f → 10 ∉ n) →
      RecoversAgain opts d Disk.Crashed := by
  refine ⟨fun h ↦ not_recoversAgain_twoLines (h {} twoLinesDisk), fun h ↦ ?_⟩
  have hr : (⟨WalOp.put, [107], [118]⟩ : WalRecord).IsShort := by decide
  refine not_recoversAgain_unsynced hr (h {} _ fun n f hf ↦ ?_)
  by_cases hn : n = walSegPath 0
  · rw [hn, walSegPath, List.mem_append, List.mem_append, not_or, not_or]
    exact ⟨⟨by decide, fun h ↦ absurd (Codec.isDigit_of_mem_padded h) (by decide)⟩, by decide⟩
  · rw [getElem?_unsyncedDisk_ne _ hn] at hf
    cases hf

end DB

end KeyValStore
