import KeyValStore.Crash.Collect
import KeyValStore.Recovery.Run
import KeyValStore.SSTable.Scan

/-!
# Recovery of an arbitrary directory

`recoverOf opts d` computes what `recover` makes of a directory with any files in it: the object and
the directory it leaves, or nothing if it throws.  `wp_recoverOf` says that this is what the program
does, whatever order the directory is listed in, and through which directories it passes on the way.
-/

set_option autoImplicit false

namespace KeyValStore

open Crash Std

namespace DB

/-! ## Loading tables -/

/-- The table in a file, if it can be opened. -/
def openOf (d : Disk) (p : Name) : Option SSTable :=
  (d[p]?).bind fun f ↦ (SSTable.loadMeta p f.content).toOption

/-- The table under a name of the MANIFEST, with its number. -/
def listedTable (d : Disk) (p : Name) : Option (Option (ℕ × SSTable)) := do
  let id ← (listedId p).toOption
  let t ← openOf d p
  return some (id, t)

/-- The table under a name of the directory, with its number; other files are passed over. -/
def scannedTable (d : Disk) (p : Name) : Option (Option (ℕ × SSTable)) := do
  match ← (scannedId (ascii ".sst") (ascii "sst_") p).toOption with
  | none => return none
  | some id => return some (id, ← openOf d p)

/-- The segment under a name of the directory, with its number; other files are passed over. -/
def scannedSegment (p : Name) : Option (Option (ℕ × Name)) :=
  (scannedId (ascii ".log") (ascii "wal_") p).toOption.map fun o ↦ o.map fun id ↦ (id, p)

/-- A table is loaded. -/
def addTable (t : ℕ × SSTable) (db : DB) : DB :=
  { db with
    nextSstId := max db.nextSstId (u64 (t.1 + 1))
    sstables := db.sstables ++ [t.2] }

/-- The first number above those of some tables. -/
def nextAfter (ts : List (ℕ × SSTable)) : ℕ := ts.foldr (fun t n ↦ max (u64 (t.1 + 1)) n) 0

theorem nextAfter_lt (ts : List (ℕ × SSTable)) : nextAfter ts < 2 ^ 64 := by
  induction ts with
  | nil => exact Nat.two_pow_pos 64
  | cons t ts ih => exact max_lt (Nat.mod_lt _ (Nat.two_pow_pos 64)) ih

theorem nextAfter_perm {ts ts' : List (ℕ × SSTable)} (h : ts.Perm ts') :
    nextAfter ts = nextAfter ts' := by
  have hcomm : LeftCommutative fun (t : ℕ × SSTable) n ↦ max (u64 (t.1 + 1)) n :=
    ⟨fun a b n ↦ max_left_comm _ _ n⟩
  exact h.foldr_eq 0

theorem foldl_addTable (ts : List (ℕ × SSTable)) (db : DB) :
    ts.foldl (fun db t ↦ addTable t db) db = { db with
      nextSstId := max db.nextSstId (nextAfter ts)
      sstables := db.sstables ++ ts.map (·.2) } := by
  induction ts generalizing db with
  | nil => simp [nextAfter]
  | cons t ts ih =>
    rw [List.foldl_cons, ih]
    simp [addTable, nextAfter, max_assoc]

section Load

variable {W : Watch (Call Mark) DB Disk} {E : Error → DB → Disk → Prop} {db : DB} {d : Disk}

theorem wp_loadAny {Q : Unit → DB → Disk → Prop} {id : ℕ} {p : Name} (hw : Allows W (· = d))
    (hthrew : openOf d p = none → ∀ e db', E e db' d)
    (hok : ∀ t, openOf d p = some t → Q () (addTable (id, t) db) d) :
    (loadTable id p).wp reliable W Q E db d := by
  rw [loadTable, wp_bind, wp_modify, wp_bind, SSTable.open, wp_bind]
  refine wp_readFile (fun hf ↦ hf.elim) (hw _ _ _ rfl rfl) (fun _ hf ↦ hf.elim) fun _ ↦ ?_
  cases hp : d[p]? with
  | none => exact hthrew (by rw [openOf, hp]; rfl) _ _
  | some f =>
    have hopen : openOf d p = (SSTable.loadMeta p f.content).toOption := by rw [openOf, hp]; rfl
    refine (wp_ofExcept _).2 ⟨fun t ht ↦ ?_, fun e he ↦ ?_⟩
    · exact hok t (by rw [hopen, ht]; rfl)
    · exact hthrew (by rw [hopen, he]; rfl) _ _

/-- The loop over the names in the MANIFEST. -/
theorem wp_loadAllListed {Q : PUnit → DB → Disk → Prop} {names : List Name} (hw : Allows W (· = d))
    (hthrew : collect (listedTable d) names = none → ∀ e db', E e db' d)
    (hok : ∀ ts, collect (listedTable d) names = some ts → Q () { db with
      nextSstId := max db.nextSstId (nextAfter ts)
      sstables := db.sstables ++ ts.map (·.2) } d) :
    (forM names fun name ↦ do
      let id ← Prog.ofExcept (listedId name)
      loadTable id name : Io DB PUnit).wp reliable W Q E db d := by
  refine wp_forM_collect addTable (fun p _ Q' m hnone _ hsome ↦ ?_) hthrew fun ts hts ↦ ?_
  · rw [wp_bind]
    refine (wp_ofExcept _).2 ⟨fun id hid ↦ ?_, fun e he ↦ ?_⟩
    · refine wp_loadAny hw (fun hp ↦ hnone ?_) fun t hp ↦ hsome (id, t) ?_
      · rw [listedTable, hid, hp]
        rfl
      · rw [listedTable, hid, hp]
        rfl
    · refine hnone ?_ _ _
      rw [listedTable, he]
      rfl
  · rw [foldl_addTable]
    exact hok ts hts

/-- The loop over the names in the directory. -/
theorem wp_loadAllScanned {Q : PUnit → DB → Disk → Prop} {names : List Name} (hw : Allows W (· = d))
    (hthrew : collect (scannedTable d) names = none → ∀ e db', E e db' d)
    (hok : ∀ ts, collect (scannedTable d) names = some ts → Q () { db with
      nextSstId := max db.nextSstId (nextAfter ts)
      sstables := db.sstables ++ ts.map (·.2) } d) :
    (forM names fun p ↦ do
      match ← Prog.ofExcept (scannedId (ascii ".sst") (ascii "sst_") p) with
      | none => pure ()
      | some id => loadTable id p : Io DB PUnit).wp reliable W Q E db d := by
  refine wp_forM_collect addTable (fun p _ Q' m hnone hskip hsome ↦ ?_) hthrew fun ts hts ↦ ?_
  · rw [wp_bind]
    refine (wp_ofExcept _).2 ⟨fun o ho ↦ ?_, fun e he ↦ ?_⟩
    · cases o with
      | none =>
        refine hskip ?_
        rw [scannedTable, ho]
        rfl
      | some id =>
        refine wp_loadAny hw (fun hp ↦ hnone ?_) fun t hp ↦ hsome (id, t) ?_
        · simp [scannedTable, ho, hp, Except.toOption]
        · simp [scannedTable, ho, hp, Except.toOption]
    · refine hnone ?_ _ _
      rw [scannedTable, he]
      rfl
  · rw [foldl_addTable]
    exact hok ts hts

end Load

/-! ## Sorting what was found -/

theorem openOf_path {d : Disk} {p : Name} {t : SSTable} (h : openOf d p = some t) : t.path = p := by
  cases hp : d[p]? with
  | none =>
    rw [openOf, hp] at h
    cases h
  | some f =>
    rw [openOf, hp] at h
    cases hl : SSTable.loadMeta p f.content with
    | error e =>
      rw [Option.bind_some, hl] at h
      cases h
    | ok t' =>
      rw [Option.bind_some, hl] at h
      obtain rfl := Option.some.inj h
      exact (SSTable.loadMeta_eq_ok hl).1

theorem scannedTable_eq_some {d : Disk} {p : Name} {t : ℕ × SSTable}
    (h : scannedTable d p = some (some t)) :
    scannedId (ascii ".sst") (ascii "sst_") p = .ok (some t.1) ∧ openOf d p = some t.2 := by
  cases hid : scannedId (ascii ".sst") (ascii "sst_") p with
  | error e =>
    rw [scannedTable, hid] at h
    cases h
  | ok o =>
    cases o with
    | none =>
      rw [scannedTable, hid] at h
      cases h
    | some id =>
      cases hopen : openOf d p with
      | none => simp [scannedTable, hid, hopen, Except.toOption] at h
      | some t' =>
        simp only [scannedTable, hid, hopen, Except.toOption] at h
        obtain rfl := Option.some.inj (Option.some.inj h)
        exact ⟨rfl, rfl⟩

theorem extension_of_scannedId {ext pre : Bytes} {p : Name} {id : ℕ}
    (h : scannedId ext pre p = .ok (some id)) : extension p = ext := by
  by_contra hne
  rw [scannedId_of_extension hne] at h
  cases h

theorem mem_of_collect_scanned {d : Disk} {names : List Name} {ts : List (ℕ × SSTable)}
    (h : collect (scannedTable d) names = some ts) {t : ℕ × SSTable} (ht : t ∈ ts) :
    t.2.path ∈ names ∧ extension t.2.path = ascii ".sst" ∧
      scannedTable d t.2.path = some (some t) := by
  obtain ⟨p, hp, hfound⟩ := mem_of_collect h ht
  obtain ⟨hid, hopen⟩ := scannedTable_eq_some hfound
  obtain rfl := openOf_path hopen
  exact ⟨hp, extension_of_scannedId hid, hfound⟩

/-- The tables that were found, in the order recovery puts them in. -/
def newestFirst (ts : List (ℕ × SSTable)) : List (ℕ × SSTable) :=
  ts.mergeSort fun a b ↦ stemGe a.2 b.2

theorem stemGe_iff {a b : SSTable} :
    stemGe a b = true ↔ (compare (stem a.path) (stem b.path)).isGE = true := by
  rw [stemGe, bne_iff_ne, Ordering.isGE_iff_ne_lt]

theorem stemGe_trans (a b c : SSTable) (hab : stemGe a b = true) (hbc : stemGe b c = true) :
    stemGe a c = true := by
  rw [stemGe_iff] at hab hbc ⊢
  exact TransCmp.isGE_trans hab hbc

theorem stemGe_total (a b : SSTable) : (stemGe a b || stemGe b a) = true := by
  rw [Bool.or_eq_true, stemGe_iff, stemGe_iff, OrientedCmp.isGE_iff_isLE (a := stem b.path)]
  cases compare (stem a.path) (stem b.path) <;> simp

theorem stem_eq_of_stemGe {a b : SSTable} (hab : stemGe a b = true) (hba : stemGe b a = true) :
    stem a.path = stem b.path := by
  rw [stemGe_iff] at hab
  rw [stemGe_iff, OrientedCmp.isGE_iff_isLE] at hba
  refine LawfulEqOrd.compare_eq_iff_eq.1 ?_
  cases hc : compare (stem a.path) (stem b.path) <;> simp [hc] at hab hba ⊢

theorem newestFirst_perm (ts : List (ℕ × SSTable)) : (newestFirst ts).Perm ts :=
  List.mergeSort_perm _ _

theorem map_newestFirst (ts : List (ℕ × SSTable)) :
    (newestFirst ts).map (·.2) = (ts.map (·.2)).mergeSort stemGe :=
  List.map_mergeSort fun _ _ _ _ ↦ rfl

theorem pairwise_newestFirst (ts : List (ℕ × SSTable)) :
    (newestFirst ts).Pairwise fun a b ↦ stemGe a.2 b.2 = true :=
  List.pairwise_mergeSort (fun a b c ↦ stemGe_trans a.2 b.2 c.2) (fun a b ↦ stemGe_total a.2 b.2) ts

/-- **The order of the listing does not show** in the order of the tables. -/
theorem newestFirst_congr {d : Disk} {names : List Name} {ts ts' : List (ℕ × SSTable)}
    (h : collect (scannedTable d) names = some ts) (hp : ts'.Perm ts) :
    newestFirst ts' = newestFirst ts := by
  refine List.Perm.eq_of_pairwise (fun a b ha hb hab hba ↦ ?_) (pairwise_newestFirst ts')
    (pairwise_newestFirst ts) ((newestFirst_perm ts').trans (hp.trans (newestFirst_perm ts).symm))
  obtain ⟨-, hexta, hfa⟩ :=
    mem_of_collect_scanned h (hp.mem_iff.1 ((newestFirst_perm ts').mem_iff.1 ha))
  obtain ⟨-, hextb, hfb⟩ := mem_of_collect_scanned h ((newestFirst_perm ts).mem_iff.1 hb)
  have hpath : a.2.path = b.2.path := by
    rw [← stem_append_extension a.2.path, ← stem_append_extension b.2.path, hexta, hextb,
      stem_eq_of_stemGe hab hba]
  rw [hpath, hfb] at hfa
  exact (Option.some.inj (Option.some.inj hfa)).symm

/-! ## Deleting files -/

/-- The directory without the files that satisfy a condition. -/
def without (c : Name → Bool) (d : Disk) : Disk := d.filter fun n _ ↦ !c n

theorem getElem?_without (c : Name → Bool) (d : Disk) (n : Name) :
    (without c d)[n]? = if c n = true then none else d[n]? := by
  rw [without, ExtTreeMap.getElem?_filter']
  cases d[n]? <;> cases c n <;> rfl

theorem agreeBut_without (c : Name → Bool) (d : Disk) :
    Disk.AgreeBut (c · = true) d (without c d) :=
  fun n hn ↦ by rw [getElem?_without, if_neg hn]

section Delete

variable {W : Watch (Call Mark) DB Disk} {E : Error → DB → Disk → Prop} {db : DB} {d : Disk}

/-- A loop over a listing that removes the files that satisfy a condition. -/
theorem wp_removeAll {Q : PUnit → DB → Disk → Prop} {names : List Name} {c : Name → Prop}
    [DecidablePred c] (hnames : names.Perm d.keys)
    (hw : ∀ n m d', c n → Disk.AgreeBut c d d' → W.always ⟨.remove n, m, d'⟩)
    (h : Q () db (without (fun n ↦ decide (c n)) d)) :
    (forM names fun p ↦ if c p then call (.remove p) else pure () : Io DB PUnit).wp reliable W Q E
      db d := by
  have hnodup : names.Nodup := hnames.nodup_iff.2 ExtTreeMap.nodup_keys
  -- the names that are left have not been looked at yet
  refine wp_forM (fun left m d' ↦ m = db ∧
    ∀ n, d'[n]? = if c n ∧ n ∉ left then none else d[n]?) names ⟨rfl, fun n ↦ ?_⟩ ?_ ?_
  · split
    · rename_i hn
      cases hd : d[n]? with
      | none => rfl
      | some f => exact absurd ((mem_of_perm_keys hnames n).2 ⟨f, hd⟩) hn.2
    · rfl
  · rintro p left m d' hsuffix ⟨rfl, hd'⟩
    have hp : p ∉ left := (List.nodup_cons.1 (hnodup.sublist hsuffix.sublist)).1
    rw [wp_ite]
    by_cases hc : c p
    · rw [if_pos hc]
      refine wp_call_remove id (hw p _ _ hc fun n hn ↦ ?_) ⟨rfl, fun n ↦ ?_⟩
      · rw [hd', if_neg fun h ↦ hn h.1]
      · by_cases hn : n = p
        · rw [hn, ExtTreeMap.getElem?_erase_self, if_pos ⟨hc, hp⟩]
        · rw [Disk.getElem?_erase_ne hn, hd']
          simp [hn]
    · rw [if_neg hc]
      refine ⟨rfl, fun n ↦ ?_⟩
      rw [hd']
      by_cases hn : n = p
      · rw [hn, if_neg fun h ↦ hc h.1, if_neg fun h ↦ hc h.1]
      · simp [hn]
  · rintro m d' ⟨rfl, hd'⟩
    have heq : d' = without (fun n ↦ decide (c n)) d := by
      refine ExtTreeMap.ext_getElem? fun n ↦ ?_
      rw [hd', getElem?_without]
      simp
    exact heq ▸ h

end Delete

/-! ## Sorting the segments -/

theorem toOption_walSegments (names : List Name) :
    (walSegments names).toOption = collect scannedSegment names := by
  induction names with
  | nil => rfl
  | cons p names ih =>
    rw [walSegments, collect_cons, ← ih, scannedSegment]
    cases scannedId (ascii ".log") (ascii "wal_") p with
    | error e => rfl
    | ok o =>
      cases o with
      | none => cases walSegments names <;> rfl
      | some id => cases walSegments names <;> rfl

theorem scannedSegment_eq_some {p : Name} {s : ℕ × Name} (h : scannedSegment p = some (some s)) :
    s.2 = p ∧ scannedId (ascii ".log") (ascii "wal_") p = .ok (some s.1) := by
  rw [scannedSegment] at h
  cases hid : scannedId (ascii ".log") (ascii "wal_") p with
  | error e =>
    rw [hid] at h
    cases h
  | ok o =>
    rw [hid] at h
    obtain ⟨id, rfl, rfl⟩ := Option.map_eq_some_iff.1 (Option.some.inj h)
    exact ⟨rfl, rfl⟩

theorem mem_of_collect_segments {names : List Name} {segs : List (ℕ × Name)}
    (h : collect scannedSegment names = some segs) {s : ℕ × Name} (hs : s ∈ segs) :
    s.2 ∈ names ∧ scannedId (ascii ".log") (ascii "wal_") s.2 = .ok (some s.1) := by
  obtain ⟨p, hp, hfound⟩ := mem_of_collect h hs
  obtain ⟨rfl, hid⟩ := scannedSegment_eq_some hfound
  exact ⟨hp, hid⟩

theorem segLe_iff {a b : ℕ × Name} :
    segLe a b = true ↔ a.1 < b.1 ∨ a.1 = b.1 ∧ (compare a.2 b.2).isLE = true := by
  rw [segLe, Bool.or_eq_true, Bool.and_eq_true, decide_eq_true_eq, beq_iff_eq, bne_iff_ne,
    Ordering.isLE_iff_ne_gt]

theorem segLe_trans (a b c : ℕ × Name) (hab : segLe a b = true) (hbc : segLe b c = true) :
    segLe a c = true := by
  rw [segLe_iff] at hab hbc ⊢
  rcases hab with hab | ⟨hab, hp⟩
  · rcases hbc with hbc | ⟨hbc, -⟩
    · exact .inl (hab.trans hbc)
    · exact .inl (hbc ▸ hab)
  · rcases hbc with hbc | ⟨hbc, hp'⟩
    · exact .inl (hab ▸ hbc)
    · exact .inr ⟨hab.trans hbc, TransCmp.isLE_trans hp hp'⟩

theorem segLe_total (a b : ℕ × Name) : (segLe a b || segLe b a) = true := by
  rw [Bool.or_eq_true, segLe_iff, segLe_iff]
  rcases Nat.lt_trichotomy a.1 b.1 with h | h | h
  · exact .inl (.inl h)
  · by_cases hle : (compare a.2 b.2).isLE = true
    · exact .inl (.inr ⟨h, hle⟩)
    · refine .inr (.inr ⟨h.symm, ?_⟩)
      rw [← OrientedCmp.isGE_iff_isLE]
      cases hc : compare a.2 b.2 <;> simp [hc] at hle ⊢
  · exact .inr (.inl h)

theorem eq_of_segLe {a b : ℕ × Name} (hab : segLe a b = true) (hba : segLe b a = true) : a = b := by
  rw [segLe_iff] at hab hba
  have hid : a.1 = b.1 := by omega
  have hle : (compare a.2 b.2).isLE = true := by
    rcases hab with h | ⟨-, h⟩
    · omega
    · exact h
  have hge : (compare a.2 b.2).isGE = true := by
    rw [OrientedCmp.isGE_iff_isLE]
    rcases hba with h | ⟨-, h⟩
    · omega
    · exact h
  refine Prod.ext hid (LawfulEqOrd.compare_eq_iff_eq.1 ?_)
  cases hc : compare a.2 b.2 <;> simp [hc] at hle hge ⊢

theorem mergeSort_segLe_congr {segs segs' : List (ℕ × Name)} (h : segs'.Perm segs) :
    segs'.mergeSort segLe = segs.mergeSort segLe :=
  List.Perm.eq_of_pairwise (fun _ _ _ _ ↦ eq_of_segLe)
    (List.pairwise_mergeSort segLe_trans segLe_total segs')
    (List.pairwise_mergeSort segLe_trans segLe_total segs)
    ((List.mergeSort_perm _ _).trans (h.trans (List.mergeSort_perm _ _).symm))

/-! ## What recovery makes of a directory -/

/-- Do steps 1 and 2 delete the file? -/
def isLeftover (n : Name) : Bool := n = Manifest.tmp || isSealed n

/-- The directory after steps 1 and 2. -/
def swept (d : Disk) : Disk := without isLeftover d

/-- The generation and the tables that step 3 finds, in the order in which a `get` asks them. -/
def foundTables (d : Disk) : Option (ℕ × List (ℕ × SSTable)) :=
  match d[Manifest.dest]? with
  | some f => do
    let data ← (Manifest.parse f.content).toOption
    return (data.generation, ← collect (listedTable d) data.liveSstables)
  | none => do return (1, newestFirst (← collect (scannedTable d) d.keys))

/-- The directory after step 3: there is a MANIFEST. -/
def listedDisk (ts : List (ℕ × SSTable)) (d : Disk) : Disk :=
  if d.contains Manifest.dest then d else Manifest.commit (Manifest.text ⟨1, ts.map (·.2.path)⟩) d

/-- Does step 4 delete the file? -/
def isOrphan (ts : List (ℕ × SSTable)) (n : Name) : Bool :=
  extension n = ascii ".sst" && ts.all fun t ↦ t.2.path ≠ n

theorem isOrphan_iff {ts : List (ℕ × SSTable)} {n : Name} :
    isOrphan ts n = true ↔ extension n = ascii ".sst" ∧ n ∉ ts.map (·.2.path) := by
  rw [isOrphan, Bool.and_eq_true, decide_eq_true_eq, List.all_eq_true, List.mem_map, not_exists]
  refine and_congr_right fun _ ↦ forall_congr' fun t ↦ ?_
  rw [decide_eq_true_eq, not_and]

/-- The object after step 3. -/
def foundDb (opts : Options) (gen : ℕ) (ts : List (ℕ × SSTable)) : DB where
  opts
  sstables := ts.map (·.2)
  nextSstId := nextAfter ts
  manifestGen := gen

/-- The segments that step 5 replays, in order. -/
def segmentsOf (d : Disk) : Option (List (ℕ × Name)) :=
  (collect scannedSegment d.keys).map (·.mergeSort segLe)

/-- The object after step 6. -/
def openedDb (db : DB) : DB :=
  { db with
    currentWalId := max db.currentWalId db.nextSstId
    wal := some (walSegPath (max db.currentWalId db.nextSstId)) }

/-- **What `recover` makes of a directory.** -/
def recoverOf (opts : Options) (d : Disk) : Option (DB × Disk) := do
  let (gen, ts) ← foundTables (swept d)
  let d := without (isOrphan ts) (listedDisk ts (swept d))
  let segs ← segmentsOf d
  let db := openedDb (scannedSegmentsDb d segs (foundDb opts gen ts))
  return (db, d.insertIfNew (walSegPath db.currentWalId) {})

section Whole

variable {W : Watch (Call Mark) DB Disk} {E : Error → DB → Disk → Prop} {db : DB} {d : Disk}
  {opts : Options}

/-- **Steps 1 and 2.** -/
theorem wp_sweep {Q : Unit → DB → Disk → Prop}
    (hw : ∀ c m d', Disk.AgreeBut (isLeftover · = true) d d' → W.always ⟨c, m, d'⟩)
    (h : Q () db (swept d)) : removeLeftovers.wp reliable W Q E db d := by
  have herase : Disk.AgreeBut (isLeftover · = true) d (d.erase Manifest.tmp) :=
    (Disk.agreeOff_erase d _).agreeBut (by simp [isLeftover])
  rw [removeLeftovers, wp_bind]
  refine wp_call_remove id (hw _ _ _ (.refl _ d)) ?_
  rw [wp_bind]
  refine wp_listDir.2 ⟨hw _ _ _ herase, fun _ names hnames ↦ ?_⟩
  refine wp_removeAll hnames (fun n m d' _ hd' ↦ hw _ _ _ (herase.trans fun n' hn' ↦ ?_)) ?_
  · exact hd' n' fun hs ↦ hn' (by simp [isLeftover, hs])
  · have heq : without (fun n ↦ decide (isSealed n = true)) (d.erase Manifest.tmp) = swept d := by
      refine ExtTreeMap.ext_getElem? fun n ↦ ?_
      rw [swept, getElem?_without, getElem?_without, isLeftover]
      by_cases hn : n = Manifest.tmp
      · rw [hn, ExtTreeMap.getElem?_erase_self]
        simp
      · rw [Disk.getElem?_erase_ne hn]
        simp [hn]
    exact heq ▸ h

/-- **Step 3.** -/
theorem wp_findTables {Q : Unit → DB → Disk → Prop}
    (hw : ∀ c m d', Disk.AgreeBut (isLeftover · = true) d d' → W.always ⟨c, m, d'⟩)
    (hthrew : foundTables d = none → ∀ e db' d', E e db' d')
    (hok : ∀ gen ts, foundTables d = some (gen, ts) →
      Q () (foundDb opts gen ts) (listedDisk ts d)) :
    loadTables.wp reliable W Q E { opts } d := by
  have hidle : Allows W (· = d) := fun c m d' _ hd' ↦ hw c m d' (by rw [hd']; exact .refl _ d)
  rw [loadTables, wp_bind, Manifest.exists]
  refine wp_fileExists.2 ⟨hidle _ _ _ rfl rfl, fun _ ↦ ?_⟩
  cases hdest : d[Manifest.dest]? with
  | some f =>
    have hcontains : d.contains Manifest.dest = true := by
      rw [ExtTreeMap.contains_eq_isSome_getElem?, hdest, Option.isSome_some]
    rw [hcontains, wp_ite, if_pos rfl, loadListed, wp_bind, Manifest.read, wp_bind]
    refine wp_readFile (fun hf ↦ hf.elim) (hidle _ _ _ rfl rfl) (fun _ hf ↦ hf.elim) fun _ ↦ ?_
    rw [hdest]
    simp only [foundTables, hdest] at hthrew hok
    refine (wp_ofExcept _).2 ⟨fun data hdata ↦ ?_, fun e he ↦ ?_⟩
    · rw [hdata] at hthrew hok
      rw [wp_bind, wp_modify]
      refine wp_loadAllListed hidle (fun hc ↦ fun e db' ↦ ?_) fun ts hts ↦ ?_
      · refine hthrew ?_ e db' d
        simp [Except.toOption, hc]
      · have h' := hok data.generation ts (by simp [Except.toOption, hts])
        rw [listedDisk, if_pos hcontains] at h'
        simpa [foundDb] using h'
    · refine hthrew ?_ e _ d
      rw [he]
      rfl
  | none =>
    have hcontains : d.contains Manifest.dest = false := by
      rw [ExtTreeMap.contains_eq_isSome_getElem?, hdest, Option.isSome_none]
    rw [hcontains, wp_ite, if_neg Bool.false_ne_true, loadScanned, wp_bind]
    simp only [foundTables, hdest] at hthrew hok
    refine wp_listDir.2 ⟨hidle _ _ _ rfl rfl, fun _ names hnames ↦ ?_⟩
    rw [wp_bind]
    refine wp_loadAllScanned hidle (fun hc e db' ↦ ?_) fun ts hts ↦ ?_
    · refine hthrew ?_ e db' d
      rw [collect_eq_none_of_perm hnames hc]
      rfl
    obtain ⟨ts₀, hts₀, hp⟩ := collect_perm hnames hts
    have hsorted : newestFirst ts₀ = newestFirst ts := newestFirst_congr hts hp
    have hsort : ([] ++ ts.map (·.2) : List SSTable).mergeSort stemGe =
        (newestFirst ts₀).map (·.2) := by
      rw [List.nil_append, hsorted, map_newestFirst]
    have hnext : max 0 (nextAfter ts) = nextAfter (newestFirst ts₀) := by
      rw [Nat.zero_max, hsorted, nextAfter_perm (newestFirst_perm ts)]
    have h' := hok 1 (newestFirst ts₀) (by rw [hts₀]; rfl)
    rw [listedDisk, if_neg (by simp [hcontains])] at h'
    rw [wp_bind, wp_modify]
    have hreplacing : ∀ {d'}, Manifest.Replacing .none d d' →
        Disk.AgreeBut (isLeftover · = true) d d' := by
      rintro d' (hoff | ⟨hf, -⟩)
      · exact hoff.agreeBut (by simp [isLeftover])
      · exact hf.elim
    refine wp_updateManifestLocked throwing_none (fun c m d' _ hd' ↦ hw _ _ _ (hreplacing hd'))
      (fun d' hd' _ ↦ hw _ _ _ (hreplacing hd')) (fun _ hf ↦ hf.elim) (fun _ _ _ hf ↦ ?_) ?_
    · rcases hf with hf | ⟨_, hf⟩ | hf
      · exact hf.elim
      · exact hf.elim
      · exact hf.elim
    · simp only [hsort, hnext, List.map_map]
      exact h'

/-- **Step 4.** -/
theorem wp_dropOrphans {Q : Unit → DB → Disk → Prop} {ts : List (ℕ × SSTable)}
    (hdb : db.sstables = ts.map (·.2))
    (hw : ∀ c m d', Disk.AgreeBut (isOrphan ts · = true) d d' → W.always ⟨c, m, d'⟩)
    (h : Q () db (without (isOrphan ts) d)) : removeOrphans.wp reliable W Q E db d := by
  rw [removeOrphans, wp_bind, Crash.wp_get, wp_bind, hdb, List.map_map]
  refine wp_listDir.2 ⟨hw _ _ _ (.refl _ d), fun _ names hnames ↦ ?_⟩
  have hc : (fun n ↦ decide (extension n = ascii ".sst" ∧ n ∉ ts.map (·.2.path))) = isOrphan ts :=
    funext fun n ↦ Bool.eq_iff_iff.2 (by rw [decide_eq_true_eq, isOrphan_iff])
  refine wp_removeAll hnames (fun n m d' _ hd' ↦ hw _ _ _ fun n' hn' ↦ hd' n' fun hc ↦
      hn' ?_) (hc ▸ h)
  exact isOrphan_iff.2 hc

/-- **Step 5.** -/
theorem wp_replayAll {Q : Unit → DB → Disk → Prop} (hw : ∀ c m, W.always ⟨c, m, d⟩)
    (hthrew : segmentsOf d = none → ∀ e db' d', E e db' d')
    (hok : ∀ segs, segmentsOf d = some segs → Q () (scannedSegmentsDb d segs db) d) :
    replaySegments.wp reliable W Q E db d := by
  rw [replaySegments, wp_bind]
  refine wp_listDir.2 ⟨hw _ _, fun _ names hnames ↦ ?_⟩
  rw [wp_bind]
  have hcollect := toOption_walSegments names
  refine (wp_ofExcept _).2 ⟨fun segs hsegs ↦ ?_, fun e he ↦ ?_⟩
  · rw [hsegs] at hcollect
    obtain ⟨segs₀, hsegs₀, hp⟩ := collect_perm hnames hcollect.symm
    have hsort := mergeSort_segLe_congr hp.symm
    rw [hsort]
    refine wp_replayScanned (fun s hs ↦ ?_) (fun c m d' _ hd' ↦ hd' ▸ hw c m)
      (fun _ _ _ _ m ↦ hw _ m) (hok _ (by rw [segmentsOf, hsegs₀]; rfl))
    rw [← mem_of_perm_keys hnames]
    refine (mem_of_collect_segments hcollect.symm (hp.mem_iff.1 ?_)).1
    exact (List.mergeSort_perm segs₀ segLe).mem_iff.1 hs
  · rw [he] at hcollect
    refine hthrew ?_ e _ d
    rw [segmentsOf, collect_eq_none_of_perm hnames hcollect.symm]
    rfl

/-- **What `recover` does**, in any directory.  Up to step 3 it only touches what steps 1 and 2
delete, and from then on only what step 4 deletes, until the active segment is opened. -/
theorem wp_recoverOf {Q : Unit → DB → Disk → Prop}
    (hsweep : ∀ c m d', Disk.AgreeBut (isLeftover · = true) d d' → W.always ⟨c, m, d'⟩)
    (hdrop : ∀ gen ts, foundTables (swept d) = some (gen, ts) → ∀ c m d',
      Disk.AgreeBut (isOrphan ts · = true) (listedDisk ts (swept d)) d' → W.always ⟨c, m, d'⟩)
    (hthrew : recoverOf opts d = none → ∀ e db' d', E e db' d')
    (hok : ∀ db d', recoverOf opts d = some (db, d') → Q () db d') :
    recover.wp reliable W Q E { opts } d := by
  have hswept : Disk.AgreeBut (isLeftover · = true) d (swept d) := agreeBut_without _ d
  rw [recover, wp_bind]
  refine wp_sweep hsweep ?_
  rw [wp_bind]
  refine wp_findTables (fun c m d' hd' ↦ hsweep c m d' (hswept.trans hd')) (fun hnone ↦ ?_)
    fun gen ts hfound ↦ ?_
  · exact hthrew (by rw [recoverOf, hnone]; rfl)
  rw [wp_bind]
  refine wp_dropOrphans rfl (hdrop gen ts hfound) ?_
  rw [wp_bind]
  have hidle : ∀ c m, W.always ⟨c, m, without (isOrphan ts) (listedDisk ts (swept d))⟩ := fun c m ↦
    hdrop gen ts hfound c m _ (agreeBut_without _ _)
  refine wp_replayAll hidle (fun hnone ↦ ?_) fun segs hsegs ↦ ?_
  · refine hthrew ?_
    rw [recoverOf, hfound]
    simp [hnone]
  rw [openActive, wp_bind, wp_modify, wp_bind, Crash.wp_get, wp_bind]
  refine WAL.wp_open (hidle _ _) (fun hf ↦ hf.elim) ?_
  rw [wp_modify]
  refine hok (openedDb (scannedSegmentsDb _ segs (foundDb opts gen ts))) _ ?_
  rw [recoverOf, hfound]
  simp [hsegs]
  rfl

/-- **Recovery is a function of the directory.** -/
theorem exec_recover {tr : List (Event (Call Mark) DB Disk)} {d' : Disk}
    (hx : Exec reliable recover { opts } d tr (.ok () db d')) : recoverOf opts d = some (db, d') :=
  (hx.of_wp (fun _ _ ↦ trivial)
    (wp_recoverOf (W := .blind) (Q := fun _ db d' ↦ recoverOf opts d = some (db, d'))
    (E := fun _ _ _ ↦ True) (fun _ _ _ _ ↦ trivial) (fun _ _ _ _ _ _ _ ↦ trivial)
    (fun _ _ _ _ ↦ trivial) fun _ _ h ↦ h)).2

theorem returns_recover {Q : Unit → DB → Disk → Prop} {d' : Disk}
    (h : recoverOf opts d = some (db, d')) (hQ : Q () db d') :
    recover.Returns reliable { opts } d Q := by
  refine Prog.returns_of_wp (wp_recoverOf (fun _ _ _ _ ↦ trivial) (fun _ _ _ _ _ _ _ ↦ trivial)
    (fun hnone ↦ ?_) fun db' d'' h' ↦ ?_)
  · rw [hnone] at h
    cases h
  · rw [h] at h'
    obtain ⟨rfl, rfl⟩ := Prod.mk.inj (Option.some.inj h')
    exact hQ

theorem exists_exec_of_returns {Q : Unit → DB → Disk → Prop}
    (h : recover.Returns reliable { opts } d Q) :
    ∃ tr db d', Exec reliable recover { opts } d tr (.ok () db d') ∧ Q () db d' := by
  obtain ⟨tr, o, hx, ho⟩ := Exec.exists_run (device_total .none) recover ({ opts } : DB) d
  rcases h tr o hx with ⟨d', rfl⟩ | ⟨_, db, d', rfl, hQ⟩
  · exact absurd rfl (ho d')
  · exact ⟨tr, db, d', hx, hQ⟩

theorem returns_recover_iff {Q : Unit → DB → Disk → Prop} {d' : Disk}
    (h : recoverOf opts d = some (db, d')) :
    recover.Returns reliable { opts } d Q ↔ Q () db d' := by
  refine ⟨fun hreturns ↦ ?_, returns_recover h⟩
  obtain ⟨tr, db', d'', hx, hQ⟩ := exists_exec_of_returns hreturns
  have heq := exec_recover hx
  rw [h] at heq
  obtain ⟨rfl, rfl⟩ := Prod.mk.inj (Option.some.inj heq)
  exact hQ

theorem exists_exec_recover {d' : Disk} (h : recoverOf opts d = some (db, d')) :
    ∃ tr, Exec reliable recover { opts } d tr (.ok () db d') := by
  obtain ⟨tr, _, _, hx, rfl, rfl⟩ :=
    exists_exec_of_returns (returns_recover (Q := fun _ db₁ d₁ ↦ db₁ = db ∧ d₁ = d') h ⟨rfl, rfl⟩)
  exact ⟨tr, hx⟩

end Whole

end DB

end KeyValStore
