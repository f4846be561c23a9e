import KeyValStore.History.Reach
import KeyValStore.Recovery.Again
import KeyValStore.Session.Silent

/-!
# Recovery when anything may go wrong

In a directory with a MANIFEST `recover` deletes files it has no use for, and may create a segment.
A file that cannot be deleted stays; a table or a segment that cannot be read, or comes up short,
makes `recover` throw, or go on with less than there is.  Either way the next recovery, if all goes
well, makes of the directory what it makes of it as it was before (`wp_recover_any`).

With the MANIFEST it is different: it comes up short without notice, and then the tables that are
missed are deleted (`exists_exec_cutShort`).  `bearsErrors` puts the two together.
-/

set_option autoImplicit false

namespace KeyValStore

open Crash Std

namespace DB

/-- The objects would delete and create the same files. -/
structure Alike (db db' : DB) : Prop where
  /-- The names of the tables are the same. -/
  paths : db.sstables.map (·.path) = db'.sstables.map (·.path)
  /-- So is the next number, -/
  next : db.nextSstId = db'.nextSstId
  /-- and that of the segment. -/
  wal : db.currentWalId = db'.currentWalId

theorem eq_ok_of_toOption {ε α : Type} {x : Except ε α} {a : α} (h : x.toOption = some a) :
    x = .ok a := by
  cases x with
  | error e => cases h
  | ok a' => rw [Option.some.inj h]

theorem contains_iff {d : Disk} {n : Name} : d.contains n = true ↔ ∃ f, d[n]? = some f := by
  rw [ExtTreeMap.contains_eq_isSome_getElem?, Option.isSome_iff_exists]

theorem contains_swept {d : Disk} {n : Name} (hn : isLeftover n = false) :
    (swept d).contains n = d.contains n := by
  rw [ExtTreeMap.contains_eq_isSome_getElem?, ExtTreeMap.contains_eq_isSome_getElem?,
    getElem?_swept hn]

theorem Alike.refl (db : DB) : db.Alike db := ⟨rfl, rfl, rfl⟩

theorem Alike.addTable {db db' : DB} (h : db.Alike db') {id : ℕ} {t t' : SSTable}
    (ht : t.path = t'.path) : (DB.addTable (id, t) db).Alike (DB.addTable (id, t') db') where
  paths := by simp [DB.addTable, h.paths, ht]
  next := by simp [DB.addTable, h.next]
  wal := h.wal

/-- The call lists the directory, or deletes a file of some kind. -/
def Removes (J : Name → Prop) : Call Mark → Prop
  | .listDir => True
  | .remove n => J n
  | _ => False

/-- Other files stay as they are, whatever goes wrong. -/
theorem Removes.agreeBut {F : Faults Mark} {J : Name → Prop} {c : Call Mark}
    {r : Reply c} {d d' : Disk} (hc : Removes J c) (hs : Crash.Step F c d r d') :
    Disk.AgreeBut J d d' := by
  cases c with
  | listDir => exact hs.2 ▸ .refl J d
  | remove n =>
    rcases hs with ⟨-, rfl⟩ | ⟨-, -, rfl⟩
    · exact (Disk.agreeOff_erase _ n).agreeBut hc
    · exact .refl J _
  | _ => exact hc.elim

/-- A loop that deletes some files. -/
theorem silent_removeSome {J c : Name → Prop} [DecidablePred c] {names : List Name}
    (h : ∀ n, c n → J n) :
    (forM names fun p ↦ if c p then call (.remove p) else pure () : Io DB PUnit).Silent
    (Removes J) := by
  refine silent_forM fun p _ ↦ ?_
  by_cases hp : c p
  · rw [if_pos hp]
    exact silent_call (h p hp)
  · rw [if_neg hp]
    exact silent_pure ()

/-- Losing bytes that are not waiting to be synced. -/
theorem modify_keep {d : Disk} {n : Name} {f : File} (hf : d[n]? = some f)
    (hsaved : f.pending = []) (k : ℕ) : d.modify n (·.keep k) = d := by
  refine ExtTreeMap.ext_getElem? fun n' ↦ ?_
  by_cases hn : n' = n
  · rw [hn, ExtTreeMap.getElem?_modify_self, hf, Option.map_some, File.keep, hsaved,
      List.take_nil, ← hsaved]
  · rw [Disk.getElem?_modify_ne hn]

theorem agreeBut_insertIfNew {J : Name → Prop} {d e : Disk} (h : Disk.AgreeBut J d e)
    (n : Name) (f : File) : Disk.AgreeBut J (d.insertIfNew n f) (e.insertIfNew n f) :=
  fun n' hn' ↦ by
  by_cases hn : n' = n
  · rw [hn, Disk.getElem?_insertIfNew_self, Disk.getElem?_insertIfNew_self, h n (hn ▸ hn')]
  · rw [Disk.getElem?_insertIfNew_ne hn, Disk.getElem?_insertIfNew_ne hn, h n' hn']

/-! ## What is true whatever goes wrong -/

/-- `I` holds at every call. -/
def holding (I : Disk → Prop) : Watch (Call Mark) DB Disk := ⟨fun _ ↦ True, fun ev ↦ I ev.disk⟩

section Steps

variable {F : Faults Mark} {I : Disk → Prop} {Q : Unit → DB → Disk → Prop} {db db' : DB} {d : Disk}
  {opts : Options} {ts : List (ℕ × SSTable)} {segs : List (ℕ × Name)} {names : List Name}

/-- A read changes nothing, whatever is read. -/
theorem wp_readAny {n : Name} {Q : Option Bytes → DB → Disk → Prop} (hI : I d) (h : ∀ r, Q r db d) :
    (readFile n : Io DB (Option Bytes)).wp (device F) (holding I) Q (fun _ _ ↦ I) db d := by
  refine wp_issue.2 ⟨hI, fun _ r d' hs ↦ ?_⟩
  rw [hs.1]
  exact h r

/-- **Steps 1 and 2.** -/
theorem wp_sweep_any (hI : ∀ e, Disk.AgreeBut (isLeftover · = true) d e → I e)
    (hQ : ∀ e, Disk.AgreeBut (isLeftover · = true) d e → Q () db e) :
    removeLeftovers.wp (device F) (holding I) Q (fun _ _ ↦ I) db d := by
  have hsilent : removeLeftovers.Silent (Removes (isLeftover · = true)) := by
    refine Prog.Silent.bind (silent_call ?_) fun _ ↦
        Prog.Silent.bind (silent_issue trivial) fun names ↦
      silent_removeSome fun n hn ↦ ?_
    · simp [Removes, isLeftover]
    · simp [isLeftover, hn]
  exact wp_silent hsilent (fun _ _ _ _ hc he hs ↦ he.trans (hc.agreeBut hs))
    (fun _ _ _ ↦ hI _) (.refl _ d) (fun _ ↦ hQ) fun _ ↦ hI

/-- A table is loaded, or it is not. -/
theorem wp_loadTable_any {id : ℕ} {t : SSTable} (h : db.Alike db') (hI : I d)
    (hQ : ∀ m, m.Alike (addTable (id, t) db') → Q () m d) :
    (loadTable id t.path).wp (device F) (holding I) Q (fun _ _ ↦ I) db d := by
  rw [loadTable, wp_bind, wp_modify, wp_bind, SSTable.open, wp_bind]
  refine wp_readAny hI fun r ↦ ?_
  cases r with
  | none => exact hI
  | some bs =>
      exact (wp_ofExcept _).2
        ⟨fun t' ht' ↦ hQ _ (h.addTable (SSTable.loadMeta_eq_ok ht').1), fun _ _ ↦ hI⟩

/-- The loop over the names in the MANIFEST. -/
theorem wp_loadNames_any (hts : collect (listedTable d) names = some ts)
    (h : db.Alike db') (hI : I d)
    (hQ : ∀ m, m.Alike (ts.foldl (fun db t ↦ addTable t db) db') → Q () m d) :
    (forM names fun name ↦ do
      let id ← Prog.ofExcept (listedId name)
      loadTable id name : Io DB PUnit).wp (device F) (holding I) Q (fun _ _ ↦ I) db d := by
  induction names generalizing db db' ts with
  | nil =>
    obtain rfl := Option.some.inj hts
    exact hQ db h
  | cons p names ih =>
    rw [collect_cons] at hts
    obtain ⟨o, ho, hts⟩ := Option.bind_eq_some_iff.1 hts
    obtain ⟨ts', hts', rfl⟩ := Option.map_eq_some_iff.1 hts
    obtain ⟨id, t, rfl, hid, hopen⟩ := listedTable_eq_some ho
    obtain rfl := openOf_path hopen
    rw [List.forM_cons, wp_bind, wp_bind, hid, wp_ofExcept_ok]
    exact wp_loadTable_any h hI fun m hm ↦ ih hts' hm hQ

/-- **Step 3** with a MANIFEST that is not cut short. -/
theorem wp_loadTables_any {f : File} {data : ManifestData} (hdest : d[Manifest.dest]? = some f)
    (hdata : Manifest.parse f.content = .ok data)
    (hts : collect (listedTable d) data.liveSstables = some ts)
    (hshort : ¬F.short (.readFile Manifest.dest)) (hI : I d)
    (hQ : ∀ m, m.Alike (foundDb opts data.generation ts) → Q () m d) :
    loadTables.wp (device F) (holding I) Q (fun _ _ ↦ I) { opts } d := by
  have hcontains : d.contains Manifest.dest = true := contains_iff.2 ⟨f, hdest⟩
  rw [loadTables, wp_bind, Manifest.exists]
  refine wp_fileExists.2 ⟨hI, fun _ ↦ ?_⟩
  rw [hcontains, wp_ite, if_pos rfl, loadListed, wp_bind, Manifest.read, wp_bind]
  refine wp_readFile hshort hI (fun _ _ ↦ hI) fun _ ↦ ?_
  rw [hdest, Option.map_some]
  simp only [hdata]
  rw [wp_ofExcept_ok, wp_bind, wp_modify]
  refine wp_loadNames_any hts (.refl _) hI fun m hm ↦ hQ m ?_
  rw [foldl_addTable] at hm
  exact ⟨hm.paths, hm.next.trans (Nat.zero_max _), hm.wal⟩

/-- **Step 4.** -/
theorem wp_removeOrphans_any (hdb : db.sstables.map (·.path) = ts.map (·.2.path))
    (hI : ∀ e, Disk.AgreeBut (isOrphan ts · = true) d e → I e)
    (hQ : ∀ e, Disk.AgreeBut (isOrphan ts · = true) d e → Q () db e) :
    removeOrphans.wp (device F) (holding I) Q (fun _ _ ↦ I) db d := by
  rw [removeOrphans, wp_bind, Crash.wp_get, hdb]
  have hsilent : (do
      let names ← listDir
      forM names fun p ↦
        if extension p = ascii ".sst" ∧ p ∉ ts.map (·.2.path) then call (.remove p)
        else pure () : Io DB PUnit).Silent (Removes (isOrphan ts · = true)) :=
    (silent_issue trivial).bind fun names ↦ silent_removeSome fun n ↦ isOrphan_iff.2
  exact wp_silent hsilent (fun _ _ _ _ hc he hs ↦ he.trans (hc.agreeBut hs))
    (fun _ _ _ ↦ hI _) (.refl _ d) (fun _ ↦ hQ) fun _ ↦ hI

/-- A segment is replayed, as far as it can be read. -/
theorem wp_replaySegment_any {s : ℕ × Name} {f : File} (hs : d[s.2]? = some f)
    (hsaved : f.pending = []) (h : db.Alike db') (hI : I d)
    (hQ : ∀ m, m.Alike { db' with currentWalId := max db'.currentWalId s.1 } → Q () m d) :
    (replaySegment s).wp (device F) (holding I) Q (fun _ _ ↦ I) db d := by
  have hclose : ∀ m : DB, m.Alike { db' with currentWalId := max db'.currentWalId s.1 } →
      (WAL.close s.2).wp (device F) (holding I) Q (fun _ _ ↦ I) m d := fun m hm ↦ by
    rw [WAL.close, wp_bind, wp_call]
    refine wp_issue.2 ⟨hI, fun _ r d' hflush ↦ ?_⟩
    obtain rfl : d' = d := by
      rcases hflush with ⟨-, hd'⟩ | ⟨-, -, k, hd'⟩
      · exact hd'
      · exact hd'.trans (modify_keep hs hsaved k)
    rw [wp_call]
    refine wp_close_short hI (hQ m hm) fun k _ ↦ ?_
    rw [modify_keep hs hsaved k]
    exact hQ m hm
  have hcounted : DB.Alike { db with currentWalId := max db.currentWalId s.1 }
      { db' with currentWalId := max db'.currentWalId s.1 } := ⟨h.paths, h.next, by simp [h.wal]⟩
  rw [replaySegment, wp_bind, wp_modify, wp_bind]
  refine WAL.wp_open hI (fun _ ↦ hI) ?_
  rw [Disk.insertIfNew_eq_self hs, wp_bind, WAL.replay, wp_bind]
  refine wp_readAny hI fun r ↦ ?_
  cases r with
  | none => exact hclose _ hcounted
  | some bs =>
    refine wp_forM (fun _ m d' ↦ d' = d ∧
        m.Alike { db' with currentWalId := max db'.currentWalId s.1 }) _
      ⟨rfl, hcounted⟩ ?_ ?_
    · rintro r _ m _ - ⟨rfl, hm⟩
      rw [replayRecord, wp_bind, wp_call, wp_mark]
      exact ⟨hI, fun _ ↦ ⟨rfl, hm.paths, hm.next, hm.wal⟩⟩
    · rintro m _ ⟨rfl, hm⟩
      exact hclose m hm

/-- The loop over the segments. -/
theorem wp_forM_segments_any (hsegs : ∀ s ∈ segs, ∃ f, d[s.2]? = some f)
    (hsaved : ∀ s ∈ segs, ∀ f, d[s.2]? = some f → f.pending = []) (h : db.Alike db') (hI : I d)
    (hQ : ∀ m,
      m.Alike { db' with currentWalId := segs.foldl (fun n s ↦ max n s.1) db'.currentWalId } →
        Q () m d) :
    (forM segs replaySegment : Io DB PUnit).wp (device F) (holding I) Q (fun _ _ ↦ I) db d := by
  induction segs generalizing db db' with
  | nil => exact hQ db h
  | cons s segs ih =>
    rw [List.forall_mem_cons] at hsegs hsaved
    obtain ⟨f, hf⟩ := hsegs.1
    rw [List.forM_cons, wp_bind]
    exact wp_replaySegment_any hf (hsaved.1 f hf) h hI fun m hm ↦ ih hsegs.2 hsaved.2 hm hQ

/-- **Step 5**, if nothing is waiting to be synced. -/
theorem wp_replaySegments_any (hsegs : segmentsOf d = some segs)
    (hsaved : ∀ s ∈ segs, ∀ f, d[s.2]? = some f → f.pending = []) (h : db.Alike db') (hI : I d)
    (hQ : ∀ m,
      m.Alike { db' with currentWalId := segs.foldl (fun n s ↦ max n s.1) db'.currentWalId } →
        Q () m d) :
    replaySegments.wp (device F) (holding I) Q (fun _ _ ↦ I) db d := by
  obtain ⟨segs₀, hsegs₀, rfl⟩ := Option.map_eq_some_iff.1 hsegs
  rw [replaySegments, wp_bind]
  refine wp_listDir.2 ⟨hI, fun _ names hnames ↦ ?_⟩
  obtain ⟨segs, hnamed, hp⟩ := collect_perm hnames.symm hsegs₀
  have hread : (walSegments names).toOption = some segs := (toOption_walSegments names).trans hnamed
  have hthere : ∀ s ∈ segs₀.mergeSort segLe, ∃ f, d[s.2]? = some f := fun s hs ↦ by
    rw [← mem_of_perm_keys (.refl _)]
    exact (mem_of_collect_segments hsegs₀ ((List.mergeSort_perm segs₀ segLe).mem_iff.1 hs)).1
  rw [wp_bind]
  refine (wp_ofExcept _).2 ⟨fun segs' hsegs' ↦ ?_, fun _ _ ↦ hI⟩
  rw [hsegs'] at hread
  rw [Option.some.inj hread, mergeSort_segLe_congr hp]
  exact wp_forM_segments_any hthere hsaved h hI hQ

/-- **Step 6.** -/
theorem wp_openActive_any (h : db.Alike db') (hI : I d)
    (hQ : ∀ m, Q () m (d.insertIfNew (walSegPath (max db'.currentWalId db'.nextSstId)) {})) :
    openActive.wp (device F) (holding I) Q (fun _ _ ↦ I) db d := by
  rw [openActive, wp_bind, wp_modify, wp_bind, Crash.wp_get, wp_bind]
  refine WAL.wp_open hI (fun _ ↦ hI) ?_
  rw [h.wal, h.next, wp_modify]
  exact hQ _

end Steps

/-! ## Whole runs -/

/-- Recovery has no use for the file. -/
def Doomed (ts : List (ℕ × SSTable)) (n : Name) : Prop := isLeftover n = true ∨ isOrphan ts n = true

/-- Recovery makes `db` and `d'` of the directory, also when the power has gone. -/
def Resumes (opts : Options) (db : DB) (d' e : Disk) : Prop :=
  ∀ e', (e' = e ∨ e.Crashed e') → recoverOf opts e' = some (db, d')

section Whole

variable {F : Faults Mark} {db : DB} {d d' e e' : Disk} {opts : Options} {gen : ℕ}
  {ts : List (ℕ × SSTable)}

theorem not_doomed {n : Name} : ¬Doomed ts n ↔ isLeftover n = false ∧ isOrphan ts n = false := by
  rw [Doomed, not_or, Bool.not_eq_true, Bool.not_eq_true]

theorem agreeBut_of_crashed (hd : d.Settled) (h : Disk.AgreeBut (Doomed ts) d e)
    (he' : e' = e ∨ e.Crashed e') : Disk.AgreeBut (Doomed ts) d e' := by
  rcases he' with rfl | hc
  · exact h
  · exact agreeBut_crashed hd h hc

/-- What is kept of a directory with a MANIFEST. -/
theorem getElem?_listedDisk_kept (hdest : d.contains Manifest.dest = true) {n : Name}
    (hn : isLeftover n = false) : (listedDisk ts (swept d))[n]? = d[n]? := by
  have hcontains : (swept d).contains Manifest.dest = true :=
    (contains_swept isLeftover_dest).trans hdest
  rw [listedDisk, if_pos hcontains, getElem?_swept hn]

/-- **The tables that are found** in such a directory are those that the MANIFEST lists. -/
theorem exists_manifest (hdest : d.contains Manifest.dest = true)
    (hfound : foundTables (swept d) = some (gen, ts)) :
    ∃ f data, d[Manifest.dest]? = some f ∧ Manifest.parse f.content = .ok data ∧
      data.generation = gen ∧ collect (listedTable (swept d)) data.liveSstables = some ts := by
  obtain ⟨f, hf⟩ := contains_iff.1 hdest
  simp only [foundTables, getElem?_swept isLeftover_dest, hf] at hfound
  obtain ⟨data, hdata, hfound⟩ := Option.bind_eq_some_iff.1 hfound
  obtain ⟨ts', hts, hfound⟩ := Option.bind_eq_some_iff.1 hfound
  obtain ⟨rfl, rfl⟩ := Prod.mk.inj (Option.some.inj hfound)
  exact ⟨f, data, hf, eq_ok_of_toOption hdata, rfl, hts⟩

/-- A table that is listed is there. -/
theorem exists_listed {p : Name} {o : Option (ℕ × SSTable)} (ho : listedTable d p = some o) :
    ∃ f, d[p]? = some f := by
  obtain ⟨_, _, -, -, hopen⟩ := listedTable_eq_some ho
  obtain ⟨f, hf, -⟩ := Option.bind_eq_some_iff.1 hopen
  exact ⟨f, hf⟩

theorem agreeBut_cleaned (hdest : d.contains Manifest.dest = true) :
    Disk.AgreeBut (Doomed ts) d (cleaned ts d) := by
  intro n hn
  obtain ⟨hl, ho⟩ := not_doomed.1 hn
  rw [getElem?_cleaned ho, getElem?_listedDisk_kept hdest hl]

/-- **Files that recovery has no use for** do not matter. -/
theorem resumes_of_agreeBut (hd : d.Settled) (hdest : d.contains Manifest.dest = true)
    (hfound : foundTables (swept d) = some (gen, ts)) (hrec : recoverOf opts d = some (db, d'))
    (h : Disk.AgreeBut (Doomed ts) d e) : Resumes opts db d' e := by
  intro e' he'
  rw [recoverOf_congr hfound (fun hnone ↦ ?_) fun n hl ho ↦ ?_, hrec]
  · obtain ⟨f, hf⟩ := contains_iff.1 hdest
    exact absurd (hnone.symm.trans hf) (Option.some_ne_none f).symm
  · rw [agreeBut_of_crashed hd h he' n (not_doomed.2 ⟨hl, ho⟩), getElem?_listedDisk_kept hdest hl]

/-- Nor do they once the active segment is there. -/
theorem resumes_of_opened (hd : d.Settled) (hdest : d.contains Manifest.dest = true)
    (hfound : foundTables (swept d) = some (gen, ts)) (hrec : recoverOf opts d = some (db, d'))
    (h : Disk.AgreeBut (Doomed ts) (d.insertIfNew (walSegPath db.currentWalId) {}) e) :
    Resumes opts db d' e := by
  intro e' he'
  have hagree := agreeBut_of_crashed (settled_opened hd _) h he'
  have hagain := recoverOf_recovered (listable_of_manifest hdest) hrec
  obtain ⟨gen', ts', segs, hfound', -, -, rfl⟩ := recoverOf_eq_some_iff.1 hrec
  obtain ⟨rfl, rfl⟩ := Prod.mk.inj (Option.some.inj (hfound.symm.trans hfound'))
  have hcleaned : Disk.AgreeBut (Doomed ts) d (cleaned ts d) := agreeBut_cleaned hdest
  have hkept := agreeBut_insertIfNew hcleaned (walSegPath db.currentWalId) {}
  have hdest' : ((cleaned ts d).insertIfNew (walSegPath db.currentWalId) {}).contains
      Manifest.dest = true := by
    rwa [contains_iff, hkept _ (not_doomed.2 ⟨isLeftover_dest, isOrphan_dest ts⟩),
      Disk.getElem?_insertIfNew_ne (walSegPath_ne_dest _).symm, ← contains_iff]
  have hnone : ∀ {d : Disk}, d.contains Manifest.dest = true → d[Manifest.dest]? = none →
      ∀ t ∈ ts, 10 ∉ t.2.path :=
    fun hdest hnone ↦ by
      obtain ⟨f, hf⟩ := contains_iff.1 hdest
      exact absurd (hnone.symm.trans hf) (Option.some_ne_none f).symm
  rw [recoverOf_congr (d := (cleaned ts d).insertIfNew (walSegPath db.currentWalId) {})
    (foundTables_congr hfound (hnone hdest) fun n f hl ho hf ↦ ?_) (hnone hdest')
    fun n hl ho ↦ ?_, hagain]
  · rw [getElem?_listedDisk_kept hdest hl] at hf
    rw [hkept n (not_doomed.2 ⟨hl, ho⟩)]
    by_cases hn : n = walSegPath db.currentWalId
    · rw [hn, Disk.getElem?_insertIfNew_self, ← hn, hf, Option.getD_some]
    · rw [Disk.getElem?_insertIfNew_ne hn, hf]
  · rw [hagree n (not_doomed.2 ⟨hl, ho⟩), getElem?_listedDisk_kept hdest' hl,
      hkept n (not_doomed.2 ⟨hl, ho⟩)]

/-- **Whatever goes wrong**, a MANIFEST that comes up short aside, recovery leaves a directory that
can be recovered as before. -/
theorem wp_recover_any (hd : d.Settled) (hdest : d.contains Manifest.dest = true)
    (hrec : recoverOf opts d = some (db, d')) (hshort : ¬F.short (.readFile Manifest.dest)) :
    recover.wp (device F) (holding (Resumes opts db d')) (fun _ _ ↦ Resumes opts db d')
      (fun _ _ ↦ Resumes opts db d') { opts } d := by
  obtain ⟨gen, ts, segs, hfound, hsegs, rfl, -⟩ := recoverOf_eq_some_iff.1 hrec
  have hresumes : ∀ {e}, Disk.AgreeBut (Doomed ts) d e →
    Resumes opts _ d' e := resumes_of_agreeBut hd hdest hfound hrec
  have hswept : ∀ {e}, Disk.AgreeBut (isLeftover · = true) d e → Disk.AgreeBut (Doomed ts) d e :=
    fun he n hn ↦ he n fun hl ↦ hn (.inl hl)
  rw [recover, wp_bind]
  refine wp_sweep_any (fun _ he ↦ hresumes (hswept he)) fun e₁ he₁ ↦ ?_
  -- the MANIFEST and the tables it lists are still there
  obtain ⟨f, data, hf, hdata, rfl, hts⟩ := exists_manifest hdest hfound
  have hsame : ∀ p ∈ data.liveSstables, listedTable e₁ p = listedTable (swept d) p := fun p hp ↦ by
    obtain ⟨o, ho⟩ := Option.isSome_iff_exists.1 ((collect_eq_some.1 hts).1 p hp)
    obtain ⟨g, hg⟩ := exists_listed ho
    have hl : isLeftover p = false := by
      rw [← Bool.not_eq_true]
      intro hl
      exact absurd ((getElem?_swept_eq_none hl).symm.trans hg) (Option.some_ne_none g).symm
    rw [listedTable, listedTable, openOf, openOf, he₁ p (by simp [hl]), getElem?_swept hl]
  rw [wp_bind]
  refine wp_loadTables_any ((he₁ _ (by simp [isLeftover_dest])).trans hf) hdata
    ((collect_congr hsame).trans hts) hshort (hresumes (hswept he₁)) fun m hm ↦ ?_
  rw [wp_bind]
  have horphan : ∀ {e}, Disk.AgreeBut (isOrphan ts · = true) e₁ e → Disk.AgreeBut (Doomed ts) d e :=
    fun he ↦ (hswept he₁).trans fun n hn ↦ he n fun ho ↦ hn (.inr ho)
  refine wp_removeOrphans_any (hm.paths.trans (List.map_map ..)) (fun _ he ↦ hresumes (horphan he))
    fun e₂ he₂ ↦ ?_
  have hlog : ∀ n, extension n = ascii ".log" → ¬Doomed ts n := fun n hn ↦ not_doomed.2
    ⟨isLeftover_of_extension (by rw [hn]; decide) (by rw [hn]; decide),
    isOrphan_of_extension (by rw [hn]; decide)⟩
  have hsegs₂ : segmentsOf e₂ = some segs := by
    rw [← hsegs]
    refine segmentsOf_congr fun n hn ↦ ?_
    rw [horphan he₂ n (hlog n hn), agreeBut_cleaned hdest n (hlog n hn)]
  rw [wp_bind]
  refine wp_replaySegments_any hsegs₂ (fun s hs x hx ↦ ?_) hm (hresumes (horphan he₂)) fun m hm ↦ ?_
  · rw [horphan he₂ _ (hlog _ (mem_segmentsOf hsegs₂ hs).2)] at hx
    exact hd _ x hx
  refine wp_openActive_any hm (hresumes (horphan he₂)) fun _ ↦ ?_
  exact resumes_of_opened hd hdest hfound hrec (agreeBut_insertIfNew (horphan he₂) _ _)

/-! ## A MANIFEST that comes up short -/

/-- The directory that recovery leaves if it finds no table in the MANIFEST. -/
def bared (d : Disk) (w : ℕ) : Disk :=
  (without (isOrphan []) (swept d)).insertIfNew (walSegPath w) {}

/-- **If the MANIFEST comes up short**, recovery takes what it has read for all of it. -/
theorem exists_exec_cutShort (hrec : recoverOf opts d = some (db, d'))
    (hdest : d.contains Manifest.dest = true) (hs : F.short (.readFile Manifest.dest)) :
    ∃ tr m w, Exec (device F) recover { opts } d tr (.ok () m (bared d w)) := by
  obtain ⟨gen, ts, segs, hfound, hsegs, -, -⟩ := recoverOf_eq_some_iff.1 hrec
  have hcontains : (swept d).contains Manifest.dest = true :=
    (contains_swept isLeftover_dest).trans hdest
  obtain ⟨f, hf⟩ := contains_iff.1 hcontains
  obtain ⟨tr₁, _, _, _, hsweep, -, rfl, rfl⟩ := Exec.exists_ok (device_total .none)
    (fun _ ↦ trivial)
    (wp_sweep (W := .blind) (Q := fun _ m e ↦ m = { opts } ∧ e = swept d)
      (fun _ _ _ _ ↦ trivial) ⟨rfl, rfl⟩)
  have hexists : Exec (device F) Manifest.exists ({ opts } : DB)
      (swept d) _ (.ok true { opts } (swept d)) :=
    .issue ⟨hcontains.symm, rfl⟩
  have hread : Exec (device F) (readFile Manifest.dest) ({ opts } : DB) (swept d) _
      (.ok (some []) { opts } (swept d)) :=
      .issue ⟨rfl, .inr (.inr ⟨hs, f, [], hf, List.nil_prefix, rfl⟩)⟩
  have hempty : Exec (device F) (Prog.ofExcept (Manifest.parse []) : Io DB ManifestData)
      { opts } (swept d) [] (.ok {} { opts } (swept d)) := by
    rw [Manifest.parse, Manifest.lines_nil]
    exact .pure
  have hdata : Exec (device F) Manifest.read ({ opts } : DB)
      (swept d) _ (.ok {} { opts } (swept d)) :=
    hread.bind hempty
  have hlisted : Exec (device F) loadListed ({ opts } : DB)
      (swept d) _ (.ok () { opts } (swept d)) :=
    hdata.bind (.get (.set .pure))
  -- the segments are the same as ever
  have hsame : segmentsOf (without (isOrphan []) (swept d)) = some segs := by
    rw [← hsegs]
    refine segmentsOf_congr fun n hn ↦ ?_
    have horphan : ∀ ts, isOrphan ts n = false :=
      fun ts ↦ isOrphan_of_extension (by rw [hn]; decide)
    rw [getElem?_without, horphan, getElem?_cleaned (horphan ts), listedDisk, if_pos hcontains]
    rfl
  have hwp : (do removeOrphans; replaySegments; openActive : Io DB Unit).wp reliable .blind
      (fun _ _ e ↦ ∃ w, e = bared d w) (fun _ _ _ ↦ False) { opts } (swept d) := by
    rw [wp_bind]
    refine wp_dropOrphans List.map_nil.symm (fun _ _ _ _ ↦ trivial) ?_
    rw [wp_bind]
    refine wp_replayAll (fun _ _ ↦ trivial) (fun hnone ↦ ?_) fun segs _ ↦ ?_
    · rw [hsame] at hnone
      cases hnone
    rw [openActive, wp_bind, wp_modify, wp_bind, Crash.wp_get, wp_bind]
    refine WAL.wp_open trivial (fun hf ↦ hf.elim) ?_
    exact ⟨_, rfl⟩
  obtain ⟨tr₂, _, m, _, hrest, -, w, rfl⟩ :=
    Exec.exists_ok (device_total .none) (fun _ ↦ trivial) hwp
  exact ⟨_, m, w, (hsweep.mono fun _ _ _ _ ↦ step_of_none F).bind ((hexists.bind hlisted).bind
    (hrest.mono fun _ _ _ _ ↦ step_of_none F))⟩

/-- Nobody can open what it leaves, if a table was listed. -/
theorem recoverOf_bared (hrec : recoverOf opts d = some (db, d'))
    (hdest : d.contains Manifest.dest = true)
    {t : SSTable} (ht : t ∈ db.sstables) (hext : extension t.path = ascii ".sst")
    (opts' : Options) (w : ℕ) : recoverOf opts' (bared d w) = none := by
  obtain ⟨gen, ts, segs, hfound, -, rfl, -⟩ := recoverOf_eq_some_iff.1 hrec
  -- the MANIFEST still lists it
  obtain ⟨f, data, hf, hdata, -, hts⟩ := exists_manifest hdest hfound
  have hother : ∀ n, extension n ≠ ascii ".log" →
      (bared d w)[n]? = (without (isOrphan []) (swept d))[n]? := by
    intro n hn
    refine Disk.getElem?_insertIfNew_ne ?_
    rintro rfl
    exact hn (extension_walSegPath w)
  have hgone : (bared d w)[t.path]? = none := by
    rw [hother _ (by rw [hext]; decide), getElem?_without,
      if_pos (isOrphan_iff.2 ⟨hext, List.not_mem_nil⟩)]
  have hkept : (bared d w)[Manifest.dest]? = some f := by
    rw [hother _ (by decide), getElem?_without, if_neg (by simp [isOrphan_dest]),
      getElem?_swept isLeftover_dest, hf]
  obtain ⟨s, hs, rfl⟩ := List.mem_map.1 ht
  obtain ⟨p, hp, hlisted⟩ := mem_of_collect hts hs
  obtain ⟨id, t, heq, -, hopen⟩ := listedTable_eq_some hlisted
  obtain rfl := Option.some.inj heq
  obtain rfl := openOf_path hopen
  have hfails : collect (listedTable (swept (bared d w))) data.liveSstables = none := by
    refine if_neg fun hall ↦ ?_
    obtain ⟨o, ho⟩ := Option.isSome_iff_exists.1 (hall t.path hp)
    obtain ⟨x, hx⟩ := exists_listed ho
    rw [getElem?_swept (isLeftover_of_extension (by rw [hext]; decide) (by rw [hext]; decide)),
      hgone] at hx
    cases hx
  have hnone : foundTables (swept (bared d w)) = none := by
    simp [foundTables, getElem?_swept isLeftover_dest, hkept, hdata, hfails, Except.toOption]
  rw [recoverOf, hnone]
  rfl

/-- **What becomes of the store when anything may go wrong**, in a directory of which recovery makes
`d'` and `db`. -/
structure BearsErrors (F : Faults Mark) (opts : Options) (d : Disk) (db : DB)
    (d' : Disk) : Prop where
  /-- If the MANIFEST is read to its end or not at all, then recovery makes the same of whatever a
  run leaves, also when the power has gone. -/
  same : ¬F.short (.readFile Manifest.dest) → ∀ tr o, Exec (device F) recover { opts } d tr o →
    ∀ e, (e = o.device ∨ o.device.Crashed e) →
      recover.Returns reliable { opts } e fun _ db₁ d₁ ↦ db₁ = db ∧ d₁ = d'
  /-- Otherwise a run may return from which no recovery comes back, if there is a table. -/
  lost : F.short (.readFile Manifest.dest) → (∃ t ∈ db.sstables, extension t.path = ascii ".sst") →
    ∃ tr m e, Exec (device F) recover { opts } d tr (.ok () m e) ∧
      ∀ opts' tr' m' e', ¬Exec reliable recover { opts := opts' } e tr' (.ok () m' e')

/-- **Recovery bears whatever goes wrong**, but a MANIFEST that comes up short. -/
theorem bearsErrors {tr : List (Event (Call Mark) DB Disk)} (F : Faults Mark)
    (hd : d.Settled) (hdest : d.contains Manifest.dest = true)
    (hx : Exec reliable recover { opts } d tr (.ok () db d')) : BearsErrors F opts d db d' := by
  have hrec := exec_recover hx
  refine ⟨fun hshort tr₁ o hx₁ e he ↦ ?_, fun hs ⟨t, ht, hext⟩ ↦ ?_⟩
  · have ho := (hx₁.of_wp (fun _ _ ↦ trivial) (wp_recover_any hd hdest hrec hshort)).2
    have hresumes : Resumes opts db d' o.device := by
      cases o with
      | ok _ _ _ => exact ho
      | threw _ _ _ => exact ho
      | cut _ =>
        obtain ⟨_, _, h⟩ := ho
        exact h
    exact returns_recover (hresumes e he) ⟨rfl, rfl⟩
  · obtain ⟨tr₁, m, w, hx₁⟩ := exists_exec_cutShort hrec hdest hs
    refine ⟨tr₁, m, _, hx₁, fun opts' tr' m' e' hx' ↦ ?_⟩
    have hsome := exec_recover hx'
    rw [recoverOf_bared hrec hdest ht hext] at hsome
    cases hsome

end Whole

/-! ## A store that is opened again -/

/-- Every call may fail, and those that can come up short may, that of the MANIFEST only if
`manifest` holds. -/
def allFails (manifest : Prop) : Faults Mark :=
  ⟨fun _ ↦ True, fun c ↦ c = .readFile Manifest.dest → manifest⟩

theorem bearsErrors_stale : ∃ d db d', (∃ t ∈ db.sstables, extension t.path = ascii ".sst") ∧
    BearsErrors (allFails False) {} d db d' ∧ BearsErrors (allFails True) {} d db d' := by
  obtain ⟨hist, d, -, -, ho⟩ := Snapshot.reaches_stale (fun _ ↦ True) (P := fun _ _ _ ↦ True)
    trivial trivial (fun _ _ ↦ trivial) fun _ _ _ _ _ ↦ trivial
  obtain ⟨hd, hs⟩ := Snapshot.holds_crash ho
  have hsettled := d.crashed_sync.settled
  obtain ⟨tr, d', hx, -, -⟩ := exists_recover (P := fun _ _ _ ↦ True) hd hs {}
  have hdest : (d.map fun _ f ↦ f.sync).contains Manifest.dest = true := by
    rw [contains_iff, hd.manifest]
    exact ⟨_, rfl⟩
  exact ⟨_, _, d', ⟨_, List.mem_cons_self, extension_sstPath _⟩,
    bearsErrors (allFails False) hsettled hdest hx, bearsErrors (allFails True) hsettled hdest hx⟩

end DB

end KeyValStore
