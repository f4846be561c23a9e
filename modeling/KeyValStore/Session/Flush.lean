import KeyValStore.Manifest.Replace
import KeyValStore.Session.Tables
import KeyValStore.Wal.Log

/-!
# What a flush does

`wp_flushMemtableLocked` follows `flush_memtable_locked` step by step, under faults that are
answered by exceptions.  `FlushStage` lists the directories it goes through, `FlushEvent` the calls
it makes in them, `FlushThrew` the states an exception can leave, and `flushedDb` and `flushedDisk`
are what is there when the flush returns.
-/

set_option autoImplicit false

namespace KeyValStore

open Crash Std

namespace DB

/-! ## The stages -/

/-- The object once the next table number has been taken. -/
def taken (db : DB) : DB := { db with nextSstId := u64 (db.nextSstId + 1) }

/-- The building of a table for the next number. -/
def buildEvent (db : DB) (entries : Entries) (d : Disk) : Event (Call Mark) DB Disk :=
  ⟨.mark (.build (sstPath db.nextSstId) entries), taken db, d⟩

/-- The directory once a segment has been sealed. -/
def sealDisk (seg : Name) (d : Disk) : Disk :=
  match d[seg]? with
  | some f => (d.erase seg).insert (donePath seg) f
  | none => d

section Stages

variable (sz : Sizing) (db : DB) (d : Disk)

/-- The directory once the table has been built. -/
def flushBuilt : Disk :=
  d.insert (sstPath db.nextSstId) (.saved (SSTable.image sz db.memtable.data))

/-- The MANIFEST a flush writes. -/
def flushManifest : ManifestData :=
  ⟨u64 (db.manifestGen + 1), sstPath db.nextSstId :: db.sstables.map (·.path)⟩

/-- The directory once the MANIFEST has been replaced. -/
def flushCommitted : Disk := Manifest.commit (Manifest.text (flushManifest db)) (flushBuilt sz db d)

/-- The directory once the active segment has been sealed. -/
def flushSealed : Disk := sealDisk (walSegPath db.currentWalId) (flushCommitted sz db d)

/-- The directory once the next segment has been opened. -/
def flushOpened : Disk :=
  (flushSealed sz db d).insertIfNew (walSegPath (u64 (db.nextSstId + 1))) {}

/-- **The directory after a flush.** -/
def flushedDisk : Disk := (flushOpened sz db d).erase (donePath (walSegPath db.currentWalId))

/-- The object once the new table is in the list and the generation has been counted. -/
def flushListed : DB :=
  { taken db with
    sstables := .loaded sz (sstPath db.nextSstId) db.memtable.data :: db.sstables
    manifestGen := u64 (db.manifestGen + 1) }

/-- **The object after a flush.** -/
def flushedDb : DB :=
  { flushListed sz db with
    wal := some (walSegPath (u64 (db.nextSstId + 1)))
    currentWalId := u64 (db.nextSstId + 1)
    memtable := {} }

end Stages

/-- **The directories a flush goes through.** -/
inductive FlushStage (F : Faults Mark) (sz : Sizing) (db : DB) (d : Disk) : Disk → Prop
  | building {d' : Disk} (h : Disk.AgreeOff (sstPath db.nextSstId) d d') : FlushStage F sz db d d'
  | replacing {d' : Disk} (h : Manifest.Replacing F (flushBuilt sz db d) d') :
      FlushStage F sz db d d'
  | committed : FlushStage F sz db d (flushCommitted sz db d)
  | sealed : FlushStage F sz db d (flushSealed sz db d)
  | opened : FlushStage F sz db d (flushOpened sz db d)
  | done : FlushStage F sz db d (flushedDisk sz db d)

/-- **The calls a flush makes** once it has announced the building of its table. -/
inductive FlushEvent (F : Faults Mark) (sz : Sizing) (db : DB) (d : Disk) :
    Event (Call Mark) DB Disk → Prop
  | plain {c : Call Mark} {m : DB} {d' : Disk} (hc : c.isPlain = true)
      (h : FlushStage F sz db d d') : FlushEvent F sz db d ⟨c, m, d'⟩
  | commit {d' : Disk} (h : Manifest.Replacing F (flushBuilt sz db d) d')
      (htmp : d'[Manifest.tmp]? = some (.saved (Manifest.text (flushManifest db)))) :
      FlushEvent F sz db d ⟨.rename Manifest.tmp Manifest.dest, flushListed sz db, d'⟩
  | discard {d' : Disk} (hf : F.refuse (.rename Manifest.tmp Manifest.dest))
      (h : Manifest.Replacing F (flushBuilt sz db d) d') :
      FlushEvent F sz db d ⟨.remove Manifest.dest, flushListed sz db, d'⟩
  | sealing : FlushEvent F sz db d
      ⟨.rename (walSegPath db.currentWalId) (donePath (walSegPath db.currentWalId)),
        { flushListed sz db with wal := none }, flushCommitted sz db d⟩
  | flushed : FlushEvent F sz db d ⟨.mark .flushed, flushedDb sz db, flushedDisk sz db d⟩

/-- Every call is made in one of the directories the flush goes through. -/
theorem FlushEvent.stage {F : Faults Mark} {sz : Sizing} {db : DB} {d : Disk}
    {ev : Event (Call Mark) DB Disk} (h : FlushEvent F sz db d ev) :
    FlushStage F sz db d ev.disk := by
  cases h with
  | plain hc h => exact h
  | commit h => exact .replacing h
  | discard _ h => exact .replacing h
  | sealing => exact .committed
  | flushed => exact .done

/-- **The states an exception in a flush can leave.** -/
inductive FlushThrew (F : Faults Mark) (sz : Sizing) (db : DB) (d : Disk) :
    Error → DB → Disk → Prop
  | build (h : F.refuse (.openTrunc (sstPath db.nextSstId))) :
      FlushThrew F sz db d (.sstBuild (sstPath db.nextSstId)) (taken db) d
  | «open» (h : F.refuse (.readFile (sstPath db.nextSstId))) :
      FlushThrew F sz db d (.sstOpen (sstPath db.nextSstId)) (taken db) (flushBuilt sz db d)
  | manifest {e : Error} {d' : Disk} (he : Manifest.Throws e)
      (h : Manifest.Refuses F) (hd : Manifest.Replacing F (flushBuilt sz db d) d') :
      FlushThrew F sz db d e (flushListed sz db) d'
  | wal (h : F.refuse (.openAppend (walSegPath (u64 (db.nextSstId + 1))))) :
      FlushThrew F sz db d (.walOpen (walSegPath (u64 (db.nextSstId + 1))))
        { flushListed sz db with wal := none, currentWalId := u64 (db.nextSstId + 1) }
        (flushSealed sz db d)

section Rules

variable {F : Faults Mark} {W : Watch (Call Mark) DB Disk} {E : Error → DB → Disk → Prop}
  {db : DB} {d : Disk} {sz : Sizing}

theorem wp_updateManifestLocked {Q : Unit → DB → Disk → Prop} (hF : Throwing F)
    (hw : Allows W (Manifest.Replacing F d))
    (hcommit : ∀ d', Manifest.Replacing F d d' → d'[Manifest.tmp]? = some (.saved
      (Manifest.text ⟨u64 (db.manifestGen + 1), db.sstables.map (·.path)⟩)) → W.always
      ⟨.rename Manifest.tmp Manifest.dest, { db with manifestGen := u64 (db.manifestGen + 1) }, d'⟩)
    (hdiscard : ∀ d', F.refuse (.rename Manifest.tmp Manifest.dest) → Manifest.Replacing F d d' →
      W.always ⟨.remove Manifest.dest, { db with manifestGen := u64 (db.manifestGen + 1) }, d'⟩)
    (hthrew : ∀ e d', Manifest.Throws e → Manifest.Refuses F → Manifest.Replacing F d d' →
      E e { db with manifestGen := u64 (db.manifestGen + 1) } d')
    (h : Q () { db with manifestGen := u64 (db.manifestGen + 1) }
      (Manifest.commit (Manifest.text ⟨u64 (db.manifestGen + 1), db.sstables.map (·.path)⟩) d)) :
    updateManifestLocked.wp (device F) W Q E db d := by
  rw [updateManifestLocked, wp_bind, wp_modify, wp_bind, Crash.wp_get]
  have hkept : ∀ {bs kept : Bytes}, Manifest.Kept F bs kept → kept = bs := by
    rintro bs kept (rfl | ⟨hf, -⟩)
    · rfl
    · exact absurd hf hF.short_close
  refine Manifest.wp_write (hF.sync _) hw ?_ hdiscard hthrew ?_
  · intro kept d' hk hd' htmp
    exact hcommit d' hd' (hkept hk ▸ htmp)
  · intro kept hk
    rw [hkept hk]
    exact h

theorem wp_resetWal {Q : Unit → DB → Disk → Prop} (hF : Throwing F) (hw : Allows W (· = d))
    (h : Q () { db with wal := none } d) : resetWal.wp (device F) W Q E db d := by
  rw [resetWal, wp_bind, Crash.wp_get]
  cases db.wal with
  | none => exact h
  | some f =>
    rw [wp_bind]
    exact WAL.wp_close hF hw h

theorem wp_seal {Q : Unit → DB → Disk → Prop} {seg : Name} (hF : Throwing F)
    (hseg : seg ≠ Manifest.tmp) (hw : W.always ⟨.rename seg (donePath seg), db, d⟩)
    (h : Q () db (sealDisk seg d)) :
    (call (.rename seg (donePath seg)) : Io DB Unit).wp (device F) W Q E db d := by
  have hr : ¬F.refuse (.rename seg (donePath seg)) := fun hf ↦ hseg (hF.rename _ _ hf).1
  rw [wp_call]
  refine (wp_perform (c := .rename seg (donePath seg)) fun r d' hs ↦
    hs.resolve_right fun hf ↦ hr hf.1).2 ⟨hw, fun _ ↦ ?_⟩
  rw [sealDisk] at h
  cases hseg : d[seg]? with
  | none => simpa [Call.perform, hseg] using h
  | some f => simpa [Call.perform, hseg] using h

/-- **What a flush does** when the MemTable is not empty and its table can be read back. -/
theorem wp_flushMemtableLocked {Q : Unit → DB → Disk → Prop} (hF : Throwing F)
    (hne : db.memtable.empty = false) (hbuild : W.always (buildEvent db db.memtable.data d))
    (h : W.assume (buildEvent db db.memtable.data d) →
      SSTable.Openable sz db.memtable.data ∧ (∀ ev, FlushEvent F sz db d ev → W.always ev) ∧
      (∀ e db' d', FlushThrew F sz db d e db' d' → E e db' d') ∧
      Q () (flushedDb sz db) (flushedDisk sz db d)) :
    (flushMemtableLocked sz).wp (device F) W Q E db d := by
  rw [flushMemtableLocked, wp_bind, Crash.wp_get, hne]
  simp only [Bool.false_eq_true, if_false]
  rw [wp_bind, wp_modify, wp_bind]
  refine SSTable.wp_build hF (hF.short_write (sstPath_ne_tmp _)) hbuild fun hA ↦ ?_
  obtain ⟨hopen, hw, hthrew, hok⟩ := h hA
  have hallow : Allows W (FlushStage F sz db d) := fun _ _ _ hc hd' ↦ hw _ (.plain hc hd')
  have hstage : ∀ {d' : Disk}, FlushStage F sz db d d' → Allows W (· = d') := fun hd' ↦
    hallow.mono fun _ h ↦ h ▸ hd'
  refine ⟨hallow.mono fun _ ↦ .building, fun hf ↦ hthrew _ _ _ (.build hf), ?_⟩
  have hfile : ((flushBuilt sz db d)[sstPath db.nextSstId]?).map File.content
      = some (SSTable.image sz db.memtable.data) := SSTable.content_insert_image _ _ _ _
  have hbuilt : FlushStage F sz db d (flushBuilt sz db d) := .replacing (.inl (.refl _ _))
  rw [wp_bind]
  refine SSTable.wp_open hopen hfile hF.short_readFile (hallow _ _ _ rfl hbuilt)
    (fun _ hf ↦ hthrew _ _ _ (.open hf)) fun _ ↦ ?_
  rw [wp_bind, wp_modify, wp_bind]
  refine wp_updateManifestLocked hF (hallow.mono fun _ ↦ .replacing)
    (fun d' hd' htmp ↦ hw _ (.commit hd' htmp)) (fun d' hf hd' ↦ hw _ (.discard hf hd'))
    (fun _ _ he hf hd' ↦ hthrew _ _ _ (.manifest he hf hd')) ?_
  change Prog.wp _ _ _ _ _ (flushListed sz db) (flushCommitted sz db d)
  rw [wp_bind, Crash.wp_get, wp_bind]
  refine wp_resetWal hF (hstage .committed) ?_
  rw [wp_bind]
  refine wp_seal hF (walSegPath_ne_tmp _) (hw _ .sealing) ?_
  rw [wp_bind, wp_modify, wp_bind, Crash.wp_get, wp_bind]
  refine WAL.wp_open (hallow _ _ _ rfl .sealed) (fun hf ↦ hthrew _ _ _ (.wal hf)) ?_
  rw [wp_bind, wp_modify, wp_bind, wp_modify, wp_bind]
  refine wp_call_remove (fun hf ↦ absurd (hF.remove _ hf) (donePath_ne_dest _))
    (hallow _ _ _ (isPlain_remove (donePath_ne_dest _)) .opened) ?_
  rw [wp_call, wp_mark]
  exact ⟨hw _ .flushed, fun _ ↦ hok⟩

theorem wp_flushMemtableLocked_empty {Q : Unit → DB → Disk → Prop}
    (he : db.memtable.empty = true) (h : Q () db d) :
    (flushMemtableLocked sz).wp (device F) W Q E db d := by
  rw [flushMemtableLocked, wp_bind, Crash.wp_get, he]
  exact h

end Rules

end DB

end KeyValStore
