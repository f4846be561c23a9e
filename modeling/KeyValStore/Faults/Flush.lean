import KeyValStore.History.Atomic
import KeyValStore.History.Newest
import KeyValStore.Recovery.Scanned
import KeyValStore.Session.Silent

/-!
# A flush under write errors

`SSTable::build` looks at no answer of `fwrite`, `fflush`, `fsync` and `fclose`, and a flush goes on
with whatever has become of the table.  `FlushPersists` says what that costs, when only the calls on
the table's file go wrong.

An exception leaves the store as it was.  If `fwrite` takes all bytes, then every flush that returns
has persisted the MemTable if and only if neither `fflush` can lose bytes nor `fsync` can fail
(`flushPersists`).
-/

set_option autoImplicit false

namespace KeyValStore

open Crash Std Overlay
open DB (taken sstPath walSegPath donePath openOf flushManifest sealDisk flushBuilt flushedDisk
  shown tableLayer)

/-- Only calls on the file go wrong. -/
def OnFile (F : Faults Mark) (f : Name) : Prop := ∀ c, F.refuse c ∨ F.short c → CallOn f c

theorem OnFile.not_refuse {F : Faults Mark} {f : Name} {c : Call Mark} (hF : OnFile F f)
    (hc : ¬CallOn f c) : ¬F.refuse c := fun hf ↦ hc (hF c (.inl hf))

theorem OnFile.not_short {F : Faults Mark} {f : Name} {c : Call Mark} (hF : OnFile F f)
    (hc : ¬CallOn f c) : ¬F.short c := fun hf ↦ hc (hF c (.inr hf))

/-- The bytes that `fwrite` has taken become durable. -/
structure Settles (F : Faults Mark) (f : Name) : Prop where
  /-- The flush loses nothing. -/
  flush : ¬F.short (.flush f)
  /-- The sync works. -/
  sync : ¬F.refuse (.sync f)

/-! ## The two parts of a build -/

namespace SSTable

section Build

variable {μ : Type}

/-- The first part of `build`: all bytes are handed to `fwrite`. -/
def writeTable (sz : Sizing) (path : Name) (entries : Entries) : Io μ Unit := do
  call (.mark (.build path entries))
  if !(← openTrunc path) then Prog.throw (.sstBuild path)
  let bloom := entries.keys.foldl BloomFilter.add (.sized sz entries.size)
  let sparse ← writeEntries path entries.toList 0 []
  let bloomOffset ← tell path
  wu32 path bloom.numBits
  fwrite path bloom.bits
  let indexOffset ← tell path
  wu32 path sparse.length
  forM sparse fun ip ↦ do
    wstr path ip.key
    wu64 path ip.offset
  wu64 path bloomOffset
  wu64 path indexOffset

/-- The second part: what has been written is to become durable. -/
def settle (path : Name) : Io μ Unit := do
  call (.flush path)
  call (.sync path)
  call (.close path)

theorem build_eq (sz : Sizing) (path : Name) (entries : Entries) :
    (build sz path entries : Io μ Unit) = (do writeTable sz path entries; settle path) := by
  rw [writeTable, Prog.bind_assoc]
  refine congrArg (Bind.bind _) (funext fun _ ↦ ?_)
  rw [Prog.bind_assoc]
  refine congrArg (Bind.bind _) (funext fun opened ↦ ?_)
  cases opened with
  | false => rfl
  | true =>
    simp only [Bool.not_true, Bool.false_eq_true, if_false, Prog.bind_assoc]
    rfl

variable {F : Faults Mark} {E : Error → μ → Disk → Prop} {m : μ} {d : Disk} {f : Name} {sz : Sizing}
  {entries : Entries} {bs : Bytes}

theorem wp_writeTable {Q : Unit → μ → Disk → Prop} (hs : ∀ bs, ¬F.short (.write f bs))
    (hthrew : F.refuse (.openTrunc f) → E (.sstBuild f) m d)
    (h : Q () m (d.insert f ⟨[], image sz entries⟩)) :
    (writeTable sz f entries : Io μ Unit).wp (device F) .blind Q E m d := by
  have hw : Allows .blind (Disk.AgreeOff f d) := fun _ (_ : μ) _ _ _ ↦ trivial
  rw [writeTable, wp_bind, wp_call, wp_mark]
  refine ⟨trivial, fun _ ↦ ?_⟩
  rw [wp_bind]
  refine wp_openTrunc trivial (fun hf ↦ ?_) fun _ ↦ ?_
  · simpa using hthrew hf
  simp only [Bool.not_true, Bool.false_eq_true, if_false, wp_bind]
  refine wp_writeEntries hs hw (wp_tell_insert hw (wp_wu32 hs hw (wp_fwrite hs hw
    (wp_tell_insert hw (wp_wu32 hs hw (wp_writeIndex hs hw (wp_wu64 hs hw (wp_wu64 hs hw ?_))))))))
  convert h using 3
  simp [image, bloomBytes, indexBytes, sparseOf, bloomStart, indexStart, bloomOf]

/-- What has been taken becomes durable, and closing the file cannot lose it any more. -/
theorem wp_settle {Q : Unit → μ → Disk → Prop} (hF : Settles F f)
    (h : Q () m (d.insert f (.saved bs))) :
    (settle f : Io μ Unit).wp (device F) .blind Q E m (d.insert f ⟨[], bs⟩) := by
  rw [settle, wp_bind, wp_call, wp_flush hF.flush]
  refine ⟨trivial, fun _ ↦ ?_⟩
  rw [wp_bind, wp_call, wp_sync hF.sync]
  refine ⟨trivial, fun _ ↦ ?_⟩
  rw [Disk.modify_insert, wp_call]
  refine wp_close_short trivial h fun k _ ↦ ?_
  rw [Disk.modify_insert]
  simpa [File.keep, File.saved, File.content] using h

theorem exec_settle {r r' : Bool} {d₁ d₂ : Disk} (hflush : Crash.Step F (.flush f) d r d₁)
    (hsync : Crash.Step F (.sync f) d₁ r' d₂) :
    ∃ tr, Exec (device F) (settle f : Io μ Unit) m d tr (.ok () m d₂) := by
  have hclose : Crash.Step F (.close f) d₂ true d₂ := .inl ⟨rfl, rfl⟩
  exact ⟨_, (exec_call hflush).bind ((exec_call hsync).bind (exec_call hclose))⟩

/-- **Otherwise nothing of it need be durable**, although a reader may see all of it, or nothing. -/
theorem exists_exec_settle (hF : ¬Settles F f) (m : μ) (d : Disk) (bs : Bytes) :
    ∃ tr x, Exec (device F) (settle f : Io μ Unit) m (d.insert f ⟨[], bs⟩) tr
      (.ok () m (d.insert f x)) ∧ (x.content = bs ∨ x.content = []) ∧ x.Crashed (.saved []) := by
  by_cases hsync : F.refuse (.sync f)
  · -- nothing has been synced
    obtain ⟨tr, hx⟩ :=
      exec_settle (m := m) (d := d.insert f ⟨[], bs⟩) (.inl ⟨rfl, rfl⟩) (.inr ⟨hsync, rfl, rfl⟩)
    exact ⟨tr, _, hx, .inl rfl, [], List.nil_prefix, rfl⟩
  · -- the flush has lost everything
    have hflush : F.short (.flush f) := not_not.1 fun h ↦ hF ⟨h, hsync⟩
    obtain ⟨tr, hx⟩ := exec_settle (m := m) (d := d.insert f ⟨[], bs⟩)
      (.inr ⟨hflush, rfl, 0, (Disk.modify_insert d f _ _).symm⟩)
      (.inl ⟨rfl, (Disk.modify_insert d f _ _).symm⟩)
    exact ⟨tr, _, hx, .inr rfl, File.crashed_saved_iff.2 rfl⟩

/-- A file that reads as the image of a table, or is empty, can be opened. -/
theorem openOf_insert_ne_none (hopen : Openable sz entries) {x : File}
    (h : x.content = image sz entries ∨ x.content = []) : openOf (d.insert f x) f ≠ none := by
  rw [openOf, ExtTreeMap.getElem?_insert_self, Option.bind_some]
  rcases h with h | h
  · rw [h, hopen.loadMeta_image f]
    exact Option.some_ne_none _
  · rw [h]
    exact Option.some_ne_none _

/-- In a table without an index nothing is found. -/
theorem lookup_of_index {t : SSTable} (h : t.index = []) (key : Bytes) :
    (t.lookup key : Io μ LookupResult) = pure .notFound := by
  rw [lookup, h]
  cases t.bloom.mayContain key <;> rfl

end Build

end SSTable

/-! ## The rest of a flush -/

namespace DB

/-- What a flush does once it has opened its table. -/
def finishFlush (t : SSTable) : Io DB Unit := do
  modify fun db ↦ { db with sstables := t :: db.sstables }
  updateManifestLocked
  let oldSeg := walSegPath (← MonadState.get).currentWalId
  resetWal
  let doneSeg := donePath oldSeg
  call (.rename oldSeg doneSeg)
  modify fun db ↦ { db with currentWalId := db.nextSstId }
  let wal ← WAL.open (walSegPath (← MonadState.get).currentWalId)
  modify fun db ↦ { db with wal := some wal }
  modify fun db ↦ { db with memtable := db.memtable.clear }
  call (.remove doneSeg)
  call (.mark .flushed)

theorem flushMemtableLocked_eq (sz : Sizing) : flushMemtableLocked sz = (do
    let db ← MonadState.get
    if db.memtable.empty then return
    modify taken
    SSTable.build sz (sstPath db.nextSstId) db.memtable.data
    let t ← SSTable.open (sstPath db.nextSstId)
    finishFlush t) := rfl

/-- The directory after a flush that had made `d` of it when it opened its table. -/
def finishedDisk (db : DB) (d : Disk) : Disk :=
  ((sealDisk (walSegPath db.currentWalId)
    (Manifest.commit (Manifest.text (flushManifest db)) d)).insertIfNew
    (walSegPath (u64 (db.nextSstId + 1))) {}).erase (donePath (walSegPath db.currentWalId))

section Agree

variable {db : DB} {d d' : Disk} {f : Name}

theorem agreeOff_sealDisk {seg : Name} (h : Disk.AgreeOff f d d') (hseg : seg ≠ f) :
    Disk.AgreeOff f (sealDisk seg d) (sealDisk seg d') := by
  rw [sealDisk, sealDisk, h seg hseg]
  cases d[seg]? with
  | none => exact h
  | some x => exact (h.erase seg).insert _ x

/-- What follows does not look at the table. -/
theorem agreeOff_finishedDisk (h : Disk.AgreeOff (sstPath db.nextSstId) d d') :
    Disk.AgreeOff (sstPath db.nextSstId) (finishedDisk db d) (finishedDisk db d') := by
  have hseg : ∀ id, walSegPath id ≠ sstPath db.nextSstId :=
    fun id ↦ (sstPath_ne_walSegPath _ id).symm
  exact ((agreeOff_sealDisk ((h.erase _).insert _ _) (hseg _)).insertIfNew (hseg _) _).erase _

theorem getElem?_finishedDisk (db : DB) (d : Disk) (id : ℕ) :
    (finishedDisk db d)[sstPath id]? = d[sstPath id]? := by
  rw [finishedDisk, Disk.getElem?_erase_ne (sstPath_ne_donePath id _),
    Disk.getElem?_insertIfNew_ne (sstPath_ne_walSegPath id _), getElem?_sealDisk_sst,
    Manifest.getElem?_commit_sst]

end Agree

theorem flushedDisk_eq (sz : Sizing) (db : DB) (d : Disk) :
    flushedDisk sz db d = finishedDisk db (flushBuilt sz db d) := rfl

section Finish

variable {F : Faults Mark} {E : Error → DB → Disk → Prop} {Q : Unit → DB → Disk → Prop}
  {db : DB} {d : Disk} {f seg : Name}

theorem wp_replaceManifest (hF : OnFile F f) (hf : Manifest.tmp ≠ f)
    (h : Q () { db with manifestGen := u64 (db.manifestGen + 1) }
      (Manifest.commit (Manifest.text ⟨u64 (db.manifestGen + 1), db.sstables.map (·.path)⟩) d)) :
    updateManifestLocked.wp (device F) .blind Q E db d := by
  rw [updateManifestLocked, wp_bind, wp_modify, wp_bind, Crash.wp_get]
  refine Manifest.wp_write (hF.not_refuse hf) (fun _ _ _ _ _ ↦ trivial) (fun _ _ _ _ _ ↦ trivial)
    (fun _ _ _ ↦ trivial) (fun _ _ _ hr _ ↦ ?_) ?_
  · rcases hr with hr | ⟨_, hr⟩ | hr
    · exact absurd hr (hF.not_refuse hf)
    · exact absurd hr (hF.not_short hf)
    · exact absurd hr (hF.not_refuse id)
  · rintro kept (rfl | ⟨hs, -⟩)
    · exact h
    · exact absurd hs (hF.not_short hf)

theorem wp_closeWal (hF : OnFile F f) (hwal : db.wal = some seg) (hseg : seg ≠ f)
    (h : Q () { db with wal := none } d) : resetWal.wp (device F) .blind Q E db d := by
  have hflush : ¬F.short (.flush seg) := hF.not_short hseg
  have hclose : ¬F.short (.close seg) := hF.not_short hseg
  rw [resetWal, wp_bind, Crash.wp_get]
  simp only [hwal]
  rw [wp_bind, WAL.close, wp_bind, wp_call, wp_flush hflush]
  refine ⟨trivial, fun _ ↦ ?_⟩
  rw [wp_call, Crash.wp_close hclose]
  exact ⟨trivial, fun _ ↦ h⟩

theorem wp_sealSegment (hF : OnFile F f) (h : Q () db (sealDisk seg d)) :
    (call (.rename seg (donePath seg)) : Io DB Unit).wp (device F) .blind Q E db d := by
  have hrename : ¬F.refuse (.rename seg (donePath seg)) := hF.not_refuse id
  rw [wp_call]
  refine (wp_perform (c := .rename seg (donePath seg)) fun r d' hs ↦
    hs.resolve_right fun hf ↦ hrename hf.1).2 ⟨trivial, fun _ ↦ ?_⟩
  rw [sealDisk] at h
  cases hseg : d[seg]? with
  | none => simpa [Call.perform, hseg] using h
  | some f => simpa [Call.perform, hseg] using h

/-- **What follows the opening of the table** goes well. -/
theorem wp_finishFlush {t : SSTable} (hF : OnFile F (sstPath db.nextSstId))
    (hpath : t.path = sstPath db.nextSstId) (hwal : db.wal = some (walSegPath db.currentWalId))
    (h : ∀ db', Q () db' (finishedDisk db d)) :
    (finishFlush t).wp (device F) .blind Q E (taken db) d := by
  have hseg : ∀ id, walSegPath id ≠ sstPath db.nextSstId :=
    fun id ↦ (sstPath_ne_walSegPath _ id).symm
  have hdata : (⟨u64 (db.manifestGen + 1), (t :: db.sstables).map (·.path)⟩ : ManifestData) =
      flushManifest db := by
    rw [List.map_cons, hpath, flushManifest]
  rw [finishFlush, wp_bind, wp_modify, wp_bind]
  refine wp_replaceManifest hF (sstPath_ne_tmp _).symm ?_
  rw [wp_bind, Crash.wp_get, wp_bind]
  refine wp_closeWal hF hwal (hseg _) ?_
  rw [wp_bind]
  refine wp_sealSegment hF ?_
  rw [wp_bind, wp_modify, wp_bind, Crash.wp_get, wp_bind]
  refine WAL.wp_open trivial (fun hf ↦ absurd hf (hF.not_refuse (hseg _))) ?_
  rw [wp_bind, wp_modify, wp_bind, wp_modify, wp_bind]
  refine wp_call_remove (hF.not_refuse id) trivial ?_
  rw [wp_call, wp_mark]
  refine ⟨trivial, fun _ ↦ ?_⟩
  have hend := h { taken db with
    sstables := t :: db.sstables
    manifestGen := u64 (db.manifestGen + 1)
    wal := some (walSegPath (u64 (db.nextSstId + 1)))
    currentWalId := u64 (db.nextSstId + 1)
    memtable := db.memtable.clear }
  rw [finishedDisk, ← hdata] at hend
  exact hend

/-- **The table is opened**, or it is not. -/
theorem wp_openTable {Q : SSTable → DB → Disk → Prop} (hF : OnFile F f)
    (hthrew : openOf d f = none → ∀ e, E e db d)
    (hok : ∀ t, openOf d f = some t → Q t db d) :
    (SSTable.open f : Io DB SSTable).wp (device F) .blind Q E db d := by
  rw [SSTable.open, wp_bind]
  refine wp_readFile (hF.not_short id) trivial (fun _ hf ↦ absurd hf (hF.not_refuse id)) fun _ ↦ ?_
  rw [openOf] at hthrew hok
  cases hx : d[f]? with
  | none =>
    rw [hx] at hthrew
    exact hthrew rfl _
  | some x =>
    rw [hx] at hthrew hok
    simp only [Option.map_some, Option.bind_some] at hthrew hok ⊢
    refine (wp_ofExcept _).2 ⟨fun t ht ↦ hok t ?_, fun e he ↦ hthrew ?_ e⟩
    · rw [ht]
      rfl
    · rw [he]
      rfl

/-! ### Whole flushes -/

variable {sz : Sizing}

theorem wp_flush_of_ne_empty {D : Device (@Reply Mark) Disk} (hne : db.memtable.empty = false)
    (h : (do SSTable.build sz (sstPath db.nextSstId) db.memtable.data
             let t ← SSTable.open (sstPath db.nextSstId)
             finishFlush t : Io DB Unit).wp D .blind Q E (taken db) d) :
    (flushMemtableLocked sz).wp D .blind Q E db d := by
  rw [flushMemtableLocked_eq, wp_bind, Crash.wp_get, hne]
  exact h

theorem exec_flush_of_ne_empty {D : Device (@Reply Mark) Disk}
    {tr : List (Event (Call Mark) DB Disk)} {o : Outcome DB Error Unit Disk}
    (hne : db.memtable.empty = false)
    (h : Exec D (do SSTable.build sz (sstPath db.nextSstId) db.memtable.data
                    let t ← SSTable.open (sstPath db.nextSstId)
                    finishFlush t : Io DB Unit) (taken db) d tr o) :
    Exec D (flushMemtableLocked sz) db d tr o := by
  rw [flushMemtableLocked_eq]
  refine .get ?_
  rw [Prog.bind, hne]
  exact .get (.set h)

variable (hF : OnFile F (sstPath db.nextSstId)) (hne : db.memtable.empty = false)
  (hwal : db.wal = some (walSegPath db.currentWalId))

include hF hwal

theorem wp_openAndFinish (hopen : openOf d (sstPath db.nextSstId) = none → ∀ e, E e (taken db) d)
    (h : ∀ db', Q () db' (finishedDisk db d)) :
    (do let t ← SSTable.open (sstPath db.nextSstId); finishFlush t : Io DB Unit).wp (device F)
      .blind Q E (taken db) d := by
  rw [wp_bind]
  exact wp_openTable hF hopen fun t ht ↦ wp_finishFlush hF (openOf_path ht) hwal h

include hne

/-- **A flush that throws** has changed nothing but the file of its table, whatever goes wrong with
it. -/
theorem wp_flush_threw : (flushMemtableLocked sz).wp (device F) .blind (fun _ _ _ ↦ True)
    (fun _ db' d' ↦ db' = taken db ∧ Disk.AgreeOff (sstPath db.nextSstId) d d') db d := by
  let ok : Call Mark → Prop := fun c ↦ CallOn (sstPath db.nextSstId) c ∨
    c = .mark (.build (sstPath db.nextSstId) db.memtable.data)
  have hstep : ∀ c d₁ r d₂, ok c → Disk.AgreeOff (sstPath db.nextSstId) d d₁ →
      Crash.Step F c d₁ r d₂ → Disk.AgreeOff (sstPath db.nextSstId) d d₂ := by
    rintro c d₁ r d₂ (hc | rfl) hd hs
    · exact hd.trans (hc.agreeOff hs)
    · exact hs.2 ▸ hd
  have hbuild : (SSTable.build sz (sstPath db.nextSstId) db.memtable.data : Io DB Unit).Silent ok :=
    SSTable.silent_build (fun _ ↦ .inl) sz db.memtable.data (.inr rfl)
  refine wp_flush_of_ne_empty hne ?_
  rw [wp_bind]
  exact wp_silent hbuild hstep (fun _ _ _ _ ↦ trivial) (.refl _ _)
    (fun _ _ hd ↦ wp_openAndFinish hF hwal (fun _ _ ↦ ⟨rfl, hd⟩) fun _ ↦ trivial) fun _ _ hd ↦
    ⟨rfl, hd⟩

/-- **A flush whose table becomes durable** does what it should, if it returns. -/
theorem wp_flush_settled (hs : ∀ bs, ¬F.short (.write (sstPath db.nextSstId) bs))
    (hsettles : Settles F (sstPath db.nextSstId)) : (flushMemtableLocked sz).wp (device F) .blind
      (fun _ _ d' ↦ d' = flushedDisk sz db d) (fun _ _ _ ↦ True) db d := by
  refine wp_flush_of_ne_empty hne ?_
  rw [wp_bind, SSTable.build_eq, wp_bind]
  exact SSTable.wp_writeTable hs (fun _ ↦ trivial)
    (SSTable.wp_settle hsettles (wp_openAndFinish hF hwal (fun _ _ ↦ trivial) fun _ ↦ rfl))

/-- **Otherwise it may return** with nothing of its table durable. -/
theorem exists_exec_flush (hopen : SSTable.Openable sz db.memtable.data)
    (hsettles : ¬Settles F (sstPath db.nextSstId)) :
    ∃ tr db' x, Exec (device F) (flushMemtableLocked sz) db d tr
      (.ok () db' (finishedDisk db (d.insert (sstPath db.nextSstId) x))) ∧
      x.Crashed (.saved []) := by
  have hwp : (SSTable.writeTable sz (sstPath db.nextSstId) db.memtable.data : Io DB Unit).wp
      reliable .blind (fun _ m d' ↦ m = taken db ∧
        d' = d.insert (sstPath db.nextSstId) ⟨[], SSTable.image sz db.memtable.data⟩)
      (fun _ _ _ ↦ False) (taken db) d := SSTable.wp_writeTable (fun _ ↦ id) False.elim ⟨rfl, rfl⟩
  obtain ⟨tr, _, _, _, hwrite, -, rfl, rfl⟩ :=
    Exec.exists_ok (device_total .none) (fun _ ↦ trivial) hwp
  obtain ⟨tr', x, hsettle, hx, hcrash⟩ := SSTable.exists_exec_settle hsettles (taken db) d
    (SSTable.image sz db.memtable.data)
  obtain ⟨tr'', _, db', _, hend, -, rfl⟩ := Exec.exists_ok (device_total F) (fun _ ↦ trivial)
    (wp_openAndFinish
      (Q := fun _ _ d' ↦ d' = finishedDisk db (d.insert (sstPath db.nextSstId) x)) hF hwal
      (fun hnone ↦ absurd hnone (SSTable.openOf_insert_ne_none hopen hx)) fun _ ↦ rfl)
  have hbuild : Exec (device F) (SSTable.build sz (sstPath db.nextSstId) db.memtable.data)
      (taken db) d (tr ++ tr') (.ok () (taken db) (d.insert (sstPath db.nextSstId) x)) := by
    rw [SSTable.build_eq]
    exact (hwrite.mono fun _ _ _ _ ↦ step_of_none F).bind hsettle
  exact ⟨_, db', x, exec_flush_of_ne_empty hne (hbuild.bind hend), hcrash⟩

end Finish

end DB

/-! ## A table that is empty -/

section Emptied

variable {sz : Sizing} {g n m : ℕ} {entries : Entries} {ts : List (ℕ × Entries)}
  {logs : ℕ → Option File} {d d' : Disk} (h : Holds sz d ⟨some g, (n, entries) :: ts, logs⟩)
  (hd : Disk.AgreeOff (sstPath n) d d') (hx : d'[sstPath n]? = some (.saved []))
  (hn : ∀ t ∈ ts, t.1 ≠ n)

include h hd hn

theorem stored_emptied : DB.Stored sz d' ts :=
  DB.Stored.congr (fun t ht ↦ h.tables.stored t (List.mem_cons_of_mem _ ht)) fun t ht ↦
    hd _ fun heq ↦ hn t ht (DB.sstPath_inj.1 heq)

include hx

/-- Recovery opens an empty file as a table without an index. -/
theorem foundTables_emptied :
    DB.foundTables (DB.swept d') = some (g, (n, { path := sstPath n }) :: DB.numbered sz ts) := by
  have hstored := (stored_emptied h hd hn).swept
  have hmanifest : d'[Manifest.dest]? =
      some (.saved (Manifest.text ⟨g, ((n, entries) :: ts).map (sstPath ·.1)⟩)) :=
    (hd _ (DB.sstPath_ne_dest n).symm).trans h.manifest
  have hids := List.forall_mem_cons.1 fun t ht ↦ (h.tables t ht).1
  have hmap : collect (DB.listedTable (DB.swept d')) (ts.map (sstPath ·.1)) =
      some (DB.numbered sz ts) := by
    refine collect_map fun t ht ↦ ?_
    rw [DB.listedTable, DB.listedId_sstPath (hids.2 t ht), hstored.openOf ht]
    rfl
  have hfirst : DB.listedTable (DB.swept d') (sstPath n) =
      some (some (n, { path := sstPath n })) := by
    rw [DB.listedTable, DB.listedId_sstPath hids.1, openOf,
      DB.getElem?_swept (DB.isLeftover_sstPath n), hx]
    rfl
  have hall : collect (DB.listedTable (DB.swept d')) (((n, entries) :: ts).map (sstPath ·.1)) =
      some ((n, { path := sstPath n }) :: DB.numbered sz ts) := by
    rw [List.map_cons, collect_cons, hfirst, hmap]
    rfl
  rw [DB.foundTables, DB.getElem?_swept (by decide), hmanifest]
  simp only [File.content_saved, DB.parse_listing (h.gen g rfl), Except.toOption,
    Option.bind_eq_bind, Option.bind_some, hall]
  rfl

/-- **What was in the table is gone**, if no segment has records. -/
theorem recover_emptied (hshort : ∀ t ∈ ts, t.2.IsShort) (hlt : ∀ id, logs id ≠ none → id < m)
    (hL : ∀ id, logRecords (logs id) = []) (opts : Options) :
    DB.recover.Returns reliable { opts } d' fun _ db d'' ↦
      Answers db d'' (visible (tableLayer ts)) := by
  have hlogs : HoldsLogs d' logs := by
    refine h.toHoldsLogs.off (J := (· = sstPath n)) hd (fun _ hn ↦ hn ▸ .sst n) fun id hid ↦ ?_
    exact DB.sstPath_ne_walSegPath n id hid.symm
  have hreplays := hlogs.replays hlt
  rw [recordsBelow_eq_nil_iff.2 fun id _ ↦ hL id, DB.replays] at hreplays
  obtain ⟨segs, hsegs, hnil⟩ := Option.map_eq_some_iff.1 hreplays
  obtain ⟨db, d'', hrec, htables, hstored, hmem⟩ := DB.exists_recoverOf opts
    (foundTables_emptied h hd hx hn) hsegs (stored_emptied h hd hn) fun t ht ↦
    List.mem_cons_of_mem _ (DB.mem_paths_numbered ht)
  refine DB.returns_recover hrec fun key ↦ Prog.returns_of_wp ?_
  rw [hnil] at hmem
  rw [List.map_cons, DB.map_numbered] at htables
  have hraw : db.memtable.raw key = none := by
    rw [hmem]
    rfl
  rw [DB.get, wp_bind, Crash.wp_get, hraw, htables]
  simp only [DB.getFrom]
  rw [SSTable.lookup_of_index rfl]
  exact DB.wp_getFrom throwing_none (fun _ _ ↦ id) hstored hshort (fun _ _ _ _ _ ↦ trivial)
    ⟨rfl, rfl, rfl⟩

end Emptied

/-! ## Flushes that return -/

/-- Whatever a crash leaves, recovery shows `v`. -/
def Recovers (d : Disk) (v : Bytes → Option Bytes) : Prop :=
  ∀ opts d', d.Crashed d' → DB.recover.Returns reliable { opts } d' fun _ db d'' ↦ Answers db d'' v

theorem Survives.recovers {sz : Sizing} {d : Disk} {v : Bytes → Option Bytes}
    (h : Survives sz (· = v) d) : Recovers d v := by
  intro opts d' hc tr o hx
  refine (h.recover hc opts tr o hx).imp_right ?_
  rintro ⟨a, db, d'', rfl, _, rfl, hanswers⟩
  exact ⟨a, db, d'', rfl, hanswers⟩

/-- A crash may leave of one file what it may, and of all others everything. -/
theorem crashed_insert {d : Disk} {n : Name} {f f' : File} (hn : d[n]? = some f)
    (hc : f.Crashed f') : d.Crashed ((d.map fun _ f ↦ f.sync).insert n f') := fun k ↦ by
  by_cases hk : k = n
  · rw [hk, hn, ExtTreeMap.getElem?_insert_self]
    exact .some hc
  · rw [Disk.getElem?_insert_ne hk]
    exact d.crashed_sync k

section Returns

variable {sz : Sizing} {F : Faults Mark} {db : DB} {d : Disk} {C : Contents}

/-- **Where nothing of the table is durable**, a crash can leave a store that shows the tables
before it. -/
theorem exists_lost (ho : Opened sz db d C) (hf : Faithful db C) (hs : NoStale db C)
    (hlt : db.nextSstId + 1 < 2 ^ 64) (hopen : SSTable.Openable sz db.memtable.data) {x : File}
    (hx : x.Crashed (.saved [])) :
    ∃ d', (DB.finishedDisk db (d.insert (sstPath db.nextSstId) x)).Crashed d' ∧ ∀ opts,
      DB.recover.Returns reliable { opts } d' fun _ db' d'' ↦
        Answers db' d'' (visible (tableLayer C.tables)) := by
  have hflushed := ho.flushed hlt hopen
  have hwhole := (hf.flushed ho hlt hs).whole
  have hfile : (flushedDisk sz db d)[sstPath db.nextSstId]? =
      some (.saved (SSTable.image sz db.memtable.data)) := by
    rw [DB.flushedDisk_eq, DB.getElem?_finishedDisk, flushBuilt, ExtTreeMap.getElem?_insert_self]
  have hempty : (DB.finishedDisk db (d.insert (sstPath db.nextSstId) x))[sstPath db.nextSstId]? =
      some x := by
    rw [DB.getElem?_finishedDisk, ExtTreeMap.getElem?_insert_self]
  have hagree : Disk.AgreeOff (sstPath db.nextSstId) (flushedDisk sz db d)
      (DB.finishedDisk db (d.insert (sstPath db.nextSstId) x)) := by
    rw [DB.flushedDisk_eq]
    refine DB.agreeOff_finishedDisk fun n hn ↦ ?_
    rw [flushBuilt, Disk.getElem?_insert_ne hn, Disk.getElem?_insert_ne hn]
  refine ⟨_, crashed_insert hempty hx, ?_⟩
  -- beside it, a crash after a flush whose table is durable
  obtain ⟨C', hC, hd⟩ :=
    hflushed.holds.crashed (crashed_insert hfile (File.crashed_saved_iff.2 rfl))
  rw [hwhole.eq_of_crashed hC] at hd
  have hheld : Holds sz _ ⟨some (u64 (db.manifestGen + 1)),
    (db.nextSstId, db.memtable.data) :: C.tables, (DB.flushOpen db C).logs⟩ := hd
  refine recover_emptied hheld (fun n hn ↦ ?_) ExtTreeMap.getElem?_insert_self ho.fresh hf.short
    (fun id hid ↦ Nat.lt_succ_of_le (hflushed.sound.logs id hid))
    (Faithful.noRecords_flushOpen ho.last ho.wal_le hlt hs)
  rw [Disk.getElem?_insert_ne hn, Disk.getElem?_insert_ne hn, ExtTreeMap.getElem?_map,
    ExtTreeMap.getElem?_map, hagree n hn]

/-- **What a flush persists** when calls on its table's file go wrong, if `v` is seen before. -/
structure FlushPersists (sz : Sizing) (F : Faults Mark) (db : DB) (d : Disk)
    (v : Bytes → Option Bytes) : Prop where
  /-- An exception leaves everything but the number and the file of the table as it was. -/
  threw : ∀ tr e db' d', Exec (device F) (DB.flushMemtableLocked sz) db d tr (.threw e db' d') →
    db' = taken db ∧ Disk.AgreeOff (sstPath db.nextSstId) d d' ∧ Answers db' d' v ∧ Recovers d' v
  /-- If `fwrite` takes all bytes and the MemTable says something new, then what returns has
  persisted it exactly if `fflush` and `fsync` cannot go wrong. -/
  returned : (∀ bs, ¬F.short (.write (sstPath db.nextSstId) bs)) →
    ¬Answers { db with memtable := {} } d v →
    ((∀ tr db' d', Exec (device F) (DB.flushMemtableLocked sz) db d tr (.ok () db' d') →
      Recovers d' v) ↔ Settles F (sstPath db.nextSstId))

/-- **A flush persists the MemTable or throws**, after clean sessions, exactly if what `fwrite`
takes becomes durable. -/
theorem flushPersists {hist : List (Label × Trace)} (hrun : Run sz (.closed ∅) hist (.opened db d))
    (hhist : ∀ s ∈ hist, s.1.IsClean ∧ Regular sz (fun _ db _ ↦ NoWrap db) s)
    (hne : db.memtable.empty = false) (hbloom : BloomFits sz db.memtable.data)
    (hwrap : NoWrap (taken db)) (hF : OnFile F (sstPath db.nextSstId)) :
    FlushPersists sz F db d (Op.applyAll (completed hist) fun _ ↦ none) := by
  obtain ⟨C, ho, hf, hstale, hv⟩ := shows_of_clean hrun hhist
  rw [← hv]
  have hs := hstale trivial
  have hlt := succ_lt_of_noWrap ho.next_lt hwrap
  have hopen := (SSTable.Fits.mk hf.memShort hbloom).openable
  have hyields : C.Yields (· = shown db.memtable.data C.tables) :=
    hf.whole.yields hf.short hf.view_eq
  refine ⟨fun tr e db' d' hx ↦ ?_, fun hwrite hnew ↦
      ⟨fun hpersists ↦ ?_, fun hsettles tr db' d' hx ↦ ?_⟩⟩
  · obtain ⟨rfl, hd⟩ := (hx.of_wp (fun _ _ ↦ trivial) (DB.wp_flush_threw hF hne ho.wal)).2
    have hloose : C.Loose (sstPath db.nextSstId) := Contents.loose_sstPath ho.gen_ne ho.fresh
    have hholds := ho.holds.off (hd.agreeBut hloose)
    exact ⟨rfl, hd, answers_shown ho.tables hholds.tables.stored hf.short,
      Survives.recovers ⟨C, hholds, ho.sound, hyields⟩⟩
  · by_contra hsettles
    obtain ⟨tr, db', x, hx, hcrash⟩ := DB.exists_exec_flush hF hne ho.wal hopen hsettles
    obtain ⟨d', hc, hlost⟩ := exists_lost ho hf hs hlt hopen hcrash
    obtain ⟨tr', db'', d'', hrec, hanswers⟩ := DB.exists_exec_of_returns (hlost {})
    rcases hpersists _ _ _ hx {} d' hc _ _ hrec with ⟨_, hcut⟩ | ⟨_, _, _, hend, hanswers'⟩
    · cases hcut
    cases hend
    -- what was seen before was to be seen without the MemTable
    refine hnew ?_
    rw [hanswers'.unique hanswers]
    exact answers_shown ho.tables ho.holds.tables.stored hf.short
  · obtain rfl :=
      (hx.of_wp (fun _ _ ↦ trivial) (DB.wp_flush_settled hF hne ho.wal hwrite hsettles)).2
    have hflushed := hf.flushed ho hlt hs
    refine Survives.recovers ⟨_, (ho.flushed hlt hopen).holds, (ho.flushed hlt hopen).sound,
      hflushed.whole.yields hflushed.short (hflushed.view_eq.trans ?_)⟩
    exact shown_flush db.nextSstId db.memtable.data C.tables

end Returns

/-! ## A sync that fails -/

/-- The table of the next flush cannot be synced. -/
def syncFails (db : DB) : Faults Mark := ⟨(· = .sync (sstPath db.nextSstId)), fun _ ↦ False⟩

/-- A store that has been opened for the first time, and a write. -/
theorem exists_written : ∃ hist d, Run .onePercent (.closed ∅) hist
      (.opened (Snapshot.first .onePercent |>.write Snapshot.older).db d) ∧
    (∀ s ∈ hist, s.1.IsClean ∧ Regular .onePercent (fun _ db _ ↦ NoWrap db) s) ∧
    Opened .onePercent (Snapshot.first .onePercent |>.write Snapshot.older).db d
      (Snapshot.first .onePercent |>.write Snapshot.older).contents := by
  have hshort : (Label.did (.put [107] [49])).IsShort := by
    rintro r ⟨⟩
    decide
  have hreach : Reaches .onePercent (fun l ↦ l.IsClean ∧ l.IsShort)
      (fun entries db _ ↦ BloomFits .onePercent entries ∧ NoWrap db)
      (.write Snapshot.older (.first .onePercent)) :=
    (reaches_first ⟨trivial, trivial⟩).write (.put [107] [49]) rfl (by decide) ⟨trivial, hshort⟩
  obtain ⟨hist, d, hrun, hmeets, ho⟩ := hreach
  exact ⟨hist, d, hrun, regular_of_meets hmeets, ho⟩

/-- A failed sync is not noticed: the flush returns, and a crash may lose the write. -/
theorem flushPersists_first : ∃ db d v, FlushPersists .onePercent (syncFails db) db d v ∧
    (∀ bs, ¬(syncFails db).short (.write (sstPath db.nextSstId) bs)) ∧
    ¬Answers { db with memtable := {} } d v ∧ ¬Settles (syncFails db) (sstPath db.nextSstId) := by
  obtain ⟨hist, d, hrun, hhist, ho⟩ := exists_written
  have hpersists := flushPersists
    (F := syncFails (Snapshot.first .onePercent |>.write Snapshot.older).db) hrun hhist
    (by decide) (Snapshot.openable_applyRecord (r := Snapshot.older) (by decide)).bloom
    (by decide) (by
      rintro c (rfl | h)
      · exact rfl
      · exact h.elim)
  refine ⟨_, d, _, hpersists, fun _ h ↦ h, fun hanswers ↦ ?_, fun hsettles ↦ hsettles.sync rfl⟩
  obtain ⟨C, ho', hf, -, hv⟩ := shows_of_clean hrun hhist
  have htables : C.tables = [] := List.map_eq_nil_iff.1 ho'.tables.symm
  have hshown := (hv ▸ hanswers).unique (answers_shown ho'.tables ho'.holds.tables.stored hf.short)
  rw [htables] at hshown
  exact absurd (congrFun hshown [107]) (by decide)

end KeyValStore
