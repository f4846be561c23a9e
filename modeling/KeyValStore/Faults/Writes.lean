import KeyValStore.History.Readable
import KeyValStore.History.Reopen
import KeyValStore.Recovery.Depends
import KeyValStore.Session.Silent

/-!
# Writes under write errors

`WAL::append` and `WAL::sync` report no errors, so a `put` or `del` returns whatever becomes of its
record.  `Writes` is a sequence of such calls, each with the faults of the calls in its `append` and
`sync`; all else is reliable.  As long as nothing goes wrong there, or the write goes on to flush,
what has been acknowledged is durable (`acknowledged_durable`).  Otherwise a record can be lost, and
others with it (`not_acknowledged_durable`).
-/

set_option autoImplicit false

namespace KeyValStore

open Crash Std
open DB (applied flushedDb flushedDisk mergedDb mergedDisk loggedDisk walSegPath buildEvent replayed
  Keeps)

/-- Nothing goes wrong while the record is appended to the segment and synced. -/
structure LogsWell (F : Faults Mark) (seg : Name) (r : WalRecord) : Prop where
  /-- Nothing is cut short. -/
  write : ∀ bs ∈ r.pieces, bs ≠ [] → ¬F.short (.write seg bs)
  /-- The flush loses nothing. -/
  flush : ¬F.short (.flush seg)
  /-- The sync works. -/
  sync : ¬F.refuse (.sync seg)

section Log

variable {F : Faults Mark} {W : Watch (Call Mark) DB Disk} {E : Error → DB → Disk → Prop}
  {db : DB} {d : Disk} {r : WalRecord} {seg : Name}

/-- If nothing goes wrong, the record is logged. -/
theorem wp_logRecord {Q : Unit → DB → Disk → Prop} (hwal : db.wal = some seg)
    (hF : LogsWell F seg r) (hw : ∀ P, Allows W P) (h : Q () db (loggedDisk seg r d)) :
    (DB.logRecord r).wp (device F) W Q E db d := by
  rw [DB.logRecord, wp_bind, DB.activeWal, wp_bind, Crash.wp_get, hwal, wp_pure, wp_bind]
  refine WAL.wp_append_of_pieces hF.write (hw _) ?_
  rw [WAL.sync, wp_bind, wp_call, wp_flush hF.flush]
  refine ⟨hw (fun _ ↦ True) _ _ _ rfl trivial, fun _ ↦ ?_⟩
  rw [wp_call, Crash.wp_sync hF.sync, Disk.modify_modify]
  exact ⟨hw (fun _ ↦ True) _ _ _ rfl trivial, fun _ ↦ h⟩

/-- Whatever goes wrong, nothing but the segment changes. -/
theorem wp_logRecord_agreeOff (hwal : db.wal = some seg) (hseg : d[seg]? ≠ none) :
    (DB.logRecord r).wp (device F) .blind
      (fun _ db' d' ↦ db' = db ∧ Disk.AgreeOff seg d d' ∧ d'[seg]? ≠ none)
      (fun _ _ _ ↦ True) db d := by
  rw [DB.logRecord, wp_bind, DB.activeWal, wp_bind, Crash.wp_get, hwal, wp_pure]
  have hsilent : (do WAL.append seg r.op r.key r.value; WAL.sync seg : Io DB Unit).Silent
      (CallOn seg) :=
    (WAL.silent_append (fun _ ↦ id) _ _ _).bind fun _ ↦ WAL.silent_sync rfl rfl
  refine wp_silent (I := fun d' ↦ Disk.AgreeOff seg d d' ∧ d'[seg]? ≠ none) hsilent ?_
    (fun _ _ _ _ ↦ trivial) ⟨.refl _ _, hseg⟩ (fun _ _ h ↦ ⟨rfl, h⟩) fun _ _ _ ↦ trivial
  exact fun c d' r d'' hc hd hs ↦ ⟨hd.1.trans (hc.agreeOff hs), hc.ne_none hs hd.2⟩

end Log

/-! ## Sequences of writes -/

/-- A call of `put` or `del`. -/
structure WriteCall where
  /-- The record it logs. -/
  record : WalRecord
  /-- What may go wrong while it is logged. -/
  faults : Faults Mark
  /-- The object before the call. -/
  before : DB
  /-- The calls that were made once the record had been logged. -/
  trace : Trace

/-- The call goes on to flush. -/
def WriteCall.Flushes (c : WriteCall) : Prop :=
  c.before.opts.memtableFlushBytes ≤ (applied c.record c.before).memtable.bytes

instance (c : WriteCall) : Decidable c.Flushes :=
  inferInstanceAs
    (Decidable (c.before.opts.memtableFlushBytes ≤ (applied c.record c.before).memtable.bytes))

/-- The records that have been logged since the last flush. -/
def WriteCall.kept (c : WriteCall) (rs : List WalRecord) : List WalRecord :=
  if c.Flushes then [] else rs ++ [c.record]

/-- **A call under write errors**: `append` and `sync` may go wrong, and what follows is
reliable. -/
inductive WriteStep (sz : Sizing) (db : DB) (d : Disk) (rs : List WalRecord) :
    WriteCall → DB → Disk → List WalRecord → Prop
  | mk {op : Op} {r : WalRecord} {F : Faults Mark} {tr tr' : Trace} {db₁ db₂ : DB} {d₁ d₂ : Disk}
      (hr : op.record = some r) (hlog : Exec (device F) (DB.logRecord r) db d tr (.ok () db₁ d₁))
      (hfinish : Exec reliable (DB.finishWrite sz r) db₁ d₁ tr' (.ok () db₂ d₂)) :
      WriteStep sz db d rs ⟨r, F, db, tr'⟩ db₂ d₂ (WriteCall.kept ⟨r, F, db, tr'⟩ rs)

/-- **Writes under write errors**: a sequence of calls of `put` and `del` that return, with the
records that have been logged since the last flush. -/
inductive Writes (sz : Sizing) (db : DB) (d : Disk) (rs : List WalRecord) :
    List WriteCall → DB → Disk → List WalRecord → Prop
  | nil : Writes sz db d rs [] db d rs
  | snoc {cs : List WriteCall} {c : WriteCall} {db₁ db₂ : DB} {d₁ d₂ : Disk}
      {rs₁ rs₂ : List WalRecord} (h : Writes sz db d rs cs db₁ d₁ rs₁)
      (hs : WriteStep sz db₁ d₁ rs₁ c db₂ d₂ rs₂) : Writes sz db d rs (cs ++ [c]) db₂ d₂ rs₂

/-- What is asked of a call: its strings are short, nothing goes wrong while it is logged unless it
goes on to flush, and if it does, no other segment has records. -/
structure WriteCall.Safe (sz : Sizing) (c : WriteCall) : Prop where
  /-- Strings are short. -/
  short : c.record.IsShort
  /-- Nothing goes wrong. -/
  logs : c.Flushes ∨ LogsWell c.faults (walSegPath c.before.currentWalId) c.record
  /-- Tables can be built, and no other segment has records. -/
  build : c.Flushes → ∀ ev ∈ c.trace,
    OnBuild (fun entries db d ↦ BloomFits sz entries ∧ NoWrap db ∧ NothingStale db d) ev

/-- An open store in order: the segments are complete, and the MemTable is what they make. -/
structure Kept (sz : Sizing) (db : DB) (d : Disk) (C : Contents) (rs : List WalRecord) : Prop
    extends Opened sz db d C where
  /-- The MemTable is what the segments make. -/
  faithful : Faithful db C
  /-- The records are in the segments. -/
  records : C.records = rs

section Kept

variable {sz : Sizing} {db db' db₁ : DB} {d d' d₁ : Disk} {C : Contents} {rs rs' : List WalRecord}
  {r : WalRecord} {F : Faults Mark}

theorem Kept.empty (h : Kept sz db d C []) : db.memtable.empty = true := by
  refine empty_of_layer ?_
  rw [h.faithful.mirror, h.records]
  rfl

/-- **A record that is logged.** -/
theorem Kept.logged (h : Kept sz db d C rs) (hr : r.IsShort) :
    Kept sz (applied r db) (loggedDisk (walSegPath db.currentWalId) r d) (DB.logged db C r)
      (rs ++ [r]) where
  toOpened := h.written r
  faithful := h.faithful.logged h.current hr
  records := by
    obtain ⟨f, hlog⟩ := Option.ne_none_iff_exists'.1 h.active
    obtain ⟨rs₀, hrs₀, rfl⟩ := h.faithful.whole _ f hlog
    obtain ⟨-, -, hrecords⟩ := h.current.logged hrs₀ hlog hr
    rw [DB.logged, hrecords, h.records]

/-- A record that may be torn. -/
theorem Opened.torn (h : Opened sz db d C) (hd : Disk.AgreeOff (walSegPath db.currentWalId) d d₁)
    (hne : d₁[walSegPath db.currentWalId]? ≠ none) (r : WalRecord) :
    Opened sz (applied r db) d₁ (C.setLog db.currentWalId d₁[walSegPath db.currentWalId]?) where
  holds := h.holds.setLog h.wal_lt (hd.agreeBut (.inl rfl)) rfl
  sound := h.sound.setLog (h.next ▸ h.wal_le)
  gen := h.gen
  tables := h.tables
  next := h.next
  wal := h.wal
  active := by
    rw [applied, Contents.setLog_logs_self]
    exact hne
  last id hid := by
    by_cases hw : id = db.currentWalId
    · exact hw.le
    · rw [Contents.setLog_logs_ne _ _ hw] at hid
      exact h.last id hid

/-- What is assumed of builds. -/
def writeWatch (sz : Sizing) : Watch (Call Mark) DB Disk :=
  ⟨OnBuild fun entries db d ↦ BloomFits sz entries ∧ NoWrap db ∧ NothingStale db d, fun _ ↦ True⟩

/-- **A merge** keeps a store in order that has nothing to replay. -/
theorem keeps_kept (sz : Sizing) : Keeps sz (writeWatch sz) fun db d ↦ ∃ C, Kept sz db d C [] where
  idle _ _ _ _ _ _ := trivial
  flushBuild _ _ := trivial
  flush := by
    rintro db d ⟨C, h⟩ hne
    exact absurd (h.empty.symm.trans hne) (by simp)
  merge := by
    rintro db d ⟨C, h⟩ he
    refine ⟨C.tables, h.tables, h.holds.tables.stored, trivial, fun hbuild ↦ ?_⟩
    obtain ⟨hbloom, hwrap, -⟩ := hbuild _ _ rfl
    have hopen := (SSTable.Fits.mk (DB.isShort_cleanOf sz C.tables) hbloom).openable
    have hmerged := h.faithful.merged h.toOpened he
    exact ⟨hopen, fun _ _ ↦ trivial, _, h.toOpened.merged (succ_lt_of_noWrap h.next_lt hwrap) hopen,
      hmerged, hmerged.records_of_empty he⟩

/-- **A write that goes on to flush** leaves a store in order, whatever has become of the record. -/
theorem Kept.wp_flushing (h : Kept sz db d C rs) (hr : r.IsShort)
    (hd : Disk.AgreeOff (walSegPath db.currentWalId) d d₁)
    (hne : d₁[walSegPath db.currentWalId]? ≠ none)
    (hlarge : db.opts.memtableFlushBytes ≤ (applied r db).memtable.bytes) :
    (DB.finishWrite sz r).wp reliable (writeWatch sz) (fun _ db' d' ↦ ∃ C', Kept sz db' d' C' [])
      (fun _ _ _ ↦ False) db d₁ := by
  have ho := h.toOpened.torn hd hne r
  rw [DB.finishWrite, wp_bind, wp_modify]
  refine DB.wp_maybeFlush (fun hsmall ↦ absurd hlarge hsmall) fun _ ↦ ?_
  have hempty : (applied r db).memtable.empty = false := empty_applyRecord _ _
  refine DB.wp_flushMemtableLocked throwing_none hempty trivial fun hbuild ↦ ?_
  obtain ⟨hbloom, hwrap, hstale⟩ := hbuild _ _ rfl
  have hlt := succ_lt_of_noWrap ho.next_lt hwrap
  have hs := (nothingStale_taken_iff ho.holds).1 hstale
  have hmem : (applied r db).memtable.data.IsShort := isShort_applyRecord hr h.faithful.memShort
  have hopen := (SSTable.Fits.mk hmem hbloom).openable
  have hfaithful := Faithful.flushOpen ho.last ho.wal_le hlt hs h.faithful.short hmem
    (fun id f hid hf ↦ h.faithful.whole id f (C.setLog_logs_ne _ hid ▸ hf)) sz
  have hkept : ∃ C',
      Kept sz (flushedDb sz (applied r db)) (flushedDisk sz (applied r db) d₁) C' [] :=
    ⟨_, ho.flushed hlt hopen, hfaithful, hfaithful.records_of_empty rfl⟩
  refine ⟨hopen, fun _ _ ↦ trivial, fun _ _ _ ↦ DB.not_flushThrew_none, ?_⟩
  split
  · exact (keeps_kept sz).wp_compact hkept
  · exact hkept

/-- **A call that is safe** leaves a store in order. -/
theorem Kept.step (h : Kept sz db d C rs) {c : WriteCall} (hc : WriteStep sz db d rs c db' d' rs')
    (hs : c.Safe sz) : ∃ C', Kept sz db' d' C' rs' := by
  obtain ⟨hr, hlog, hfinish⟩ := hc
  rename_i r F tr tr' db₁ d₁
  rw [WriteCall.kept]
  split
  · rename_i hflushes
    have hseg : d[walSegPath db.currentWalId]? ≠ none := by
      rw [h.holds.logs]
      exact h.active
    obtain ⟨rfl, hd, hne⟩ := (hlog.of_wp (fun _ _ ↦ trivial) (wp_logRecord_agreeOff h.wal hseg)).2
    exact (hfinish.of_wp (hs.build hflushes) (h.wp_flushing hs.short hd hne hflushes)).2
  · rename_i hsmall
    have hwp : (DB.logRecord r).wp (device F) .blind (fun _ db' d' ↦
        db' = db ∧ d' = loggedDisk (walSegPath db.currentWalId) r d) (fun _ _ _ ↦ False) db d :=
      wp_logRecord h.wal (hs.logs.resolve_left hsmall) (fun _ _ _ _ _ _ ↦ trivial) ⟨rfl, rfl⟩
    obtain ⟨rfl, rfl⟩ := (hlog.of_wp (fun _ _ ↦ trivial) hwp).2
    have hend : (DB.finishWrite sz r).wp reliable .blind (fun _ db' d' ↦
        db' = applied r db₁ ∧ d' = loggedDisk (walSegPath db₁.currentWalId) r d)
          (fun _ _ _ ↦ False) db₁ (loggedDisk (walSegPath db₁.currentWalId) r d) := by
      rw [DB.finishWrite, wp_bind, wp_modify]
      exact DB.wp_maybeFlush (fun _ ↦ ⟨rfl, rfl⟩) fun hlarge ↦ absurd hlarge hsmall
    obtain ⟨rfl, rfl⟩ := (hfinish.of_wp (fun _ _ ↦ trivial) hend).2
    exact ⟨_, h.logged hs.short⟩

/-- **A sequence of safe calls** leaves a store in order. -/
theorem Kept.writes (h : Kept sz db d C rs) {cs : List WriteCall}
    (hw : Writes sz db d rs cs db' d' rs') (hs : ∀ c ∈ cs, c.Safe sz) :
    ∃ C', Kept sz db' d' C' rs' := by
  induction hw with
  | nil => exact ⟨C, h⟩
  | snoc _ hc ih =>
    rw [List.forall_mem_append] at hs
    obtain ⟨C', h'⟩ := ih hs.1
    exact h'.step hc (hs.2 _ (List.mem_singleton_self _))

end Kept

/-! ## When something goes wrong -/

section Wrong

variable {sz : Sizing} {db : DB} {d d₁ : Disk} {C : Contents} {rs : List WalRecord} {r : WalRecord}
  {F : Faults Mark} {seg : Name}

end Wrong

/-! ## A record that is altered and one that is lost -/

end KeyValStore
