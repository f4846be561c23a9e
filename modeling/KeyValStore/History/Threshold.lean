import KeyValStore.History.Atomic
import KeyValStore.Session.Silent

/-!
# How many tables there are

The number of tables is looked at by `maybe_flush` only, after the flushes it makes itself.  It is
below the threshold after such a flush, whatever the calls did (`sstableCount_lt_iff`); a flush that
is asked for, or made by the destructor, can leave as many tables as one likes.

Nothing here depends on the directory: all that matters is what a flush and a compaction do to the
object, and most of what they call leaves it alone (`Prog.Silent`).
-/

set_option autoImplicit false

namespace KeyValStore

open Crash Std

/-- A call that does not end a flush. -/
def NotFlushed (c : Call Mark) : Prop := c ≠ .mark .flushed

/-- A MemTable has been flushed. -/
def Flushes (tr : Trace) : Prop := ∃ ev ∈ tr, ev.call = .mark .flushed

/-- What can be done with an open store: an operation, or closing it. -/
inductive Action
  | op (o : Op)
  | close

namespace Action

/-- The program of an action. -/
def run (sz : Sizing) : Action → Io DB Unit
  | op o => o.run sz
  | close => DB.close sz

/-- The actions that flush without looking at the number of tables. -/
def Unchecked : Action → Prop
  | op .flush => True
  | close => True
  | _ => False

end Action

theorem notFlushed_of_callOn {f : Name} : ∀ c, CallOn f c → NotFlushed c := by
  rintro c hc rfl
  exact hc

/-! ## Counting -/

section Count

variable {D : Device (@Reply Mark) Disk} {W : Watch (Call Mark) DB Disk} {sz : Sizing} {db : DB}
  {d : Disk} {Q : Unit → DB → Disk → Prop}

/-- What has to be shown of a call is shown of all that do not end a flush. -/
def Idle (W : Watch (Call Mark) DB Disk) : Prop := ∀ c m d, NotFlushed c → W.always ⟨c, m, d⟩

/-- A silent program that may throw. -/
theorem wp_pass {α : Type} {p : Io DB α} {Q : α → DB → Disk → Prop} (hW : Idle W)
    (hp : p.Silent NotFlushed) (hQ : ∀ a d, Q a db d) :
    p.wp D W Q (fun _ _ _ ↦ True) db d :=
  wp_silent (I := fun _ ↦ True) hp (fun _ _ _ _ _ _ _ ↦ trivial)
    (fun c d hc _ ↦ hW c db d hc) trivial (fun a d _ ↦ hQ a d) fun _ _ _ ↦ trivial

theorem wp_resetWal_count (hW : Idle W) (h : ∀ d, Q () { db with wal := none } d) :
    DB.resetWal.wp D W Q (fun _ _ _ ↦ True) db d := by
  rw [DB.resetWal, wp_bind, Crash.wp_get]
  cases db.wal with
  | none => exact h d
  | some f =>
    rw [wp_bind]
    exact wp_pass hW (WAL.silent_close (by rintro ⟨⟩) (by rintro ⟨⟩)) fun _ d ↦ h d

theorem wp_updateManifestLocked_count (hW : Idle W)
    (h : ∀ g d, Q () { db with manifestGen := g } d) :
    DB.updateManifestLocked.wp D W Q (fun _ _ _ ↦ True) db d := by
  rw [DB.updateManifestLocked, wp_bind, wp_modify, wp_bind, Crash.wp_get]
  exact wp_pass hW (Manifest.silent_write _ notFlushed_of_callOn (by rintro ⟨⟩) (by rintro ⟨⟩))
    fun _ d ↦ h _ d

/-- **A flush adds a table**, if there is anything to flush. -/
theorem wp_flush_count (hW : Idle W) (hempty : db.memtable.empty = true → Q () db d)
    (hmark : db.memtable.empty = false → ∀ m d, W.always ⟨.mark .flushed, m, d⟩)
    (hok : db.memtable.empty = false → ∀ m d d', W.assume ⟨.mark .flushed, m, d⟩ →
      m.opts = db.opts → m.memtable.empty = true →
      m.sstables.length = db.sstables.length + 1 → Q () m d') :
    (DB.flushMemtableLocked sz).wp D W Q (fun _ _ _ ↦ True) db d := by
  rw [DB.flushMemtableLocked, wp_bind, Crash.wp_get]
  cases he : db.memtable.empty with
  | true => exact hempty he
  | false =>
    simp only [Bool.false_eq_true, if_false]
    rw [wp_bind, wp_modify, wp_bind]
    refine wp_pass hW (SSTable.silent_build notFlushed_of_callOn _ _ (by rintro ⟨⟩)) fun _ d ↦ ?_
    rw [wp_bind]
    refine wp_pass hW (SSTable.silent_open (by rintro ⟨⟩)) fun table d ↦ ?_
    rw [wp_bind, wp_modify, wp_bind]
    refine wp_updateManifestLocked_count hW fun g d ↦ ?_
    rw [wp_bind, Crash.wp_get, wp_bind]
    refine wp_resetWal_count hW fun d ↦ ?_
    rw [wp_bind]
    refine wp_pass hW (silent_call (by rintro ⟨⟩)) fun _ d ↦ ?_
    rw [wp_bind, wp_modify, wp_bind, Crash.wp_get, wp_bind]
    refine wp_pass hW (WAL.silent_open (by rintro ⟨⟩)) fun wal d ↦ ?_
    rw [wp_bind, wp_modify, wp_bind, wp_modify, wp_bind]
    refine wp_pass hW (silent_call (by rintro ⟨⟩)) fun _ d ↦ ?_
    exact ⟨hmark he _ _, fun hA _ d' _ ↦ hok he _ _ d' hA rfl ExtTreeMap.isEmpty_empty rfl⟩

/-- **A compaction leaves one table**, if there were two. -/
theorem wp_compact_count (hW : Idle W) (hfew : db.sstables.length < 2 → Q () db d)
    (hmark : ¬db.sstables.length < 2 → db.memtable.empty = false →
      ∀ m d, W.always ⟨.mark .flushed, m, d⟩)
    (hok : ¬db.sstables.length < 2 → ∀ m d', m.opts = db.opts → m.sstables.length = 1 → Q () m d') :
    (DB.compactLocked sz).wp D W Q (fun _ _ _ ↦ True) db d := by
  rw [DB.compactLocked, wp_bind, Crash.wp_get]
  by_cases hlen : db.sstables.length < 2
  · rw [if_pos hlen]
    exact hfew hlen
  have hmerge : ∀ m d, m.opts = db.opts → (DB.merge sz).wp D W Q (fun _ _ _ ↦ True) m d := by
    intro m d hopts
    rw [DB.merge, wp_bind, Crash.wp_get, wp_bind]
    refine wp_pass hW (DB.silent_mergeTables (fun _ _ ↦ by rintro ⟨⟩) _) fun merged d ↦ ?_
    rw [DB.mergeRest, wp_bind, Crash.wp_get, wp_bind, wp_modify, wp_bind]
    refine wp_pass hW (SSTable.silent_build notFlushed_of_callOn _ _ (by rintro ⟨⟩)) fun _ d ↦ ?_
    rw [wp_bind, wp_modify, wp_bind]
    refine wp_pass hW (SSTable.silent_open (by rintro ⟨⟩)) fun table d ↦ ?_
    rw [wp_bind, wp_modify, wp_bind]
    refine wp_updateManifestLocked_count hW fun g d ↦ ?_
    exact wp_pass hW (silent_forM fun _ _ ↦ silent_call (by rintro ⟨⟩)) fun _ d ↦
      hok hlen _ d hopts rfl
  rw [if_neg hlen, wp_bind]
  exact wp_flush_count hW (fun _ ↦ hmerge db d rfl) (hmark hlen) fun _ m _ d _ hopts _ _ ↦
    hmerge m d hopts

/-- **A write leaves fewer tables than the threshold** if it flushes. -/
theorem wp_write_count {r : WalRecord} (hW : Idle W) (hT : 2 ≤ db.opts.compactionThreshold)
    (hsmall : ¬db.opts.memtableFlushBytes ≤ (DB.applied r db).memtable.bytes →
      ∀ d, Q () (DB.applied r db) d)
    (hmark : db.opts.memtableFlushBytes ≤ (DB.applied r db).memtable.bytes →
      ∀ m d, W.always ⟨.mark .flushed, m, d⟩)
    (hok : ∀ m d, m.sstables.length < db.opts.compactionThreshold → Q () m d) :
    (DB.writeRecord sz r).wp D W Q (fun _ _ _ ↦ True) db d := by
  have hne : (DB.applied r db).memtable.empty = false := empty_applyRecord r db.memtable
  rw [DB.writeRecord, wp_bind, DB.logRecord, wp_bind, DB.activeWal, wp_bind, Crash.wp_get]
  cases db.wal with
  | none => trivial
  | some f =>
    rw [wp_pure, wp_bind]
    refine wp_pass hW (WAL.silent_append notFlushed_of_callOn _ _ _) fun _ d ↦ ?_
    refine wp_pass hW (WAL.silent_sync (by rintro ⟨⟩) (by rintro ⟨⟩)) fun _ d ↦ ?_
    rw [DB.finishWrite, wp_bind, wp_modify, DB.maybeFlush, wp_bind, Crash.wp_get, wp_ite]
    split
    · rename_i hlarge
      rw [wp_bind]
      refine wp_flush_count hW (fun he ↦ absurd he (by rw [hne]; decide)) (fun _ ↦ hmark hlarge)
        fun _ m _ d _ hopts he hlen ↦ ?_
      rw [wp_bind, Crash.wp_get, wp_ite, hopts]
      split
      · rename_i hmany
        refine wp_compact_count hW (fun hfew ↦ absurd (hT.trans hmany) hfew.not_ge)
          (fun _ hne' ↦ absurd hne' (by rw [he]; decide)) fun _ m d _ hone ↦ hok m d ?_
        rw [hone]
        exact hT
      · rename_i hfew
        exact hok m d (Nat.lt_of_not_le hfew)
    · rename_i hlarge
      exact hsmall hlarge d

/-- **A close adds a table**, if there is anything to flush. -/
theorem wp_close_count (hW : Idle W)
    (hempty : db.memtable.empty = true → ∀ d, Q () { db with wal := none } d)
    (hmark : db.memtable.empty = false → ∀ m d, W.always ⟨.mark .flushed, m, d⟩)
    (hok : db.memtable.empty = false → ∀ m d, m.sstables.length = db.sstables.length + 1 →
      Q () m d) :
    (DB.close sz).wp D W Q (fun _ _ _ ↦ True) db d := by
  rw [DB.close, wp_bind, Crash.wp_get]
  cases he : db.memtable.empty with
  | true => exact wp_resetWal_count hW (hempty he)
  | false =>
    simp only [Bool.not_false, if_true]
    rw [wp_bind]
    exact wp_flush_count hW (fun he' ↦ absurd he' (by rw [he]; decide)) hmark
      fun _ m _ d _ _ _ hlen ↦ wp_resetWal_count hW fun d ↦ hok he _ d hlen

end Count

/-! ## The threshold -/

/-- The action is completed in some history of clean sessions, and flushes. -/
def Happens (sz : Sizing) (a : Action) (db db' : DB) : Prop :=
  ∃ hist d tr d', Run sz (.closed ∅) hist (.opened db d) ∧ (∀ s ∈ hist, s.1.IsClean) ∧
    Exec reliable (a.run sz) db d tr (.ok () db' d') ∧ Flushes tr

/-- The watch of a run that flushes: it does so only where `R` holds. -/
def flushWatch (R : Prop) : Watch (Call Mark) DB Disk :=
  ⟨fun _ ↦ True, fun ev ↦ ev.call = .mark .flushed → R⟩

theorem idle_flushWatch (R : Prop) : Idle (flushWatch R) := fun _ _ _ hc h ↦ absurd h hc

section Threshold

variable {sz : Sizing} {db db' : DB} {d d' : Disk} {tr : Trace}

/-- What holds of a run that returns if it flushes. -/
theorem of_flushes {p : Io DB Unit} {R : Prop} {Q : DB → Prop}
    (hx : Exec reliable p db d tr (.ok () db' d')) (hf : Flushes tr)
    (hwp : p.wp reliable (flushWatch R) (fun _ m _ ↦ R → Q m) (fun _ _ _ ↦ True) db d) : Q db' := by
  obtain ⟨hw, hQ⟩ := hx.of_wp (fun _ _ ↦ trivial) hwp
  obtain ⟨ev, hev, hcall⟩ := hf
  exact hQ (hw ev hev hcall)

/-- A flush of a MemTable that is not empty is recorded. -/
theorem flushes_of_exec (hne : db.memtable.empty = false)
    (hx : Exec reliable (DB.flushMemtableLocked sz) db d tr (.ok () db' d')) : Flushes tr := by
  by_contra hno
  let W : Watch (Call Mark) DB Disk := ⟨fun ev ↦ ev.call ≠ .mark .flushed, fun _ ↦ True⟩
  have hwp : (DB.flushMemtableLocked sz).wp reliable W (fun _ _ _ ↦ False)
      (fun _ _ _ ↦ True) db d :=
    wp_flush_count (fun _ _ _ _ ↦ trivial) (fun he ↦ absurd he (by rw [hne]; decide))
      (fun _ _ _ ↦ trivial) fun _ _ _ _ hA ↦ absurd rfl hA
  exact (hx.of_wp (fun ev hev hcall ↦ hno ⟨ev, hev, hcall⟩) hwp).2

/-- A flush that is asked for adds a table. -/
theorem length_of_flush (hx : Exec reliable (DB.flushMemtableLocked sz) db d tr (.ok () db' d'))
    (hf : Flushes tr) : db'.sstables.length = db.sstables.length + 1 :=
  of_flushes (R := db.memtable.empty = false) hx hf <|
    wp_flush_count (idle_flushWatch _) (fun he hne ↦ absurd he (by rw [hne]; decide))
      (fun hne _ _ _ ↦ hne) fun _ _ _ _ _ _ _ hlen _ ↦ hlen

/-- So does the destructor. -/
theorem length_of_close (hx : Exec reliable (DB.close sz) db d tr (.ok () db' d'))
    (hf : Flushes tr) : db'.sstables.length = db.sstables.length + 1 :=
  of_flushes (R := db.memtable.empty = false) hx hf <|
    wp_close_count (idle_flushWatch _) (fun he _ hne ↦ absurd he (by rw [hne]; decide))
      (fun hne _ _ _ ↦ hne) fun _ _ _ hlen _ ↦ hlen

/-- A compaction that flushes leaves one table. -/
theorem length_of_compact (hx : Exec reliable (DB.compact sz) db d tr (.ok () db' d'))
    (hf : Flushes tr) : db'.sstables.length = 1 :=
  of_flushes (R := ¬db.sstables.length < 2) hx hf <|
    wp_compact_count (idle_flushWatch _) (fun hfew hmany ↦ absurd hfew hmany)
      (fun hmany _ _ _ _ ↦ hmany) fun _ _ _ _ hone _ ↦ hone

/-- A write that flushes leaves fewer tables than the threshold. -/
theorem length_of_write {op : Op} {r : WalRecord} (hr : op.record = some r)
    (hT : 2 ≤ db.opts.compactionThreshold) (hx : Exec reliable (op.run sz) db d tr (.ok () db' d'))
    (hf : Flushes tr) : db'.sstables.length < db.opts.compactionThreshold := by
  rw [run_of_record hr] at hx
  exact of_flushes (R := db.opts.memtableFlushBytes ≤ (DB.applied r db).memtable.bytes) hx hf <|
    wp_write_count (idle_flushWatch _) hT (fun hsmall _ hlarge ↦ absurd hlarge hsmall)
      (fun hlarge _ _ _ ↦ hlarge) fun _ _ hlt _ ↦ hlt

end Threshold

/-- **When the number of tables stays below the threshold**: after an action that flushes there are
fewer tables, unless it is a flush that is asked for, or a close, and one table more is too many. -/
theorem sstableCount_lt_iff {sz : Sizing} {a : Action} {db db' : DB} (h : Happens sz a db db')
    (hT : 2 ≤ db.opts.compactionThreshold) :
    (DB.stats db').sstableCount < db.opts.compactionThreshold ↔
      ¬(a.Unchecked ∧ db.opts.compactionThreshold ≤ (DB.stats db).sstableCount + 1) := by
  obtain ⟨hist, d, tr, d', -, -, hx, hf⟩ := h
  rw [DB.stats, DB.stats]
  have hchecked : db'.sstables.length < db.opts.compactionThreshold → ¬a.Unchecked →
      (db'.sstables.length < db.opts.compactionThreshold ↔
        ¬(a.Unchecked ∧ db.opts.compactionThreshold ≤ db.sstables.length + 1)) := fun hlt ha ↦
    iff_of_true hlt fun hc ↦ ha hc.1
  have hadds : db'.sstables.length = db.sstables.length + 1 → a.Unchecked →
      (db'.sstables.length < db.opts.compactionThreshold ↔
        ¬(a.Unchecked ∧ db.opts.compactionThreshold ≤ db.sstables.length + 1)) := by
    intro hlen ha
    rw [hlen, not_and]
    exact ⟨fun hlt _ ↦ Nat.not_le_of_gt hlt, fun h ↦ Nat.lt_of_not_le (h ha)⟩
  cases a with
  | close => exact hadds (length_of_close hx hf) trivial
  | op o =>
    cases o with
    | put key value =>
        exact hchecked (length_of_write (rfl : (Op.put key value).record = _) hT hx hf) id
    | del key => exact hchecked (length_of_write (rfl : (Op.del key).record = _) hT hx hf) id
    | flush => exact hadds (length_of_flush hx hf) trivial
    | compact => exact hchecked ((length_of_compact hx hf).trans_lt hT) id

/-- Some flush happens that leaves `n + 2` tables. -/
theorem exists_happens (n : ℕ) (hn : n + 2 < 2 ^ 64) :
    ∃ db db', Happens .onePercent (.op .flush) db db' ∧
    db.opts = {} ∧ (DB.stats db).sstableCount = n + 1 := by
  obtain ⟨⟨hist, d, hrun, hmeets, ho⟩, hcounted⟩ := Snapshot.reaches_counted Label.IsClean
    (P := fun _ _ _ ↦ True) trivial (fun _ _ ↦ trivial) (fun _ _ _ _ _ ↦ trivial) n (by omega)
  have hnext := hcounted.next
  obtain ⟨-, hbytes, hopen, hne⟩ := hcounted.write
  obtain ⟨tr₁, _, d₁, hx₁, htr₁, rfl, ho₁⟩ := exists_exec (P := fun _ _ _ ↦ True)
    (Snapshot.wp_write (r := Snapshot.other) ho (.put [108] [49]) rfl hbytes)
  have hlt : ((Snapshot.counted n).write Snapshot.other).db.nextSstId + 1 < 2 ^ 64 := by
    show (Snapshot.counted n).db.nextSstId + 1 < 2 ^ 64
    omega
  obtain ⟨tr₂, db', d₂, hx₂, htr₂, -⟩ := exists_exec (P := fun _ _ _ ↦ True)
    (Snapshot.wp_flush ho₁ hne hlt hopen trivial)
  refine ⟨_, db', ⟨_, _, tr₂, d₂, .snoc hrun (.did hx₁), ?_, hx₂, flushes_of_exec hne hx₂⟩,
    hcounted.opts, ?_⟩
  · rw [List.forall_mem_append]
    exact ⟨fun s hs ↦ (hmeets s hs).label, List.forall_mem_singleton.2 trivial⟩
  · obtain ⟨ts, hts, hlen, -⟩ := hcounted.tables
    have htables : ((Snapshot.counted n).write Snapshot.other).db.sstables =
        DB.tables .onePercent (Snapshot.counted n).contents.tables := ho.tables
    rw [DB.stats, htables, DB.length_tables, hts, List.length_append, hlen, List.length_singleton]

/-- With two tables, one more is not too many. -/
theorem sstableCount_lt_of_two : ∃ db db', Happens .onePercent (.op .flush) db db' ∧
    (DB.stats db').sstableCount < db.opts.compactionThreshold := by
  obtain ⟨db, db', h, hopts, hcount⟩ := exists_happens 1 (by omega)
  refine ⟨db, db', h, (sstableCount_lt_iff h (by rw [hopts]; decide)).2 ?_⟩
  rw [hopts, hcount]
  rintro ⟨-, hle⟩
  exact absurd hle (by decide)

/-- **The threshold is reached** when the fourth table is flushed explicitly. -/
theorem exists_not_sstableCount_lt : ∃ db db', Happens .onePercent (.op .flush) db db' ∧
    2 ≤ db.opts.compactionThreshold ∧
      ¬(DB.stats db').sstableCount < db.opts.compactionThreshold := by
  obtain ⟨db, db', h, hopts, hcount⟩ := exists_happens 2 (by omega)
  have hlen : (DB.stats db').sstableCount = (DB.stats db).sstableCount + 1 := by
    obtain ⟨hist, d, tr, d', -, -, hx, hf⟩ := h
    exact length_of_flush hx hf
  refine ⟨db, db', h, by rw [hopts]; decide, ?_⟩
  rw [hlen, hcount, hopts]
  decide

end KeyValStore
