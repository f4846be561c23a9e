import KeyValStore.Faults.Session
import KeyValStore.History.Newest

/-!
# A compaction that fails

Between the building of the merged table and its opening `compact_locked` empties the list of
tables.  When the opening fails the list stays empty, and nothing that is not in the MemTable can be
seen any more (`not_compactionFailsSafely`).  At every other point an exception changes nothing that
can be seen (`compactionFailsSafely`): not now, and not after the next flush, a crash and a
recovery.
-/

set_option autoImplicit false

namespace KeyValStore

open Crash Std
open DB (shown walSegPath sstPath taken)

/-- **A compaction that fails changes nothing that can be seen**: not at once, and not through any
later session that ends with a flush, followed by a crash and a recovery, at the keys that are not
written again.  The store is any that a history, and then a session in which calls may fail, can
reach; `P` is asked of all calls, and `Q` of the operations of the sessions. -/
def CompactionFailsSafely (sz : Sizing) (P : Event (Call Mark) DB Disk → Prop)
    (Q : Attempt → Prop) : Prop :=
  ∀ (hist : List (Label × Trace)) (db₁ db db' : DB) (d₁ d d' : Disk) (as : List Attempt)
    (F : Faults Mark) (tr : Trace) (e : Error), Run sz (.closed ∅) hist (.opened db₁ d₁) →
    (∀ s ∈ hist, Sane sz s ∧ ∀ ev ∈ s.2, P ev) → Session sz db₁ d₁ as db d →
    Exec (device F) (DB.compact sz) db d tr (.threw e db' d') →
    (∀ a ∈ as ++ [⟨.compact, F, tr, some e⟩], a.Sane sz ∧ (∀ ev ∈ a.trace, P ev) ∧ Q a) →
    ∃ v, Answers db d v ∧ Answers db' d' v ∧
      ∀ (as' : List Attempt) (db'' : DB) (d'' : Disk) (F' : Faults Mark) (tr' : Trace),
        Session sz db' d' (as' ++ [⟨.flush, F', tr', none⟩]) db'' d'' →
        (∀ a ∈ as' ++ [⟨.flush, F', tr', none⟩], a.Sane sz ∧ (∀ ev ∈ a.trace, P ev) ∧ Q a) →
        ∃ u, (∀ key, (∀ a ∈ as', a.op.effect key = none) → u key = v key) ∧ Answers db'' d'' u ∧
          ∀ d₃ opts, d''.Crashed d₃ → DB.recover.Returns reliable { opts } d₃ fun _ db₄ d₄ ↦
            Answers db₄ d₄ u

section

variable {sz : Sizing} {db db' : DB} {d d' : Disk}

/-- Every operation of a history but a flush that finds stale records keeps the map. -/
theorem keepsMap_of_run {hist : List (Label × Trace)} {w : World} (hrun : Run sz (.closed ∅) hist w)
    (hhist : ∀ s ∈ hist, Sane sz s ∧ ∀ ev ∈ s.2, OnBuild (fun _ db d ↦ NothingStale db d) ev) :
    w.Readable sz ∧ ∀ db d, w = .opened db d → ∃ v, KeepsMap sz False False v db d := by
  refine hrun.keeps (I := fun _ w ↦ w.Readable sz ∧ ∀ db d, w = .opened db d →
    ∃ v, KeepsMap sz False False v db d) ⟨readable_of_run .nil fun _ h ↦
      absurd h List.not_mem_nil, ?_⟩
    ?_ hhist
  · rintro db d ⟨⟩
  · rintro hist w l tr w' ⟨hread, hmap⟩ hs ⟨hsane, hstale⟩
    refine ⟨hread.step hs hsane, ?_⟩
    rintro db d rfl
    cases hs with
    | opened hx =>
      obtain ⟨C, -, hsound, rfl, h⟩ := hread.exec_recover hx
      exact h.keepsMap hsound
    | @did op _ _ _ _ _ hx =>
      obtain ⟨v, hv⟩ := hmap _ _ rfl
      have hassume : ∀ ev ∈ tr, (faultWatch sz False .none).assume ev := by
        refine fun ev hev ↦ ⟨fun path entries hcall ↦ ?_, fun _ ↦ id⟩
        obtain ⟨hbloom, hwrap⟩ := hsane.build ev hev path entries hcall
        exact ⟨hbloom, hwrap, fun _ ↦ hstale ev hev path entries hcall⟩
      exact ⟨_, (hx.of_wp hassume (hv.wp_run throwing_none id False.elim hsane.short)).2⟩
    | threw hx =>
      obtain ⟨C, h⟩ := hread
      exact (hx.of_wp hsane.build (wp_run_legible h hsane.short)).2.elim

/-- The last operation of a session. -/
theorem Session.of_snoc {as : List Attempt} {op : Op} {F : Faults Mark} {tr : Trace}
    (h : Session sz db d (as ++ [⟨op, F, tr, none⟩]) db' d') :
    ∃ db₁ d₁, Session sz db d as db₁ d₁ ∧
      Exec (device F) (op.run sz) db₁ d₁ tr (.ok () db' d') := by
  generalize hall : as ++ [⟨op, F, tr, none⟩] = all at h
  cases h with
  | nil => simp at hall
  | did h hx =>
    obtain ⟨rfl, heq⟩ := List.append_inj' hall rfl
    cases heq
    exact ⟨_, _, h, hx⟩
  | threw h hx =>
    obtain ⟨rfl, heq⟩ := List.append_inj' hall rfl
    cases heq

end

/-- **It does**, when neither the opening of the merged table nor the renaming of the MANIFEST can
fail, and no flush starts with records in a segment other than the current one. -/
theorem compactionFailsSafely (sz : Sizing) :
    CompactionFailsSafely sz (OnBuild fun _ db d ↦ NothingStale db d) Attempt.Harmless := by
  intro hist db₁ db db' d₁ d d' as F tr e hrun hhist hs hx has
  have hord : ∀ {a : Attempt},
      (a.Sane sz ∧ (∀ ev ∈ a.trace, OnBuild (fun _ db d ↦ NothingStale db d) ev) ∧
      a.Harmless) → a.Ordinary sz False False := fun h ↦ ⟨h.1, h.2.2, False.elim, fun _ ↦ h.2.1⟩
  obtain ⟨v₁, hv₁⟩ := (keepsMap_of_run hrun hhist).2 _ _ rfl
  rw [List.forall_mem_append] at has
  obtain ⟨v, hv, -⟩ := hs.keepsMap hv₁ fun a ha ↦ hord (has.1 a ha)
  have ha := hord (has.2 _ (List.mem_singleton_self _))
  have hv' : KeepsMap sz False False v db' d' :=
    (hx.of_wp ha.assume (hv.wp_compact ha.throwing ha.rename False.elim)).2.1
  refine ⟨v, hv.answers, hv'.answers, fun as' db'' d'' F' tr' hs' has' ↦ ?_⟩
  obtain ⟨db₂, d₂, hs₂, hx'⟩ := hs'.of_snoc
  rw [List.forall_mem_append] at has'
  obtain ⟨u, hu, -, hkeys⟩ := hs₂.keepsMap hv' fun a ha ↦ hord (has'.1 a ha)
  have ha' := hord (has'.2 _ (List.mem_singleton_self _))
  obtain ⟨⟨C, ts, h, -, rfl⟩, he⟩ :=
    (hx'.of_wp ha'.assume (hu.wp_flush ha'.throwing ha'.rename False.elim)).2
  exact ⟨_, hkeys, h.answers, fun d₃ opts hc ↦ h.recover (h.view_of_empty he) hc opts⟩

namespace Snapshot

/-- Two tables, and a write that has not been flushed. -/
def refilled : Snapshot := compacted |>.write older |>.flush .onePercent |>.write newer

/-- **It can be reached** without a record in any segment but the current one when a table is
built. -/
theorem reaches_refilled : Reaches .onePercent Label.IsShort
    (fun entries db d ↦ (BloomFits .onePercent entries ∧ NoWrap db) ∧ NothingStale db d) refilled ∧
    NoStale refilled.db refilled.contents := by
  have hstale : ∀ {s : Snapshot} {d : Disk}, Opened .onePercent s.db d s.contents →
      NoStale s.db s.contents → NothingStale (taken s.db) d := fun {s} {d} ho hs ↦
    (nothingStale_taken_iff ho.holds).2 hs
  have hput : ∀ r ∈ (Op.put [107] [49]).record, r.IsShort := by decide
  have hput' : ∀ r ∈ (Op.put [107] [50]).record, r.IsShort := by decide
  have holder := openable_applyRecord (r := older) (by decide)
  obtain ⟨hreach, hs⟩ := reaches_compacted Label.IsShort
    (P := fun entries db d ↦ (BloomFits .onePercent entries ∧ NoWrap db) ∧
      NothingStale db d) trivial
    (fun _ hop ↦ hop) fun s _ _ ho hs hopen hlt ↦
    ⟨⟨hopen.bloom, noWrap_taken (by omega)⟩, hstale ho hs⟩
  have hwritten := hreach.write (.put [107] [49]) (r := older) rfl (by decide) hput
  have hflushed := hwritten.flush (empty_applyRecord _ _) (by decide) holder
    (fun d ho ↦ ⟨⟨holder.bloom, by decide⟩, hstale ho (hs.logged older)⟩) fun _ h ↦ nomatch h
  exact ⟨hflushed.write (.put [107] [50]) rfl (by decide) hput',
    (hwritten.noStale_flush (by decide) (hs.logged older)).logged newer⟩

end Snapshot

/-- **A compaction throws** when the table of its flush cannot be created. -/
theorem exec_compact_unbuilt {sz : Sizing} {db : DB} {d : Disk} (hlen : ¬db.sstables.length < 2)
    (hne : db.memtable.empty = false) :
    Exec (device (unbuilt (sstPath db.nextSstId))) (DB.compact sz) db d (unbuiltTrace db d)
      (.threw (.sstBuild (sstPath db.nextSstId)) (taken db) d) := by
  rw [DB.compact, DB.compactLocked]
  refine .get ?_
  rw [Prog.bind, if_neg hlen]
  exact (exec_flush_unbuilt hne).bind_threw

/-- An operation in which nothing fails, and no stale records are found. -/
theorem ordinary_reliable {sz : Sizing} {op : Op} {tr : Trace} (hop : ∀ r ∈ op.record, r.IsShort)
    (h : ∀ ev ∈ tr, OnBuild (fun entries db d ↦ (BloomFits sz entries ∧ NoWrap db) ∧
      NothingStale db d) ev) :
    Attempt.Sane sz ⟨op, .none, tr, none⟩ ∧
      (∀ ev ∈ tr, OnBuild (fun _ db d ↦ NothingStale db d) ev) ∧
      Attempt.Harmless ⟨op, .none, tr, none⟩ := by
  obtain ⟨hsane, hharmless, -⟩ := sane_reliable hop fun ev hev ↦
    (h ev hev).mono fun _ _ _ ↦ And.left
  exact ⟨hsane, fun ev hev ↦ (h ev hev).mono fun _ _ _ ↦ And.right, hharmless⟩

/-- **A write and a flush** are possible after a compaction that has only taken a number. -/
theorem exists_session_refilled {d : Disk}
    (ho : Opened .onePercent Snapshot.refilled.db d Snapshot.refilled.contents)
    (hstale : NoStale Snapshot.refilled.db Snapshot.refilled.contents) : ∃ tr₁ tr₂ db' d',
      Session .onePercent (taken Snapshot.refilled.db) d
        ([⟨.put [108] [49], .none, tr₁, none⟩] ++ [⟨.flush, .none, tr₂, none⟩]) db' d' ∧
      ∀ a ∈ [(⟨.put [108] [49], .none, tr₁, none⟩ : Attempt)] ++ [⟨.flush, .none, tr₂, none⟩],
        a.Sane .onePercent ∧ (∀ ev ∈ a.trace, OnBuild (fun _ db d ↦ NothingStale db d) ev) ∧
        a.Harmless := by
  let P : Entries → DB → Disk → Prop := fun entries db d ↦
    (BloomFits .onePercent entries ∧ NoWrap db) ∧ NothingStale db d
  let db₁ := DB.applied Snapshot.other (taken Snapshot.refilled.db)
  -- the record is logged as if the compaction had not been tried
  have hwrite : ((Op.put [108] [49]).run .onePercent).wp reliable (onBuilds P)
      (fun _ db' d' ↦ db' = db₁ ∧
        Opened .onePercent (DB.applied Snapshot.other Snapshot.refilled.db) d'
        (DB.logged Snapshot.refilled.db Snapshot.refilled.contents Snapshot.other))
      (fun _ _ _ ↦ False) (taken Snapshot.refilled.db) d := by
    rw [run_of_record (r := Snapshot.other) rfl]
    refine DB.wp_writeRecord throwing_none ho.wal (DB.walSegPath_ne_tmp _)
      (fun c m d' hc _ ↦ onBuild_of_isPlain hc) ?_
    exact DB.wp_maybeFlush (fun _ ↦ ⟨rfl, ho.written Snapshot.other⟩) fun hlarge ↦
      absurd hlarge (by decide)
  obtain ⟨tr₁, _, d₁, hx₁, htr₁, rfl, ho₁⟩ := exists_exec hwrite
  have hopen : SSTable.Openable .onePercent db₁.memtable.data := by
    have hsize : (DB.applyRecord Snapshot.newer {}).data.size ≤ 1 :=
      size_applyRecord_le Snapshot.newer {}
    exact openable_of_size_le (isShort_applyRecord (by decide) (isShort_applyRecord (by decide)
      Entries.isShort_empty)) ((size_applyRecord_le Snapshot.other _).trans
        (Nat.succ_le_succ (hsize.trans (by decide))))
  have hbuild : P db₁.memtable.data (taken db₁) d₁ := ⟨⟨hopen.bloom, by decide⟩,
    (nothingStale_taken_iff ho₁.holds).2 (hstale.logged Snapshot.other)⟩
  obtain ⟨tr₂, db', d', hx₂, htr₂, -⟩ := exists_exec (P := P) (Q := fun _ _ _ ↦ True)
    (wp_flush_onBuilds (empty_applyRecord _ _) hopen hbuild trivial)
  have hput : ∀ r ∈ (Op.put [108] [49]).record, r.IsShort := by decide
  have hflush : ∀ r ∈ Op.flush.record, r.IsShort := fun r hr ↦ nomatch hr
  refine ⟨tr₁, tr₂, db', d', @Session.did _ _ _ _ .flush _ _ _ _ _ _ (.did .nil hx₁) hx₂, ?_⟩
  rw [List.forall_mem_append]
  exact ⟨List.forall_mem_singleton.2 (ordinary_reliable hput htr₁),
    List.forall_mem_singleton.2 (ordinary_reliable hflush htr₂)⟩

/-- The flush of a compaction throws; a write and a flush follow. -/
theorem compactionFailsSafely_refilled : ∃ (d : Disk) (as : List Attempt) (db' : DB) (d' : Disk)
    (v u : Bytes → Option Bytes),
    (∃ hist, Run .onePercent (.closed ∅) hist (.opened Snapshot.refilled.db d)) ∧
    Exec (device (unbuilt (sstPath Snapshot.refilled.db.nextSstId))) (DB.compact .onePercent)
      Snapshot.refilled.db d (unbuiltTrace Snapshot.refilled.db d)
      (.threw (.sstBuild (sstPath Snapshot.refilled.db.nextSstId)) (taken Snapshot.refilled.db) d) ∧
    Session .onePercent (taken Snapshot.refilled.db) d as db' d' ∧
    as.map (·.op) = [.put [108] [49], .flush] ∧ as.map (·.threw) = [none, none] ∧
    Answers Snapshot.refilled.db d v ∧ Answers (taken Snapshot.refilled.db) d v ∧
    u [107] = v [107] ∧ Answers db' d' u ∧
    ∀ d₃ opts, d'.Crashed d₃ →
      DB.recover.Returns reliable { opts } d₃ fun _ db₄ d₄ ↦ Answers db₄ d₄ u := by
  obtain ⟨⟨hist, d, hrun, hmeets, ho⟩, hstale⟩ := Snapshot.reaches_refilled
  have hlen : ¬Snapshot.refilled.db.sstables.length < 2 := by decide
  have hmem : SSTable.Openable .onePercent Snapshot.refilled.db.memtable.data :=
    Snapshot.openable_applyRecord (by decide)
  have hx := @exec_compact_unbuilt .onePercent _ d hlen (empty_applyRecord _ _)
  obtain ⟨hsane, hharmless, -⟩ := @sane_unbuilt .onePercent .compact
    (.sstBuild (sstPath Snapshot.refilled.db.nextSstId)) Snapshot.refilled.db d rfl
    ⟨hmem.bloom, by decide⟩
  have hnothing : NothingStale (taken Snapshot.refilled.db) d :=
    (nothingStale_taken_iff ho.holds).2 hstale
  obtain ⟨v, hv, hv', hlater⟩ := compactionFailsSafely .onePercent hist _ _ _ d d d [] _ _ _ hrun
    (fun s hs ↦
      ⟨⟨(hmeets s hs).label, fun ev hev ↦ ((hmeets s hs).build ev hev).mono fun _ _ _ ↦ And.left⟩,
      fun ev hev ↦ ((hmeets s hs).build ev hev).mono fun _ _ _ ↦ And.right⟩) .nil hx
    (List.forall_mem_singleton.2 ⟨hsane, onBuild_unbuiltTrace hnothing, hharmless⟩)
  obtain ⟨tr₁, tr₂, db', d', hs, has⟩ := exists_session_refilled ho hstale
  obtain ⟨u, hkeys, hu, hrecover⟩ := hlater _ db' d' .none tr₂ hs has
  exact ⟨d, _, db', d', v, u, ⟨hist, hrun⟩, hx, hs, rfl, rfl, hv, hv',
    hkeys [107] (List.forall_mem_singleton.2 rfl), hu, hrecover⟩

/-! ## The table that cannot be opened -/

section Unopened

variable {sz : Sizing} {db : DB} {d : Disk}

/-- **A compaction throws** when the merged table cannot be opened; nothing else has that name. -/
theorem wp_compact_unopened (hlen : ¬db.sstables.length < 2) (he : db.memtable.empty = true)
    (hpath : ∀ t ∈ db.sstables, t.path ≠ sstPath db.nextSstId) :
    (DB.compactLocked sz).wp (failing (.readFile (sstPath db.nextSstId)))
      ⟨fun _ ↦ True, fun ev ↦ ev.call = .readFile (sstPath db.nextSstId) → ev.mem.sstables = []⟩
      (fun _ _ _ ↦ False) (fun _ _ _ ↦ True) db d := by
  have hscan : (DB.mergeTables db.sstables.reverse ∅).Silent fun c ↦
      c ≠ .readFile (sstPath db.nextSstId) :=
    DB.silent_mergeTables (fun t ht heq ↦ hpath t (List.mem_reverse.1 ht) (Call.readFile.inj heq)) _
  have hbuild : ∀ entries, (SSTable.build sz (sstPath db.nextSstId) entries : Io DB Unit).Silent
      fun c ↦ c ≠ .readFile (sstPath db.nextSstId) := fun entries ↦
    SSTable.silent_build (by rintro _ hc rfl; exact hc) sz entries (by rintro ⟨⟩)
  rw [DB.compactLocked, wp_bind, Crash.wp_get, if_neg hlen, wp_bind,
    DB.flushMemtableLocked, wp_bind, Crash.wp_get, he]
  show Prog.wp _ _ _ _ (DB.merge sz) db d
  rw [DB.merge, wp_bind, Crash.wp_get, wp_bind]
  refine wp_silent (I := fun _ ↦ True) hscan (fun _ _ _ _ _ _ _ ↦ trivial)
    (fun c d hc _ h ↦ absurd h hc)
    trivial (fun merged d _ ↦ ?_) fun _ _ _ ↦ trivial
  rw [DB.mergeRest, wp_bind, Crash.wp_get, wp_bind, wp_modify, wp_bind]
  refine wp_silent (I := fun _ ↦ True) (hbuild _) (fun _ _ _ _ _ _ _ ↦ trivial)
    (fun c d hc _ h ↦ absurd h hc) trivial (fun _ d _ ↦ ?_) fun _ _ _ ↦ trivial
  rw [wp_bind, wp_modify, wp_bind, SSTable.open, wp_bind]
  refine ⟨fun _ ↦ rfl, fun _ r d' hs ↦ ?_⟩
  obtain rfl : r = none := hs.2 rfl
  trivial

theorem exists_compact_throws {P : Entries → DB → Disk → Prop} {C : Contents}
    (ho : Opened sz db d C) (hlen : ¬db.sstables.length < 2) (he : db.memtable.empty = true)
    (hopen : SSTable.Openable sz (DB.cleanOf sz C.tables))
    (hP : P (DB.cleanOf sz C.tables) (taken db) d) :
    ∃ tr e db' d', Exec (device ⟨(· = .readFile (sstPath db.nextSstId)), fun _ ↦ False⟩)
      (DB.compact sz) db d tr (.threw e db' d') ∧
      (∀ ev ∈ tr, ev.call = .readFile (sstPath db.nextSstId) → ev.mem.sstables = []) ∧
      (∀ ev ∈ tr, OnBuild P ev) ∧ db'.sstables = [] ∧ db'.memtable = db.memtable := by
  have hF : Throwing (⟨(· = .readFile (sstPath db.nextSstId)), fun _ ↦ False⟩ : Faults Mark) :=
    ⟨fun _ h ↦ h.elim, by rintro f ⟨⟩, by rintro a b ⟨⟩, by rintro n ⟨⟩⟩
  have hpath : ∀ t ∈ C.tables, sstPath t.1 ≠ sstPath db.nextSstId := fun t ht heq ↦
    ho.fresh t ht (DB.sstPath_inj.1 heq)
  have hpath' : ∀ t ∈ db.sstables, t.path ≠ sstPath db.nextSstId := by
    intro t ht
    rw [ho.tables] at ht
    obtain ⟨t', ht', rfl⟩ := List.mem_map.1 ht
    exact hpath t' ht'
  refine exists_throws (wp_compact_unopened hlen he hpath') (DB.wp_compactLocked hlen ?_)
  refine DB.wp_flushMemtableLocked_empty he
    (DB.wp_merge hF (fun t ht _ hf ↦ hpath t ht (Call.readFile.inj hf))
    ho.tables ho.holds.tables.stored (fun c m d' hc _ ↦ onBuild_of_isPlain hc)
    (onBuild_buildEvent hP) fun _ ↦
    ⟨hopen, fun _ hev ↦ onBuild_mergeEvent hev, fun e db' d' ht _ ↦ ?_, trivial⟩)
  cases ht with
  | build hf => cases hf
  | «open» hf => exact ⟨rfl, rfl⟩
  | manifest _ hf _ => rcases hf with hf | ⟨_, hf⟩ | hf <;> cases hf

end Unopened

namespace Snapshot

/-- Three tables, of which the newest and the oldest know the key. -/
def layered : Snapshot := counted 1 |>.write newer |>.flush .onePercent

theorem counted_layered : Counted 1 (counted 1) :=
  (reaches_counted (fun _ ↦ True) (P := fun _ _ _ ↦ True) trivial (fun _ _ ↦ trivial)
    (fun _ _ _ _ _ ↦ trivial) 1 (by decide)).2

theorem openable_layered :
    SSTable.Openable .onePercent (DB.cleanOf .onePercent layered.contents.tables) := by
  have htables : layered.contents.tables =
      (2, (DB.applyRecord newer {}).data) :: (counted 1).contents.tables := rfl
  rw [htables, cleanOf_counted counted_layered (by decide)]
  have hsize : (DB.applyRecord other {}).data.size ≤ 1 := size_applyRecord_le other {}
  refine openable_of_size_le (isShort_applyRecord (by decide) (isShort_applyRecord (by decide)
    Entries.isShort_empty)) ((size_applyRecord_le newer _).trans (by omega))

theorem reaches_layered (ok : Label → Prop) {P : Entries → DB → Disk → Prop}
    (hopen : ok (.opened {})) (hdid : ∀ op : Op, (∀ r ∈ op.record, r.IsShort) → ok (.did op))
    (hP : ∀ entries db d, SSTable.Openable .onePercent entries → NoWrap db → P entries db d) :
    Reaches .onePercent ok P layered := by
  have hnew := openable_applyRecord (r := newer) (by decide)
  obtain ⟨hreach, -⟩ := reaches_counted ok hopen hdid hP 1 (by decide)
  exact (hreach.write (.put [107] [50]) rfl (by decide) (hdid _ (by decide))).flush
    (empty_applyRecord _ _) (by decide) hnew (fun d _ ↦ hP _ _ _ hnew (by decide))
    (hdid .flush fun _ h ↦ nomatch h)

end Snapshot

/-- **Nothing can be seen** after the merged table could not be opened. -/
theorem not_compactionFailsSafely :
    ¬CompactionFailsSafely .onePercent (fun _ ↦ True) fun _ ↦ True := by
  intro h
  let P : Entries → DB → Disk → Prop := fun entries db _ ↦ BloomFits .onePercent entries ∧ NoWrap db
  obtain ⟨hist, d, hrun, hmeets, ho⟩ := Snapshot.reaches_layered Label.IsShort (P := P) trivial
    (fun _ hop ↦ hop) fun _ _ _ hopen hwrap ↦ ⟨hopen.bloom, hwrap⟩
  have hopen := Snapshot.openable_layered
  obtain ⟨tr, e, db', d', hx, hread, hbuild, hnil, hmem⟩ := exists_compact_throws
    (P := P) ho (by decide) ExtTreeMap.isEmpty_empty hopen ⟨hopen.bloom, by decide⟩
  let F : Faults Mark := ⟨(· = .readFile (sstPath Snapshot.layered.db.nextSstId)), fun _ ↦ False⟩
  have hsane : (⟨.compact, F, tr, some e⟩ : Attempt).Sane .onePercent := by
    refine ⟨(fun r hr ↦ nomatch hr), hbuild, ?_, fun ev hev _ hne hf ↦ hne (hread ev hev hf)⟩
    exact ⟨fun _ h ↦ h.elim, by rintro f ⟨⟩, by rintro a b ⟨⟩, by rintro n ⟨⟩⟩
  obtain ⟨v, hv, hv', -⟩ := h hist _ _ db' d d d' [] _ tr e hrun
    (fun s hs ↦ ⟨⟨(hmeets s hs).label, (hmeets s hs).build⟩, fun _ _ ↦ trivial⟩) .nil hx
    (List.forall_mem_singleton.2 ⟨hsane, fun _ _ ↦ trivial, trivial⟩)
  -- before the compaction the key is there
  have htables : Snapshot.layered.contents.tables =
      (2, (DB.applyRecord Snapshot.newer {}).data) :: (Snapshot.counted 1).contents.tables := rfl
  have hshort : ∀ t ∈ Snapshot.layered.contents.tables, t.2.IsShort := by
    rw [htables]
    exact List.forall_mem_cons.2 ⟨isShort_applyRecord (by decide) Entries.isShort_empty,
      Snapshot.isShort_counted Snapshot.counted_layered⟩
  have hbefore : v [107] = some [50] := by
    rw [hv.unique (answers_shown ho.tables ho.holds.tables.stored hshort)]
    have hempty : Snapshot.layered.db.memtable.data = ∅ := rfl
    rw [htables, hempty, shown_flush, shown_applyRecord]
    rfl
  -- afterwards nothing is
  have hafter : v [107] = none := by
    have hshown := @answers_shown .onePercent _ d' [] hnil
      (fun _ ht ↦ absurd ht List.not_mem_nil) fun _ ht ↦ absurd ht List.not_mem_nil
    rw [hv'.unique hshown, hmem]
    rfl
  rw [hbefore] at hafter
  cases hafter

end KeyValStore
