import KeyValStore.History.Inventory

/-!
# What every history leaves

Whatever happens in a history, crashes at any call included, the directory has sound contents whose
strings are short, and between two operations all segments are durable (`readable_of_run`).  Nothing
is said here about which records the segments have: a crash in the middle of a write can leave a
part of a record in one, and a flush can leave segments behind.

What else the operations of a session keep is proved on top of that (`Upheld`).
-/

set_option autoImplicit false

namespace KeyValStore

open Crash Std
open DB (Keeps)

/-- What is asked of every step: strings are short, Bloom filters do not get too large, and the
numbers of tables do not wrap around. -/
structure Sane (sz : Sizing) (s : Label × Trace) : Prop where
  /-- Strings are short. -/
  short : s.1.IsShort
  /-- Tables can be built. -/
  build : ∀ ev ∈ s.2, OnBuild (fun entries db _ ↦ BloomFits sz entries ∧ NoWrap db) ev

/-- What is assumed of builds, and that the directory can be read after a crash at any call. -/
def readWatch (sz : Sizing) : Watch (Call Mark) DB Disk where
  assume := OnBuild fun entries db _ ↦ BloomFits sz entries ∧ NoWrap db
  always ev := ∃ C, Holds sz ev.disk C ∧ C.Sound ∧ C.IsShort

/-- An open store whose strings are short. -/
structure Legible (sz : Sizing) (db : DB) (d : Disk) (C : Contents) : Prop
    extends Opened sz db d C where
  /-- The strings in the tables are short. -/
  short : C.IsShort
  /-- The strings in the MemTable are short. -/
  memShort : db.memtable.data.IsShort
  /-- All segments are durable. -/
  settled : C.Settled

/-- A world that can be read. -/
def World.Readable (sz : Sizing) : World → Prop
  | closed d => ∃ C, Holds sz d C ∧ C.Sound ∧ C.IsShort ∧ C.Settled
  | opened db d => ∃ C, Legible sz db d C

namespace Contents.Settled

variable {C : Contents}

theorem setLog (h : C.Settled) {id : ℕ} {o : Option File}
    (ho : ∀ f, o = some f → f = .saved f.content) : (C.setLog id o).Settled := by
  intro id' f hf
  by_cases hid : id' = id
  · rw [hid, C.setLog_logs_self] at hf
    exact ho f hf
  · rw [C.setLog_logs_ne o hid] at hf
    exact h id' f hf

theorem setSaved (h : C.Settled) (id : ℕ) (bs : Bytes) : (C.setLog id (some (.saved bs))).Settled :=
  h.setLog fun f hf ↦ by rw [← Option.some_inj.1 hf, File.content_saved]

/-- A file that is opened to be written at its end. -/
theorem opened (h : C.Settled) (id : ℕ) : (C.setLog id (some ((C.logs id).getD {}))).Settled := by
  refine h.setLog fun f hf ↦ ?_
  rw [Option.some_inj] at hf
  cases hlog : C.logs id with
  | none =>
    rw [← hf, hlog]
    rfl
  | some f' =>
    rw [hlog, Option.getD_some] at hf
    exact hf ▸ h id f' hlog

end Contents.Settled

/-- A crash while a segment is not durable. -/
theorem Contents.Settled.eq_setLog_of_crashed {C C' : Contents} (h : C.Settled) {id : ℕ}
    {o : Option File} {f : File} (hc : (C.setLog id o).Crashed C') (hf : C'.logs id = some f) :
    C' = C.setLog id (some f) := by
  have hsaved := hc.settled id f hf
  refine Settled.eq_of_crashed (h.setLog fun g hg ↦ ?_) ⟨hc.gen, hc.tables, fun id' ↦ ?_⟩
  · rw [Option.some_inj] at hg
    exact hg ▸ hsaved
  by_cases hid : id' = id
  · rw [hid, C.setLog_logs_self, hf, hsaved]
    exact .some (File.crashed_saved_iff.2 rfl)
  · have hrel := hc.logs id'
    rwa [C.setLog_logs_ne o hid, ← C.setLog_logs_ne (some f) hid] at hrel

namespace Legible

variable {sz : Sizing} {db : DB} {d : Disk} {C : Contents}

theorem short_flushContents (h : Legible sz db d C) : ∀ C' ∈ DB.flushContents db C, C'.IsShort := by
  have hlist : (DB.flushList db C).IsShort := List.forall_mem_cons.2 ⟨h.memShort, h.short⟩
  simp only [DB.flushContents, List.forall_mem_cons]
  exact ⟨h.short, hlist, hlist, hlist, fun _ ht ↦ absurd ht List.not_mem_nil⟩

theorem short_mergeContents (h : Legible sz db d C) :
    ∀ C' ∈ DB.mergeContents sz db C, C'.IsShort := by
  simp only [DB.mergeContents, List.forall_mem_cons]
  exact ⟨h.short, List.forall_mem_singleton.2 (DB.isShort_cleanOf sz C.tables),
    fun _ ht ↦ absurd ht List.not_mem_nil⟩

/-- **A write** leaves all segments durable. -/
theorem written (h : Legible sz db d C) {r : WalRecord} (hr : r.IsShort) :
    Legible sz (DB.applied r db) (DB.loggedDisk (DB.walSegPath db.currentWalId) r d)
      (DB.logged db C r) where
  toOpened := h.toOpened.written r
  short := h.short
  memShort := isShort_applyRecord hr h.memShort
  settled := by
    refine h.settled.setLog fun f hf ↦ ?_
    obtain ⟨f', -, rfl⟩ := Option.map_eq_some_iff.1 hf
    rw [File.sync_eq_saved, File.content_saved]

/-- **A flush.** -/
theorem flushed (h : Legible sz db d C) (hlt : db.nextSstId + 1 < 2 ^ 64)
    (hopen : SSTable.Openable sz db.memtable.data) :
    Legible sz (DB.flushedDb sz db) (DB.flushedDisk sz db d) (DB.flushOpen db C) where
  toOpened := h.toOpened.flushed hlt hopen
  short := h.short_flushContents _ (by simp [DB.flushContents])
  memShort := Entries.isShort_empty
  settled := (h.settled.setLog (C := DB.flushList db C) (by rintro f ⟨⟩)).opened _

/-- **A merge.** -/
theorem merged (h : Legible sz db d C) (hlt : db.nextSstId + 1 < 2 ^ 64)
    (hopen : SSTable.Openable sz (DB.cleanOf sz C.tables)) :
    Legible sz (DB.mergedDb sz db C.tables) (DB.mergedDisk sz db C.tables d)
      (DB.mergeList sz db C) where
  toOpened := h.toOpened.merged hlt hopen
  short := h.short_mergeContents _ (by simp [DB.mergeContents])
  memShort := h.memShort
  settled := h.settled

/-- **Recovery.** -/
theorem recovered (hd : Holds sz d C.reopened) (hs : C.Sound)
    (hfirst : C.gen = none → C.tables = []) (hshort : C.IsShort) (hsettled : C.Settled)
    (opts : Options) : Legible sz (DB.recovered sz opts C) d C.reopened where
  toOpened := opened_recovered hd hs hfirst opts
  short := hshort
  memShort := isShort_replayed fun _ ↦ Contents.short_of_mem_records
  settled := hsettled.opened (C := C.withManifest) _

end Legible

section Readable

variable {sz : Sizing} {db : DB} {d : Disk} {C : Contents}

/-- **Flushes and merges leave the directory readable.** -/
theorem keeps_legible (sz : Sizing) :
    Keeps sz (readWatch sz) fun db d ↦ ∃ C, Legible sz db d C where
  idle := by
    rintro db d ⟨C, h⟩ c m d' - rfl
    exact ⟨C, h.holds, h.sound, h.short⟩
  flushBuild := by
    rintro db d ⟨C, h⟩ -
    exact ⟨C, h.holds, h.sound, h.short⟩
  flush := by
    rintro db d ⟨C, h⟩ - hbuild
    obtain ⟨hbloom, hwrap⟩ := hbuild _ _ rfl
    have hlt := succ_lt_of_noWrap h.next_lt hwrap
    have hopen := (SSTable.Fits.mk h.memShort hbloom).openable
    refine ⟨hopen, fun ev hev ↦ ?_, _, h.flushed hlt hopen⟩
    obtain ⟨C', hmem, hd⟩ := DB.holds_of_flushStage h.holds h.gen_ne h.tables h.fresh
      h.next_lt h.wal_lt hopen hev.stage
    exact ⟨C', hd, h.sound_flushContents hlt C' hmem, h.short_flushContents C' hmem⟩
  merge := by
    rintro db d ⟨C, h⟩ -
    refine ⟨C.tables, h.tables, h.holds.tables.stored, ⟨C, h.holds, h.sound, h.short⟩,
      fun hbuild ↦ ?_⟩
    obtain ⟨hbloom, hwrap⟩ := hbuild _ _ rfl
    have hlt := succ_lt_of_noWrap h.next_lt hwrap
    have hopen := (SSTable.Fits.mk (DB.isShort_cleanOf sz C.tables) hbloom).openable
    refine ⟨hopen, fun ev hev ↦ ?_, _, h.merged hlt hopen⟩
    obtain ⟨C', hmem, hd⟩ :=
      DB.holds_of_mergeStage h.holds h.gen_ne h.fresh h.next_lt hopen hev.stage
    exact ⟨C', hd, h.sound_mergeContents hlt C' hmem, h.short_mergeContents C' hmem⟩

theorem wp_run_legible (h : Legible sz db d C) {op : Op} (hop : ∀ r ∈ op.record, r.IsShort) :
    (op.run sz).wp reliable (readWatch sz) (fun _ db d ↦ ∃ C, Legible sz db d C) (fun _ _ _ ↦ False)
      db d := by
  have hkeeps := keeps_legible sz
  cases hr : op.record with
  | some r =>
    rw [run_of_record hr]
    refine hkeeps.wp_write h.wal (fun c m d' _ hg ↦ ?_) ⟨_, h.written (hop r hr)⟩
    obtain ⟨p, -, hd⟩ := DB.holds_of_growing h.holds h.wal_lt hg
    exact ⟨_, hd, h.sound_growing p, h.short⟩
  | none =>
    cases op with
    | put k x => cases hr
    | del k => cases hr
    | flush => exact wp_mono (hkeeps.wp_flush ⟨C, h⟩) (fun _ _ _ h ↦ h.1) fun _ _ _ ↦ id
    | compact => exact hkeeps.wp_compact ⟨C, h⟩

theorem wp_recover_legible (h : Holds sz d C) (hs : C.Sound) (hshort : C.IsShort)
    (hsettled : C.Settled) (opts : Options) : DB.recover.wp reliable (readWatch sz) (fun _ db d ↦
      db = DB.recovered sz opts C ∧ Legible sz db d C.reopened) (fun _ _ _ ↦ False) { opts } d := by
  have hfirst : C.gen = none → C.tables = [] := fun hg ↦ (h.first hg).1
  refine DB.wp_recover h hs.logs (fun ev hev ↦ ?_) fun d' hd' ↦
    ⟨rfl, .recovered hd' hs hfirst hshort hsettled opts⟩
  obtain ⟨C', hmem, hd⟩ := hev.holds
  refine ⟨C', hd, hs.reopening hfirst C' hmem, ?_⟩
  simp only [Contents.reopening, List.mem_cons, List.not_mem_nil, or_false] at hmem
  rcases hmem with rfl | rfl | rfl <;> exact hshort

/-- A recovery that returns. -/
theorem Holds.exec_recover (h : Holds sz d C) (hs : C.Sound) (hshort : C.IsShort)
    (hsettled : C.Settled) {opts : Options} {tr : Trace} {db' : DB} {d' : Disk}
    (hx : Exec reliable DB.recover { opts } d tr (.ok () db' d')) :
    db' = DB.recovered sz opts C ∧ Legible sz db' d' C.reopened := by
  have hfirst : C.gen = none → C.tables = [] := fun hg ↦ (h.first hg).1
  have hwp : DB.recover.wp reliable .blind (fun _ db d ↦ db = DB.recovered sz opts C ∧
      Legible sz db d C.reopened) (fun _ _ _ ↦ False) { opts } d :=
    DB.wp_recover h hs.logs (fun _ _ ↦ trivial) fun d' hd' ↦
      ⟨rfl, .recovered hd' hs hfirst hshort hsettled opts⟩
  exact (hx.of_wp (fun _ _ ↦ trivial) hwp).2

/-- What can be read can be read after a crash. -/
theorem readable_of_crashed {d' : Disk} (h : ∃ C, Holds sz d C ∧ C.Sound ∧ C.IsShort)
    (hc : d.Crashed d') : (World.closed d').Readable sz := by
  obtain ⟨C, hd, hs, hshort⟩ := h
  obtain ⟨C', hC, hd'⟩ := hd.crashed hc
  exact ⟨C', hd', hs.crashed hC, fun t ht ↦ hshort t (hC.tables ▸ ht), hC.settled⟩

/-- **A step leaves the directory readable.** -/
theorem World.Readable.step {w w' : World} {l : Label} {tr : Trace} (h : w.Readable sz)
    (hs : Step sz w l tr w') (hl : Sane sz (l, tr)) : w'.Readable sz := by
  cases hs with
  | opened hx =>
    obtain ⟨C, hd, hs, hshort, hsettled⟩ := h
    exact ⟨_, (hx.of_wp hl.build (wp_recover_legible hd hs hshort hsettled _)).2.2⟩
  | openThrew hx =>
    obtain ⟨C, hd, hs, hshort, hsettled⟩ := h
    exact (hx.of_wp hl.build (wp_recover_legible hd hs hshort hsettled _)).2.elim
  | openCut hx hc =>
    obtain ⟨C, hd, hs, hshort, hsettled⟩ := h
    obtain ⟨c, m, hev⟩ := (hx.of_wp hl.build (wp_recover_legible hd hs hshort hsettled _)).2
    exact readable_of_crashed hev hc
  | did hx =>
    obtain ⟨C, h⟩ := h
    exact (hx.of_wp hl.build (wp_run_legible h hl.short)).2
  | threw hx =>
    obtain ⟨C, h⟩ := h
    exact (hx.of_wp hl.build (wp_run_legible h hl.short)).2.elim
  | didCut hx hc =>
    obtain ⟨C, h⟩ := h
    obtain ⟨c, m, hev⟩ := (hx.of_wp hl.build (wp_run_legible h hl.short)).2
    exact readable_of_crashed hev hc
  | crashed hc =>
    obtain ⟨C, h⟩ := h
    exact readable_of_crashed ⟨C, h.holds, h.sound, h.short⟩ hc
  | closed hx =>
    obtain ⟨db', ⟨C', h'⟩, -⟩ := (hx.of_wp hl.build ((keeps_legible sz).wp_close h)).2
    exact ⟨C', h'.holds, h'.sound, h'.short, h'.settled⟩
  | closeThrew hx _ => exact (hx.of_wp hl.build ((keeps_legible sz).wp_close h)).2.elim
  | closeCut hx hc =>
    obtain ⟨c, m, hev⟩ := (hx.of_wp hl.build ((keeps_legible sz).wp_close h)).2
    exact readable_of_crashed hev hc

/-- **Every history leaves a readable directory.** -/
theorem readable_of_run {hist : List (Label × Trace)} {w : World} (hrun : Run sz (.closed ∅) hist w)
    (hhist : ∀ s ∈ hist, Sane sz s) : w.Readable sz := by
  refine hrun.keeps (G := Sane sz) (I := fun _ w ↦ w.Readable sz) ?_
    (fun h hs hl ↦ h.step hs hl) hhist
  refine ⟨_, holds_empty sz, ?_, fun _ ht ↦ absurd ht List.not_mem_nil, fun _ _ h ↦ (by cases h)⟩
  exact ⟨.nil, fun _ ht ↦ absurd ht List.not_mem_nil, fun _ hg ↦ (by cases hg),
    fun _ hid ↦ absurd rfl hid⟩

end Readable

/-! ## What else is kept -/

/-- An operation keeps an invariant if logging and applying its record does. -/
theorem DB.Keeps.wp_op {sz : Sizing} {W : Watch (Call Mark) DB Disk} {I : DB → Disk → Prop}
    {db : DB} {d : Disk} (h : Keeps sz W I) {op : Op} (hI : op.record = none → I db d)
      (hwrite : ∀ r ∈ op.record, db.wal = some (DB.walSegPath db.currentWalId) ∧
      Allows W (WAL.Growing (DB.walSegPath db.currentWalId) r.bytes d) ∧
      I (DB.applied r db) (DB.loggedDisk (DB.walSegPath db.currentWalId) r d)) :
    (op.run sz).wp reliable W (fun _ db d ↦ I db d) (fun _ _ _ ↦ False) db d := by
  cases hr : op.record with
  | some r =>
    obtain ⟨hwal, hgrowing, hI'⟩ := hwrite r hr
    rw [run_of_record hr]
    exact h.wp_write hwal hgrowing hI'
  | none =>
    cases op with
    | put k x => cases hr
    | del k => cases hr
    | flush => exact wp_mono (h.wp_flush (hI hr)) (fun _ _ _ h ↦ h.1) fun _ _ _ ↦ id
    | compact => exact h.wp_compact (hI hr)

/-- What flushes and merges keep of an open store that can be read. -/
structure Upheld (sz : Sizing) (K : DB → Disk → Contents → Prop) : Prop where
  /-- A flush. -/
  flush : ∀ {db : DB} {d : Disk} {C : Contents}, Legible sz db d C → K db d C →
    K (DB.flushedDb sz db) (DB.flushedDisk sz db d) (DB.flushOpen db C)
  /-- A merge. -/
  merge : ∀ {db : DB} {d : Disk} {C : Contents}, Legible sz db d C → K db d C →
    K (DB.mergedDb sz db C.tables) (DB.mergedDisk sz db C.tables d) (DB.mergeList sz db C)

namespace Upheld

variable {sz : Sizing} {K : DB → Disk → Contents → Prop} {db : DB} {d : Disk} {C : Contents}

theorem allows_growing (hC : Legible sz db d C) (r : WalRecord) :
    Allows (readWatch sz) (WAL.Growing (DB.walSegPath db.currentWalId) r.bytes d) := by
  intro c m d' _ hg
  obtain ⟨p, -, hd⟩ := DB.holds_of_growing hC.holds hC.wal_lt hg
  exact ⟨_, hd, hC.sound_growing p, hC.short⟩

theorem keeps (h : Upheld sz K) :
    Keeps sz (readWatch sz) fun db d ↦ ∃ C, Legible sz db d C ∧ K db d C where
  idle := by
    rintro db d ⟨C, hC, -⟩
    exact (keeps_legible sz).idle ⟨C, hC⟩
  flushBuild := by
    rintro db d ⟨C, hC, -⟩ hne
    exact (keeps_legible sz).flushBuild ⟨C, hC⟩ hne
  flush := by
    rintro db d ⟨C, hC, hK⟩ hne hbuild
    obtain ⟨hopen, hev, -⟩ := (keeps_legible sz).flush ⟨C, hC⟩ hne hbuild
    exact ⟨hopen, hev, _, hC.flushed (succ_lt_of_noWrap hC.next_lt (hbuild _ _ rfl).2) hopen,
      h.flush hC hK⟩
  merge := by
    rintro db d ⟨C, hC, hK⟩ -
    refine ⟨C.tables, hC.tables, hC.holds.tables.stored, ⟨C, hC.holds, hC.sound, hC.short⟩,
      fun hbuild ↦ ?_⟩
    obtain ⟨hbloom, hwrap⟩ := hbuild _ _ rfl
    have hlt := succ_lt_of_noWrap hC.next_lt hwrap
    have hopen := (SSTable.Fits.mk (DB.isShort_cleanOf sz C.tables) hbloom).openable
    refine ⟨hopen, fun ev hev ↦ ?_, _, hC.merged hlt hopen, h.merge hC hK⟩
    obtain ⟨C', hmem, hd⟩ :=
      DB.holds_of_mergeStage hC.holds hC.gen_ne hC.fresh hC.next_lt hopen hev.stage
    exact ⟨C', hd, hC.sound_mergeContents hlt C' hmem, hC.short_mergeContents C' hmem⟩

/-- **An operation** keeps it, if a write leads to it. -/
theorem wp_op (h : Upheld sz K) (hC : Legible sz db d C) {op : Op}
    (hop : ∀ r ∈ op.record, r.IsShort) (hK : op.record = none → K db d C)
    (hwrite : ∀ r ∈ op.record,
      K (DB.applied r db) (DB.loggedDisk (DB.walSegPath db.currentWalId) r d) (DB.logged db C r)) :
    (op.run sz).wp reliable (readWatch sz) (fun _ db d ↦ ∃ C, Legible sz db d C ∧ K db d C)
    (fun _ _ _ ↦ False) db d :=
  h.keeps.wp_op (fun hr ↦ ⟨C, hC, hK hr⟩) fun r hr ↦
    ⟨hC.wal, allows_growing hC r, _, hC.written (hop r hr), hwrite r hr⟩

end Upheld

end KeyValStore
