import KeyValStore.Faults.Usable
import KeyValStore.History.Retire

/-!
# Sessions in which calls fail

A session is a sequence of operations, each on a directory on which some calls may fail.  It goes on
after an exception.  `KeepsMap` is what an operation keeps, whether it returns or throws: the store
is usable (`Usable`), it shows the map it should, and, where the next segment can be opened, its log
is in order.

`failsSafely` says that such a session serves its map throughout, and that a crash loses nothing,
when neither the next segment nor a merged table can fail to be opened, nor the MANIFEST to be
renamed.  When it is the next segment, `wal_` is null, and the next write uses it all the same
(`not_failsSafely`).
-/

set_option autoImplicit false

namespace KeyValStore

open Crash Std
open DB (applied shown walSegPath sstPath taken buildEvent)

/-! ## Sessions -/

/-- An operation, the calls that may fail in it, the calls it made, and what it threw. -/
structure Attempt where
  /-- The operation. -/
  op : Op
  /-- The calls that may fail. -/
  faults : Faults Mark
  /-- The calls that were made. -/
  trace : Trace
  /-- The exception. -/
  threw : Option Error

/-- **A session in which calls may fail.**  It goes on after an exception. -/
inductive Session (sz : Sizing) (db : DB) (d : Disk) : List Attempt → DB → Disk → Prop
  | nil : Session sz db d [] db d
  | did {as : List Attempt} {op : Op} {F : Faults Mark} {tr : Trace} {db' db'' : DB} {d' d'' : Disk}
      (h : Session sz db d as db' d')
      (hx : Exec (device F) (op.run sz) db' d' tr (.ok () db'' d'')) :
      Session sz db d (as ++ [⟨op, F, tr, none⟩]) db'' d''
  | threw {as : List Attempt} {op : Op} {F : Faults Mark} {tr : Trace} {e : Error} {db' db'' : DB}
      {d' d'' : Disk} (h : Session sz db d as db' d')
      (hx : Exec (device F) (op.run sz) db' d' tr (.threw e db'' d'')) :
      Session sz db d (as ++ [⟨op, F, tr, some e⟩]) db'' d''

/-- A read while the MemTable is empty: an input of a merge, or, once the list is empty, the merged
table. -/
def MergeRead (ev : Event (Call Mark) DB Disk) : Prop :=
  ev.mem.memtable.empty = true ∧ ∃ n, ev.call = .readFile n

/-- What is asked of every operation: strings are short, tables can be built, and no calls fail but
those the code answers with an exception. -/
structure Attempt.Sane (sz : Sizing) (a : Attempt) : Prop where
  /-- Strings are short. -/
  short : ∀ r ∈ a.op.record, r.IsShort
  /-- Tables can be built. -/
  build : ∀ ev ∈ a.trace, OnBuild (fun entries db _ ↦ BloomFits sz entries ∧ NoWrap db) ev
  /-- Only exceptions. -/
  throwing : Throwing a.faults
  /-- The inputs of a merge can be read. -/
  scans : ∀ ev ∈ a.trace, MergeRead ev → ev.mem.sstables ≠ [] → ¬a.faults.refuse ev.call

/-- The calls that do harm when they fail: opening a merged table, and renaming the MANIFEST. -/
structure Attempt.Harmless (a : Attempt) : Prop where
  /-- The merged table can be opened. -/
  merged : ∀ ev ∈ a.trace, MergeRead ev → ev.mem.sstables = [] → ¬a.faults.refuse ev.call
  /-- The MANIFEST can be renamed. -/
  rename : ¬a.faults.refuse (.rename Manifest.tmp Manifest.dest)

/-- The next segment can be opened. -/
def Attempt.OpensWal (a : Attempt) : Prop := ∀ id, ¬a.faults.refuse (.openAppend (walSegPath id))

/-! ## What an operation keeps -/

/-- **The store shows a map.**  `L` says that no segment but the current one has records, and `T`
that the log is in order. -/
def KeepsMap (sz : Sizing) (L T : Prop) (v : Bytes → Option Bytes) (db : DB) (d : Disk) : Prop :=
  ∃ C ts, Usable sz L db d C ts ∧ (T → Logging db C) ∧ shown db.memtable.data ts = v

/-- What is assumed of the calls of an operation. -/
def faultWatch (sz : Sizing) (L : Prop) (F : Faults Mark) : Watch (Call Mark) DB Disk where
  assume ev := OnBuild (fun entries db d ↦ BloomFits sz entries ∧ NoWrap db ∧
      (¬L → NothingStale db d)) ev ∧
    (MergeRead ev → ¬F.refuse ev.call)
  always _ := True

section Keeps

variable {sz : Sizing} {L T : Prop} {v : Bytes → Option Bytes} {db : DB} {d : Disk}
  {F : Faults Mark}

theorem KeepsMap.answers (h : KeepsMap sz L T v db d) : Answers db d v := by
  obtain ⟨C, ts, hu, -, rfl⟩ := h
  exact hu.answers

/-- What is assumed of a build. -/
theorem Usable.assumed {C : Contents} {ts : List (ℕ × Entries)} {entries : Entries}
    (h : Usable sz L db d C ts) (hA : (faultWatch sz L F).assume (buildEvent db entries d)) :
    BloomFits sz entries ∧ db.nextSstId + 1 < 2 ^ 64 ∧ NoStale db C := by
  obtain ⟨hbloom, hwrap, hstale⟩ := hA.1 _ _ rfl
  refine ⟨hbloom, succ_lt_of_noWrap h.next hwrap, ?_⟩
  by_cases hL : L
  · exact h.noStale hL
  · exact (nothingStale_taken_iff h.holds).1 (hstale hL)

variable (hF : Throwing F) (hrename : ¬F.refuse (.rename Manifest.tmp Manifest.dest))
  (hopens : T → ∀ id, ¬F.refuse (.openAppend (walSegPath id)))

include hF hrename hopens

/-- **A flush**, whether it returns or throws. -/
theorem KeepsMap.wp_flush (h : KeepsMap sz L T v db d) :
    (DB.flushMemtableLocked sz).wp (device F) (faultWatch sz L F)
      (fun _ db d ↦ KeepsMap sz L T v db d ∧ db.memtable.empty = true)
      (fun e db d ↦ KeepsMap sz L T v db d ∧ e ≠ .nullWal) db d := by
  cases he : db.memtable.empty with
  | true => exact DB.wp_flushMemtableLocked_empty he ⟨h, he⟩
  | false =>
    obtain ⟨C, ts, hu, hl, rfl⟩ := h
    refine DB.wp_flushMemtableLocked hF he trivial fun hA ↦ ?_
    obtain ⟨hbloom, hlt, hs⟩ := hu.assumed hA
    have hopen := (SSTable.Fits.mk hu.memShort hbloom).openable
    refine ⟨hopen, fun _ _ ↦ trivial, fun e db' d' ht ↦ ?_, ⟨_, _, hu.flushed hlt hs hopen,
      fun _ ↦ hu.logging_flushed hlt hs, shown_flush db.nextSstId db.memtable.data ts⟩,
      ExtTreeMap.isEmpty_empty⟩
    obtain ⟨C', ts', hu', hshown, hne, hl'⟩ := hu.flushThrew hlt hs hopen he hrename ht
    exact ⟨⟨C', ts', hu', fun hT ↦ hl' (hl hT) (hopens hT), hshown⟩, hne⟩

omit hopens in
/-- **A merge**, whether it returns or throws. -/
theorem KeepsMap.wp_merge (h : KeepsMap sz L T v db d) (he : db.memtable.empty = true) :
    (DB.merge sz).wp (device F) (faultWatch sz L F) (fun _ db d ↦ KeepsMap sz L T v db d)
      (fun e db d ↦ KeepsMap sz L T v db d ∧ e ≠ .nullWal) db d := by
  obtain ⟨C, ts, hu, hl, rfl⟩ := h
  refine DB.wp_merge hF (fun t _ hA ↦ hA.2 ⟨he, _, rfl⟩) hu.tables hu.stored.stored
    (fun _ _ _ _ _ ↦ trivial) trivial fun hA ↦ ?_
  obtain ⟨hbloom, hlt, -⟩ := hu.assumed hA
  have hopen := (SSTable.Fits.mk (DB.isShort_cleanOf sz ts) hbloom).openable
  refine ⟨hopen, fun _ _ ↦ trivial, fun e db' d' ht hread ↦ ?_, _, _, hu.merged hlt hopen he,
    fun hT ↦ hu.logging_merged hlt (hl hT) he,
    shown_merge sz db.nextSstId db.memtable.data hu.shortTables⟩
  obtain ⟨ts', hu', hshown, hne, hl'⟩ := hu.mergeThrew hlt hopen hrename
    (fun heq ↦ (hread heq).2 ⟨he, _, rfl⟩) ht
  exact ⟨⟨C, ts', hu', fun hT ↦ hl' (hl hT), hshown⟩, hne⟩

/-- **A compaction**, whether it returns or throws. -/
theorem KeepsMap.wp_compact (h : KeepsMap sz L T v db d) :
    (DB.compactLocked sz).wp (device F) (faultWatch sz L F) (fun _ db d ↦ KeepsMap sz L T v db d)
      (fun e db d ↦ KeepsMap sz L T v db d ∧ e ≠ .nullWal) db d := by
  by_cases hlen : db.sstables.length < 2
  · exact DB.wp_compactLocked_few hlen h
  · refine DB.wp_compactLocked hlen (wp_mono (h.wp_flush hF hrename hopens) ?_ fun _ _ _ ↦ id)
    rintro _ db d ⟨h, he⟩
    exact h.wp_merge hF hrename he

/-- **A write**, whether it returns or throws: the record is there, unless `wal_` was null. -/
theorem KeepsMap.wp_write (h : KeepsMap sz L T v db d) {r : WalRecord} (hr : r.IsShort) :
    (DB.writeRecord sz r).wp (device F) (faultWatch sz L F)
      (fun _ db d ↦ KeepsMap sz L T (Function.update v r.write.1 r.write.2) db d)
      (fun e db d ↦ KeepsMap sz L T (Function.update v r.write.1 r.write.2) db d ∧ e ≠ .nullWal ∨
        KeepsMap sz L T v db d ∧ ¬T) db d := by
  obtain ⟨C, ts, hu, hl, rfl⟩ := h
  rcases hu.wal with hwal | hwal
  · refine DB.wp_writeRecord_null hwal (.inr ⟨⟨C, ts, hu, hl, rfl⟩, fun hT ↦ ?_⟩)
    have hopen := (hl hT).wal
    rw [hwal] at hopen
    cases hopen
  · have hnew : KeepsMap sz L T (Function.update (shown db.memtable.data ts) r.write.1 r.write.2)
        (applied r db) (DB.loggedDisk (walSegPath db.currentWalId) r d) :=
      ⟨_, ts, hu.written hr, fun hT ↦ (hl hT).written hr, shown_applyRecord r db.memtable ts⟩
    refine DB.wp_writeRecord hF hwal (DB.walSegPath_ne_tmp _) (fun _ _ _ _ _ ↦ trivial) ?_
    refine DB.wp_maybeFlush (fun _ ↦ hnew) fun _ ↦ ?_
    refine wp_mono (hnew.wp_flush hF hrename hopens) (fun _ db d ⟨h, _⟩ ↦ ?_) fun _ _ _ ↦ .inl
    split
    · exact wp_mono (h.wp_compact hF hrename hopens) (fun _ _ _ ↦ id) fun _ _ _ ↦ .inl
    · exact h

/-- **An operation**, whether it returns or throws. -/
theorem KeepsMap.wp_run (h : KeepsMap sz L T v db d) {op : Op} (hop : ∀ r ∈ op.record, r.IsShort) :
    (op.run sz).wp (device F) (faultWatch sz L F) (fun _ db d ↦ KeepsMap sz L T (op.apply v) db d)
      (fun e db d ↦ KeepsMap sz L T (op.apply v) db d ∧ e ≠ .nullWal ∨
        op.record ≠ none ∧ KeepsMap sz L T v db d ∧ ¬T) db d := by
  cases hr : op.record with
  | some r =>
    rw [run_of_record hr, apply_of_record hr]
    refine wp_mono (h.wp_write hF hrename hopens (hop r hr)) (fun _ _ _ ↦ id) fun _ _ _ he ↦ ?_
    exact he.imp_right fun he ↦ ⟨by simp, he⟩
  | none =>
    cases op with
    | put k x => cases hr
    | del k => cases hr
    | flush => exact wp_mono (h.wp_flush hF hrename hopens) (fun _ _ _ ↦ And.left) fun _ _ _ ↦ .inl
    | compact => exact wp_mono (h.wp_compact hF hrename hopens) (fun _ _ _ ↦ id) fun _ _ _ ↦ .inl

end Keeps

/-! ## What a session keeps -/

/-- What is asked of an operation of a session. -/
structure Attempt.Ordinary (sz : Sizing) (L T : Prop)
    (a : Attempt) : Prop extends Attempt.Sane sz a, a.Harmless where
  /-- Where it matters, the next segment can be opened. -/
  opensWal : T → a.OpensWal
  /-- Where it is not known, no segment but the current one has records. -/
  noStale : ¬L → ∀ ev ∈ a.trace, OnBuild (fun _ db d ↦ NothingStale db d) ev

section Session

variable {sz : Sizing} {L T : Prop} {v : Bytes → Option Bytes} {db db' : DB} {d d' : Disk}
  {as : List Attempt}

/-- An ordinary operation makes the calls that are assumed. -/
theorem Attempt.Ordinary.assume {a : Attempt} (h : a.Ordinary sz L T) :
    ∀ ev ∈ a.trace, (faultWatch sz L a.faults).assume ev := by
  refine fun ev hev ↦ ⟨fun path entries hcall ↦ ?_, fun hread ↦ ?_⟩
  · obtain ⟨hbloom, hwrap⟩ := h.build ev hev path entries hcall
    exact ⟨hbloom, hwrap, fun hL ↦ h.noStale hL ev hev path entries hcall⟩
  · by_cases hnil : ev.mem.sstables = []
    · exact h.merged ev hev hread hnil
    · exact h.scans ev hev hread hnil

/-- **A session goes on serving its map**: that of its operations, as long as the log is in order,
and in any case at the keys it does not write. -/
theorem Session.keepsMap (hs : Session sz db d as db' d') (h : KeepsMap sz L T v db d)
    (has : ∀ a ∈ as, a.Ordinary sz L T) : ∃ v', KeepsMap sz L T v' db' d' ∧
      (T → v' = Op.applyAll (as.map (·.op)) v ∧ ∀ a ∈ as, a.threw ≠ some .nullWal) ∧
      ∀ key, (∀ a ∈ as, a.op.effect key = none) → v' key = v key := by
  have heffect : ∀ {op : Op} {key : Bytes} (u : Bytes → Option Bytes), op.effect key = none →
      op.apply u key = u key := fun u hkey ↦ by rw [Op.apply, hkey, Option.getD_none]
  induction hs with
  | nil => exact ⟨v, h, fun _ ↦ ⟨rfl, fun _ ha ↦ absurd ha List.not_mem_nil⟩, fun _ _ ↦ rfl⟩
  | @did as op F tr _ _ _ _ _ hx ih =>
    rw [List.forall_mem_append] at has
    have ha := List.forall_mem_singleton.1 has.2
    obtain ⟨u, hu, hT, hkeys⟩ := ih has.1
    refine ⟨op.apply u,
      (hx.of_wp ha.assume (hu.wp_run ha.throwing ha.rename ha.opensWal ha.short)).2,
      fun ht ↦ ⟨?_, ?_⟩, fun key hkey ↦ ?_⟩
    · rw [List.map_append, Op.applyAll_append, ← (hT ht).1]
      rfl
    · rw [List.forall_mem_append]
      exact ⟨(hT ht).2, List.forall_mem_singleton.2 (Option.some_ne_none _).symm⟩
    · rw [List.forall_mem_append] at hkey
      rw [heffect u (hkey.2 _ (List.mem_singleton_self _)), hkeys key hkey.1]
  | @threw as op F tr e _ _ _ _ _ hx ih =>
    rw [List.forall_mem_append] at has
    have ha := List.forall_mem_singleton.1 has.2
    obtain ⟨u, hu, hT, hkeys⟩ := ih has.1
    rcases (hx.of_wp ha.assume (hu.wp_run ha.throwing ha.rename ha.opensWal ha.short)).2 with
      ⟨hnew, hne⟩ | ⟨-, hsame, hnot⟩
    · refine ⟨op.apply u, hnew, fun ht ↦ ⟨?_, ?_⟩, fun key hkey ↦ ?_⟩
      · rw [List.map_append, Op.applyAll_append, ← (hT ht).1]
        rfl
      · rw [List.forall_mem_append]
        exact ⟨(hT ht).2, List.forall_mem_singleton.2 fun heq ↦ hne (Option.some.inj heq)⟩
      · rw [List.forall_mem_append] at hkey
        rw [heffect u (hkey.2 _ (List.mem_singleton_self _)), hkeys key hkey.1]
    · refine ⟨u, hsame, fun ht ↦ absurd ht hnot, fun key hkey ↦ ?_⟩
      rw [List.forall_mem_append] at hkey
      exact hkeys key hkey.1

/-- A session starts with what recovery leaves of a readable directory. -/
theorem World.Readable.exec_recover (h : (World.closed d).Readable sz) {opts : Options} {tr : Trace}
    (hx : Exec reliable DB.recover { opts } d tr (.ok () db d')) :
    ∃ C, Holds sz d C ∧ C.Sound ∧ db = DB.recovered sz opts C ∧ Legible sz db d' C.reopened := by
  obtain ⟨C, hd, hs, hshort, hsettled⟩ := h
  exact ⟨C, hd, hs, hd.exec_recover hs hshort hsettled hx⟩

/-- **A session starts usable.** -/
theorem Legible.keepsMap {C : Contents} {opts : Options}
    (h : Legible sz (DB.recovered sz opts C) d C.reopened)
    (hs : C.Sound) : ∃ v, KeepsMap sz False False v (DB.recovered sz opts C) d := by
  refine ⟨_, _, _, .of_legible h (fun he id ↦ ?_) False.elim, False.elim, rfl⟩
  rw [C.logRecords_reopened]
  have hblank := (layer_replayed C.records).symm.trans (layer_of_empty he)
  have hnil : C.records = [] := List.map_eq_nil_iff.1 (eq_nil_of_writes_blank hblank)
  by_cases hid : id < nextOf C.tables + 1
  · exact recordsBelow_eq_nil_iff.1 hnil id hid
  · rw [not_not.1 fun hne ↦ hid (Nat.lt_succ_of_le (hs.logs id hne)), logRecords_none]

/-- **A session starts with its log in order**, when no segment has records and the one it goes on
with is empty. -/
theorem Legible.keepsMap_of_noRecords {C : Contents} {opts : Options}
    (h : Legible sz (DB.recovered sz opts C) d C.reopened) (hno : ∀ id, logRecords (C.logs id) = [])
    (hempty : ∀ f, d[walSegPath (DB.recovered sz opts C).currentWalId]? = some f → f.content = []) :
    ∃ v, KeepsMap sz True True v (DB.recovered sz opts C) d := by
  have hnil : ∀ id, logRecords (C.reopened.logs id) = [] := fun id ↦
    (C.logRecords_reopened id).trans (hno id)
  refine ⟨_, _, _, .of_legible h (fun _ ↦ hnil) fun _ id _ ↦ hnil id, fun _ ↦
      ⟨h.wal, h.current, ?_, ?_⟩,
    rfl⟩
  · obtain ⟨f, hf⟩ := Option.ne_none_iff_exists'.1 h.current.active
    refine ⟨[], fun _ h ↦ absurd h List.not_mem_nil, ?_⟩
    rw [hf, h.settled _ f hf, hempty f ((h.holds.logs _).trans hf)]
    rfl
  · have hrecords : C.reopened.records = C.records := by
      refine recordsBelow_congr fun id _ ↦ C.logRecords_reopened id
    rw [hrecords]
    exact layer_replayed C.records

end Session

/-! ## A failing flush -/

/-- **A failing flush leaves a usable store**: in every session on a directory without records that
some history has left, when `P` holds of the store that is opened and `Q` of all operations, the
store serves the map of the operations, a crash loses nothing, and a segment is open. -/
def FailsSafely (sz : Sizing) (P : DB → Disk → Prop) (Q : Attempt → Prop) : Prop :=
  ∀ (hist : List (Label × Trace)) (d₀ d₁ d : Disk) (opts : Options) (tr : Trace) (db₁ db : DB)
    (as : List Attempt), Run sz (.closed ∅) hist (.closed d₀) → (∀ s ∈ hist, Sane sz s) →
    NoRecords d₀ → Exec reliable DB.recover { opts } d₀ tr (.ok () db₁ d₁) → P db₁ d₁ →
    Session sz db₁ d₁ as db d → (∀ a ∈ as, a.Sane sz ∧ Q a) →
    ∃ v, Answers db₁ d₁ v ∧ Answers db d (Op.applyAll (as.map (·.op)) v) ∧
      (∀ d' opts', d.Crashed d' → DB.recover.Returns reliable { opts := opts' } d' fun _ db' d'' ↦
        Answers db' d'' (Op.applyAll (as.map (·.op)) v)) ∧
      db.wal = some (walSegPath db.currentWalId) ∧ ∀ a ∈ as, a.threw ≠ some .nullWal

/-- **It does**, when the segment that is opened first is empty, and neither the opening of a
segment or of a merged table nor the renaming of the MANIFEST can fail. -/
theorem failsSafely (sz : Sizing) :
    FailsSafely sz (fun db d ↦ ∀ f, d[walSegPath db.currentWalId]? = some f → f.content = [])
      fun a ↦ a.Harmless ∧ a.OpensWal := by
  intro hist d₀ d₁ d opts tr db₁ db as hrun hhist hno hx hempty hs has
  obtain ⟨C, hd, hsound, rfl, h⟩ := (readable_of_run hrun hhist).exec_recover hx
  have hnil : ∀ id, logRecords (C.logs id) = [] := by
    intro id
    cases hlog : C.logs id with
    | none => rfl
    | some f => exact hno _ f ((hd.logs id).trans hlog) (DB.extension_walSegPath id)
  obtain ⟨v, hv⟩ := h.keepsMap_of_noRecords hnil hempty
  obtain ⟨v', hv', hT, -⟩ := hs.keepsMap hv fun a ha ↦
    ⟨(has a ha).1, (has a ha).2.1, fun _ ↦ (has a ha).2.2, fun h ↦ absurd trivial h⟩
  obtain ⟨rfl, hthrew⟩ := hT trivial
  obtain ⟨C', ts, hu, hl, hshown⟩ := hv'
  refine ⟨v, hv.answers, hshown ▸ hu.answers, fun d' opts' hc ↦ ?_, (hl trivial).wal, hthrew⟩
  exact hshown ▸ hu.recover (hu.view_of_logging (hl trivial)) hc opts'

/-- The file of a table cannot be created. -/
def unbuilt (path : Name) : Faults Mark := ⟨(· = .openTrunc path), fun _ ↦ False⟩

theorem throwing_unbuilt (path : Name) : Throwing (unbuilt path) :=
  ⟨fun _ h ↦ h.elim, by rintro f ⟨⟩, by rintro a b ⟨⟩, by rintro n ⟨⟩⟩

/-- The calls of a flush whose table cannot be created. -/
def unbuiltTrace (db : DB) (d : Disk) : Trace :=
  [buildEvent db db.memtable.data d, ⟨.openTrunc (sstPath db.nextSstId), taken db, d⟩]

/-- **A flush throws** when its table cannot be created; it has taken a number. -/
theorem exec_flush_unbuilt {sz : Sizing} {db : DB} {d : Disk} (hne : db.memtable.empty = false) :
    Exec (device (unbuilt (sstPath db.nextSstId))) (DB.flushMemtableLocked sz) db d
      (unbuiltTrace db d) (.threw (.sstBuild (sstPath db.nextSstId)) (taken db) d) := by
  rw [DB.flushMemtableLocked]
  refine .get ?_
  rw [Prog.bind, hne]
  exact .get (.set (.call ⟨rfl, rfl⟩ (.call (.inr ⟨rfl, rfl, rfl⟩) .throw)))

theorem onBuild_unbuiltTrace {P : Entries → DB → Disk → Prop} {db : DB} {d : Disk}
    (h : P db.memtable.data (taken db) d) : ∀ ev ∈ unbuiltTrace db d, OnBuild P ev :=
  List.forall_mem_cons.2
    ⟨onBuild_buildEvent h, List.forall_mem_singleton.2 (onBuild_of_isPlain rfl)⟩

/-- An operation whose table cannot be created. -/
theorem sane_unbuilt {sz : Sizing} {op : Op} {e : Error} {db : DB} {d : Disk}
    (hop : op.record = none) (h : BloomFits sz db.memtable.data ∧ NoWrap (taken db)) :
    Attempt.Sane sz ⟨op, unbuilt (sstPath db.nextSstId), unbuiltTrace db d, some e⟩ ∧
      Attempt.Harmless ⟨op, unbuilt (sstPath db.nextSstId), unbuiltTrace db d, some e⟩ ∧
      Attempt.OpensWal ⟨op, unbuilt (sstPath db.nextSstId), unbuiltTrace db d, some e⟩ := by
  have hread : ∀ ev : Event (Call Mark) DB Disk, MergeRead ev →
      ¬(unbuilt (sstPath db.nextSstId)).refuse ev.call := by
    rintro ev ⟨-, n, hcall⟩ hf
    rw [hcall] at hf
    cases hf
  refine ⟨⟨fun r hr ↦ ?_, onBuild_unbuiltTrace h, throwing_unbuilt _, fun ev _ hr _ ↦ hread ev hr⟩,
    ⟨fun ev _ hr _ ↦ hread ev hr, by rintro ⟨⟩⟩, by rintro id ⟨⟩⟩
  rw [hop] at hr
  cases hr

/-- An operation in which nothing fails. -/
theorem sane_reliable {sz : Sizing} {op : Op} {tr : Trace} (hop : ∀ r ∈ op.record, r.IsShort)
    (h : ∀ ev ∈ tr, OnBuild (fun entries db _ ↦ BloomFits sz entries ∧ NoWrap db) ev) :
    Attempt.Sane sz ⟨op, .none, tr, none⟩ ∧ Attempt.Harmless ⟨op, .none, tr, none⟩ ∧
      Attempt.OpensWal ⟨op, .none, tr, none⟩ :=
  ⟨⟨hop, h, throwing_none, fun _ _ _ _ ↦ id⟩, ⟨fun _ _ _ _ ↦ id, id⟩, fun _ ↦ id⟩

/-- The first flush of a new store throws, and the second one returns. -/
theorem failsSafely_retried : ∃ (d₁ d : Disk) (db : DB) (as : List Attempt),
    Session .onePercent (Snapshot.first .onePercent).db d₁ as db d ∧
    as.map (·.op) = [.put [107] [49], .flush, .flush] ∧
    as.map (·.threw) = [none, some (.sstBuild (sstPath 0)), none] ∧
    ∃ v, Answers (Snapshot.first .onePercent).db d₁ v ∧
      Answers db d (Op.applyAll (as.map (·.op)) v) ∧
      (∀ d' opts', d.Crashed d' → DB.recover.Returns reliable { opts := opts' } d' fun _ db' d'' ↦
        Answers db' d'' (Op.applyAll (as.map (·.op)) v)) ∧
      db.wal = some (walSegPath db.currentWalId) ∧ ∀ a ∈ as, a.threw ≠ some .nullWal := by
  let P : Entries → DB → Disk → Prop := fun entries db _ ↦ BloomFits .onePercent entries ∧ NoWrap db
  let s := (Snapshot.first .onePercent).write Snapshot.older
  have hopen : SSTable.Openable .onePercent s.db.memtable.data :=
    Snapshot.openable_applyRecord (by decide)
  have hne : s.db.memtable.empty = false := empty_applyRecord _ _
  obtain ⟨tr, d₁, hx, -, ho⟩ := exists_recover (P := P) (holds_empty .onePercent) sound_empty {}
  obtain ⟨tr₁, d₂, hx₁, htr₁, ho₁⟩ := Snapshot.exists_exec_older (P := P) ho
  obtain ⟨tr₂, db, d, hx₂, htr₂, -⟩ := exists_exec (P := P) (Q := fun _ _ _ ↦ True) (d := d₂)
    (wp_flush_onBuilds (show (taken s.db).memtable.empty = false from hne) hopen
      ⟨hopen.bloom, by decide⟩ trivial)
  have hs := @Session.did _ _ _ _ .flush _ _ _ _ _ _
    (@Session.threw _ _ _ _ .flush _ _ _ _ _ _ _ (.did .nil hx₁) (exec_flush_unbuilt hne)) hx₂
  have hput : ∀ r ∈ (Op.put [107] [49]).record, r.IsShort := by decide
  have hflush : ∀ r ∈ Op.flush.record, r.IsShort := fun r hr ↦ nomatch hr
  have hsegment : d₁[walSegPath 0]? = some {} := ho.holds.logs 0
  refine ⟨d₁, d, db, _, hs, rfl, rfl, failsSafely .onePercent [] ∅ d₁ d {} tr _ db _ .nil
    (fun _ h ↦ absurd h List.not_mem_nil) (fun _ _ hf ↦ by simp at hf) hx (fun f hf ↦ ?_) hs ?_⟩
  · obtain rfl := Option.some.inj (hsegment.symm.trans hf)
    rfl
  · simp only [List.forall_mem_append, List.forall_mem_singleton]
    exact ⟨⟨⟨fun _ h ↦ absurd h List.not_mem_nil, sane_reliable hput htr₁⟩,
      sane_unbuilt rfl ⟨hopen.bloom, by decide⟩⟩, sane_reliable hflush htr₂⟩

/-- A program that cannot return when a call fails has a run that throws. -/
theorem exists_throws {c₀ : Call Mark} {p : Io DB Unit} {C P : Event (Call Mark) DB Disk → Prop}
    {E : Error → DB → Disk → Prop} {db : DB} {d : Disk}
    (hthrows : p.wp (failing c₀) ⟨fun _ ↦ True, C⟩ (fun _ _ _ ↦ False) (fun _ _ _ ↦ True) db d)
    (hleft : p.wp (device ⟨(· = c₀), fun _ ↦ False⟩) ⟨fun _ ↦ True, P⟩ (fun _ _ _ ↦ True) E db d) :
    ∃ tr e db' d', Exec (device ⟨(· = c₀), fun _ ↦ False⟩) p db d tr (.threw e db' d') ∧
      (∀ ev ∈ tr, C ev) ∧ (∀ ev ∈ tr, P ev) ∧ E e db' d' := by
  obtain ⟨tr, o, hx, hcut⟩ := Exec.exists_run (failing_total c₀) p db d
  obtain ⟨hC, hend⟩ := hx.of_wp (fun _ _ ↦ trivial) hthrows
  obtain ⟨hP, hE⟩ := (exec_of_failing hx).of_wp (fun _ _ ↦ trivial) hleft
  cases o with
  | ok => exact hend.elim
  | threw e db' d' => exact ⟨tr, e, db', d', exec_of_failing hx, hC, hP, hE⟩
  | cut d' => exact absurd rfl (hcut d')

/-- **A flush throws** when the next segment cannot be opened. -/
theorem wp_flush_unopened {sz : Sizing} {db : DB} {d : Disk} (hne : db.memtable.empty = false) :
    (DB.flushMemtableLocked sz).wp
      (failing (.openAppend (walSegPath (u64 (db.nextSstId + 1))))) .blind
      (fun _ _ _ ↦ False) (fun _ _ _ ↦ True) db d := by
  have hW : Idle .blind := fun _ _ _ _ ↦ trivial
  rw [DB.flushMemtableLocked, wp_bind, Crash.wp_get, hne]
  simp only [Bool.false_eq_true, if_false]
  rw [wp_bind, wp_modify, wp_bind]
  refine wp_pass hW (SSTable.silent_build notFlushed_of_callOn _ _ (by rintro ⟨⟩)) fun _ d ↦ ?_
  rw [wp_bind]
  refine wp_pass hW (SSTable.silent_open (by rintro ⟨⟩)) fun table d ↦ ?_
  rw [wp_bind, wp_modify, wp_bind]
  refine wp_updateManifestLocked_count hW fun g d ↦ ?_
  rw [wp_bind, Crash.wp_get, wp_bind]
  refine wp_resetWal_count hW fun d ↦ ?_
  rw [wp_bind]
  refine wp_pass hW (silent_call (by rintro ⟨⟩)) fun _ d ↦ ?_
  rw [wp_bind, wp_modify, wp_bind, Crash.wp_get, wp_bind, WAL.open, wp_bind]
  refine ⟨trivial, fun _ r d' hs ↦ ?_⟩
  obtain rfl : r = false := hs.2 rfl
  trivial

theorem exists_flush_throws {sz : Sizing} {db : DB} {d : Disk} {P : Entries → DB → Disk → Prop}
    (hne : db.memtable.empty = false) (hopen : SSTable.Openable sz db.memtable.data)
    (hP : P db.memtable.data (taken db) d) :
    ∃ tr e db' d',
      Exec (device ⟨(· = .openAppend (walSegPath (u64 (db.nextSstId + 1)))), fun _ ↦ False⟩)
      (DB.flushMemtableLocked sz) db d tr (.threw e db' d') ∧ (∀ ev ∈ tr, OnBuild P ev) ∧
      db'.wal = none := by
  have hF : Throwing
      (⟨(· = .openAppend (walSegPath (u64 (db.nextSstId + 1)))), fun _ ↦ False⟩ : Faults Mark) :=
    ⟨fun _ h ↦ h.elim, by rintro f ⟨⟩, by rintro a b ⟨⟩, by rintro n ⟨⟩⟩
  obtain ⟨tr, e, db', d', hx, -, hP, hE⟩ := exists_throws (E := fun _ db' _ ↦ db'.wal = none)
    (P := OnBuild P) (wp_flush_unopened hne) <|
    DB.wp_flushMemtableLocked hF hne (onBuild_buildEvent hP) fun _ ↦
      ⟨hopen, fun _ hev ↦ onBuild_flushEvent hev, fun e db' d' ht ↦ by
        cases ht with
        | build hf => cases hf
        | «open» hf => cases hf
        | manifest _ hf _ => rcases hf with hf | ⟨_, hf⟩ | hf <;> cases hf
        | wal => rfl, trivial⟩
  exact ⟨tr, e, db', d', hx, hP, hE⟩

/-- **After the first flush has failed to open a segment, none is open.** -/
theorem not_failsSafely : ¬FailsSafely .onePercent (fun _ _ ↦ True) fun _ ↦ True := by
  intro h
  let P : Entries → DB → Disk → Prop := fun entries db _ ↦ BloomFits .onePercent entries ∧ NoWrap db
  obtain ⟨tr, d₁, hx, -, ho⟩ := exists_recover (P := P) (holds_empty .onePercent) sound_empty {}
  obtain ⟨tr₁, d₂, hx₁, htr₁, ho₁⟩ := Snapshot.exists_exec_older (P := P) ho
  have hopen : SSTable.Openable .onePercent (DB.applyRecord Snapshot.older {}).data :=
    Snapshot.openable_applyRecord (by decide)
  obtain ⟨tr₂, e, db, d, hx₂, htr₂, hwal⟩ := exists_flush_throws (P := P) (d := d₂)
    (show ((Snapshot.first .onePercent).write Snapshot.older).db.memtable.empty = false from
      empty_applyRecord _ _) hopen
    ⟨hopen.bloom, by decide⟩
  have hs : Session .onePercent _ d₁ [⟨.put [107] [49], .none, tr₁, none⟩,
      ⟨.flush, _, tr₂, some e⟩] db d :=
    @Session.threw _ _ _ _ .flush _ _ _ _ _ _ _ (.did .nil hx₁) hx₂
  refine absurd (h [] ∅ d₁ d {} tr _ db _ .nil (fun _ h ↦ absurd h List.not_mem_nil)
    (fun _ _ hf ↦ by simp at hf) hx trivial hs ?_) ?_
  · have hshort : ∀ r ∈ (Op.put [107] [49]).record, r.IsShort := by decide
    simp only [List.forall_mem_cons]
    refine ⟨⟨⟨hshort, htr₁, throwing_none, fun _ _ _ _ ↦ id⟩, trivial⟩,
      ⟨⟨?_, htr₂, ?_, ?_⟩, trivial⟩, fun _ h ↦ absurd h List.not_mem_nil⟩
    · exact fun r hr ↦ nomatch hr
    · exact ⟨fun _ h ↦ h.elim, by rintro f ⟨⟩, by rintro a b ⟨⟩, by rintro n ⟨⟩⟩
    · rintro ev - ⟨-, n, hcall⟩ - hf
      rw [hcall] at hf
      cases hf
  · rintro ⟨v, -, -, -, hopen, -⟩
    rw [hwal] at hopen
    cases hopen

end KeyValStore
