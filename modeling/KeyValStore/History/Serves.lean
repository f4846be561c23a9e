import KeyValStore.Store.Faithful
import KeyValStore.History.Step

/-!
# Serving a map

`Serves` says of an open store, and `Rests` of a closed directory, that they stand for a map: the
open store answers from it, and recovery would bring it back.  Every operation of a faithful session
keeps this, with the map it makes of the one before, and no operation throws (`wp_run`, `wp_close`,
`wp_recover`).

The parameter `L` says whether it is known that no segment but the current one has records.  Where
it is not known, it has to be assumed of every flush.
-/

set_option autoImplicit false

namespace KeyValStore

open Crash Std Overlay
open DB (applied flushedDb flushedDisk mergedDb mergedDisk loggedDisk shown walSegPath tableLayer
  buildEvent Keeps)

/-- **An open store that serves a map.** -/
def Serves (sz : Sizing) (L : Prop) (v : Bytes → Option Bytes) (db : DB) (d : Disk) : Prop :=
  ∃ C, Opened sz db d C ∧ Faithful db C ∧ (L → NoStale db C) ∧ shown db.memtable.data C.tables = v

/-- **A directory that stands for a map.** -/
def Rests (sz : Sizing) (L : Prop) (v : Bytes → Option Bytes) (d : Disk) : Prop :=
  ∃ C, Holds sz d C ∧ C.Sound ∧ C.Whole ∧ C.IsShort ∧ (L → ∀ id, logRecords (C.logs id) = []) ∧
    C.view = v

/-- A directory from which recovery will bring back one of the given maps, after a crash, too. -/
def Survives (sz : Sizing) (P : (Bytes → Option Bytes) → Prop) (d : Disk) : Prop :=
  ∃ C, Holds sz d C ∧ C.Sound ∧ C.Yields P

section Serves

variable {sz : Sizing} {L : Prop} {v : Bytes → Option Bytes} {db : DB} {d : Disk}
  {W : Watch (Call Mark) DB Disk}

theorem Serves.answers (h : Serves sz L v db d) : Answers db d v := by
  obtain ⟨C, ho, hf, -, rfl⟩ := h
  exact answers_shown ho.tables ho.holds.tables.stored hf.short

theorem Serves.survives (h : Serves sz L v db d) : Survives sz (· = v) d := by
  obtain ⟨C, ho, hf, -, rfl⟩ := h
  exact ⟨C, ho.holds, ho.sound, hf.whole.yields hf.short hf.view_eq⟩

theorem Rests.survives (h : Rests sz L v d) : Survives sz (· = v) d := by
  obtain ⟨C, hd, hs, hw, hshort, -, rfl⟩ := h
  exact ⟨C, hd, hs, hw.yields hshort rfl⟩

theorem Survives.mono {P P' : (Bytes → Option Bytes) → Prop} (h : Survives sz P d)
    (hP : ∀ v, P v → P' v) : Survives sz P' d := by
  obtain ⟨C, hd, hs, hy⟩ := h
  exact ⟨C, hd, hs, hy.mono hP⟩

theorem rests_empty (sz : Sizing) (L : Prop) : Rests sz L (fun _ ↦ none) ∅ := by
  refine ⟨_, holds_empty sz, ?_, ?_, fun _ ht ↦ absurd ht List.not_mem_nil, fun _ _ ↦ rfl, rfl⟩
  · refine ⟨List.Pairwise.nil, fun _ ht ↦ absurd ht List.not_mem_nil, ?_, fun _ h ↦ absurd rfl h⟩
    rintro g ⟨⟩
  · rintro id f ⟨⟩

/-- An open store that serves a map can crash. -/
theorem Serves.crashed (h : Serves sz L v db d) {d' : Disk} (hc : d.Crashed d') :
    Rests sz False v d' := by
  obtain ⟨C, ho, hf, -, rfl⟩ := h
  obtain ⟨C', hC, hd⟩ := ho.holds.crashed hc
  rw [hf.whole.eq_of_crashed hC] at hd
  exact ⟨C, hd, ho.sound, hf.whole, hf.short, False.elim, hf.view_eq⟩

/-! ## The assumption on builds -/

/-- What the watch has to assume of the building of a table. -/
structure Assumes (sz : Sizing) (L : Prop) (W : Watch (Call Mark) DB Disk) : Prop where
  /-- The Bloom filter does not get too large. -/
  bloom : ∀ {db : DB} {entries : Entries} {d : Disk}, W.assume (buildEvent db entries d) →
    BloomFits sz entries
  /-- The next number does not wrap around. -/
  noWrap : ∀ {db : DB} {entries : Entries} {d : Disk}, W.assume (buildEvent db entries d) →
    NoWrap (DB.taken db)
  /-- No segment but the current one has records, if that is not known. -/
  noStale : ¬L → ∀ {db : DB} {entries : Entries} {d : Disk} {C : Contents}, Opened sz db d C →
    W.assume (buildEvent db entries d) → NoStale db C

/-- The number after the one that is taken is a number. -/
theorem succ_lt_of_noWrap (hn : db.nextSstId < 2 ^ 64) (h : NoWrap (DB.taken db)) :
    db.nextSstId + 1 < 2 ^ 64 := by
  rw [NoWrap, DB.taken, u64] at h
  by_contra hge
  rw [show db.nextSstId + 1 = 2 ^ 64 by omega, Nat.mod_self] at h
  exact lt_irrefl 0 h

theorem noWrap_taken {db : DB} (h : db.nextSstId + 1 < 2 ^ 64) : NoWrap (DB.taken db) := by
  rw [NoWrap, DB.taken, u64_of_lt h]
  exact Nat.succ_pos _

/-- **Flushes and merges keep the map.** -/
theorem keeps_serves (hA : Assumes sz L W)
    (hw : ∀ ev : Event (Call Mark) DB Disk, Survives sz (· = v) ev.disk → W.always ev) :
    Keeps sz W (Serves sz L v) where
  idle h c m d hc hd := hw _ (hd ▸ h.survives)
  flushBuild h he := hw _ h.survives
  flush := by
    rintro db d ⟨C, ho, hf, hL, rfl⟩ he hbuild
    have hlt := succ_lt_of_noWrap ho.next_lt (hA.noWrap hbuild)
    have hs : NoStale db C := by
      by_cases h : L
      · exact hL h
      · exact hA.noStale h ho hbuild
    have hopen := (SSTable.Fits.mk hf.memShort (hA.bloom hbuild)).openable
    refine ⟨hopen, fun ev hev ↦ hw ev ?_, DB.flushOpen db C, ho.flushed hlt hopen,
      hf.flushed ho hlt hs, fun _ id _ ↦
        Faithful.noRecords_flushOpen ho.last ho.wal_le hlt hs id, ?_⟩
    · obtain ⟨C', hmem, hd⟩ := DB.holds_of_flushStage ho.holds ho.gen_ne ho.tables
        ho.fresh ho.next_lt ho.wal_lt hopen hev.stage
      exact ⟨C', hd, ho.sound_flushContents hlt C' hmem, hf.yields_flushContents ho hlt hs C' hmem⟩
    · exact shown_flush db.nextSstId db.memtable.data C.tables
  merge := by
    rintro db d ⟨C, ho, hf, hL, rfl⟩ he
    have hserves : Serves sz L (shown db.memtable.data C.tables) db d := ⟨C, ho, hf, hL, rfl⟩
    refine ⟨C.tables, ho.tables, ho.holds.tables.stored, hw _ hserves.survives, fun hbuild ↦ ?_⟩
    have hlt := succ_lt_of_noWrap ho.next_lt (hA.noWrap hbuild)
    have hopen := (SSTable.Fits.mk (DB.isShort_cleanOf sz C.tables) (hA.bloom hbuild)).openable
    refine ⟨hopen, fun ev hev ↦ hw ev ?_, DB.mergeList sz db C, ho.merged hlt hopen,
      hf.merged ho he, hL, ?_⟩
    · obtain ⟨C', hmem, hd⟩ := DB.holds_of_mergeStage ho.holds ho.gen_ne ho.fresh ho.next_lt hopen
        hev.stage
      exact ⟨C', hd, ho.sound_mergeContents hlt C' hmem, hf.yields_mergeContents ho he C' hmem⟩
    · exact shown_merge sz db.nextSstId db.memtable.data hf.short

/-! ## Operations -/

theorem apply_of_record {op : Op} {r : WalRecord} (h : op.record = some r)
    (v : Bytes → Option Bytes) : op.apply v = Function.update v r.write.1 r.write.2 := by
  funext key
  cases op with
  | put k x =>
    obtain rfl := Option.some.inj h
    by_cases hk : key = k
    · simp [Op.apply, Op.effect, WalRecord.write, hk]
    · simp [Op.apply, Op.effect, WalRecord.write, hk, Ne.symm hk]
  | del k =>
    obtain rfl := Option.some.inj h
    by_cases hk : key = k
    · simp [Op.apply, Op.effect, WalRecord.write, WalOp.put, WalOp.del, hk]
    · simp [Op.apply, Op.effect, WalRecord.write, hk, Ne.symm hk]
  | flush => cases h
  | compact => cases h

theorem apply_of_record_none {op : Op} (h : op.record = none) (v : Bytes → Option Bytes) :
    op.apply v = v := by
  funext key
  cases op with
  | put k x => cases h
  | del k => cases h
  | flush => rfl
  | compact => rfl

/-- An operation that logs a record is a write. -/
theorem run_of_record {op : Op} {r : WalRecord} (h : op.record = some r) (sz : Sizing) :
    op.run sz = DB.writeRecord sz r := by
  cases op with
  | put k x =>
    obtain rfl := Option.some.inj h
    exact DB.put_eq sz k x
  | del k =>
    obtain rfl := Option.some.inj h
    exact DB.del_eq sz k
  | flush => cases h
  | compact => cases h

/-- **An operation does not throw, and makes of the map what it should**; at every call recovery
would bring back the map before or the map after. -/
theorem wp_run (hA : Assumes sz L W) {op : Op} (hop : ∀ r ∈ op.record, r.IsShort)
    (hw : ∀ ev : Event (Call Mark) DB Disk,
      Survives sz (fun u ↦ u = v ∨ u = op.apply v) ev.disk → W.always ev)
    (h : Serves sz L v db d) : (op.run sz).wp reliable W
      (fun _ db d ↦ Serves sz L (op.apply v) db d) (fun _ _ _ ↦ False) db d := by
  have hkeeps : Keeps sz W (Serves sz L (op.apply v)) := keeps_serves hA fun ev hev ↦
    hw ev (hev.mono fun _ ↦ .inr)
  cases hr : op.record with
  | some r =>
    have hshort := hop r hr
    obtain ⟨C, ho, hf, hL, rfl⟩ := h
    have hnew : shown (applied r db).memtable.data C.tables =
        op.apply (shown db.memtable.data C.tables) := by
      rw [apply_of_record hr]
      exact shown_applyRecord r db.memtable C.tables
    rw [run_of_record hr]
    refine hkeeps.wp_write ho.wal (fun c m d' hc hg ↦ hw _ ?_)
      ⟨DB.logged db C r, ho.written r, hf.logged ho.current hshort, fun hl ↦ (hL hl).logged r, hnew⟩
    obtain ⟨p, hp, hd⟩ := DB.holds_of_growing ho.holds ho.wal_lt hg
    refine ⟨_, hd, ho.sound_growing p, ?_⟩
    rw [← hnew]
    exact hf.yields_growing ho.current hshort hp
  | none =>
    rw [apply_of_record_none hr] at hkeeps ⊢
    cases op with
    | put k x => cases hr
    | del k => cases hr
    | flush => exact wp_mono (hkeeps.wp_flush h) (fun _ _ _ h ↦ h.1) fun _ _ _ ↦ id
    | compact => exact hkeeps.wp_compact h

/-- **A `get` does not throw, and answers from the map.** -/
theorem Serves.wp_get (h : Serves sz L v db d) (key : Bytes)
    (hw : ∀ ev : Event (Call Mark) DB Disk, Survives sz (· = v) ev.disk → W.always ev) :
    (DB.get key).wp reliable W (fun a db d ↦ a = v key ∧ Serves sz L v db d)
      (fun _ _ _ ↦ False) db d := by
  have hs := h.survives
  obtain ⟨C, ho, hf, hL, rfl⟩ := h
  refine DB.wp_get throwing_none (fun _ _ ↦ id) ho.tables ho.holds.tables.stored hf.short ?_
    ⟨rfl, C, ho, hf, hL, rfl⟩
  rintro c m _ hc rfl
  exact hw _ hs

/-- **A close does not throw, and keeps the map.** -/
theorem wp_close (hA : Assumes sz L W)
    (hw : ∀ ev : Event (Call Mark) DB Disk, Survives sz (· = v) ev.disk → W.always ev)
    (h : Serves sz L v db d) : (DB.close sz).wp reliable W (fun _ _ d ↦ Rests sz L v d)
      (fun _ _ _ ↦ False) db d := by
  refine wp_mono ((keeps_serves hA hw).wp_close h) ?_ fun _ _ _ ↦ id
  rintro _ _ d ⟨db, ⟨C, ho, hf, -, rfl⟩, he⟩
  exact ⟨C, ho.holds, ho.sound, hf.whole, hf.short,
    fun _ id ↦ hf.noRecords_of_empty ho.sound.logs he id, hf.view_eq⟩

/-! ## Recovery -/

/-- What recovery goes through would be recovered alike. -/
theorem Contents.Yields.reopening {C : Contents} {P : (Bytes → Option Bytes) → Prop}
    (h : C.Yields P) : ∀ C' ∈ C.reopening, C'.Yields P := by
  -- a crash of the contents that are gone through is one of the contents before, read alike
  have hsame : ∀ C₁ C' : Contents, C₁.tables = C.tables → C₁.Crashed C' →
      (∀ id, C₁.logs id = C.logs id ∨ C.logs id = none ∧ C₁.logs id = some {}) → P C'.view := by
    intro C₁ C' hts hc hlogs
    have hback : C.Crashed ⟨C.gen, C.tables, fun id ↦
        if C.logs id = none then none else C'.logs id⟩ := by
      refine ⟨rfl, rfl, fun id ↦ ?_⟩
      by_cases hid : C.logs id = none
      · simp only [hid, if_true]
        exact .none
      · simp only [hid, if_false]
        rw [← (hlogs id).resolve_right fun h ↦ hid h.1]
        exact hc.logs id
    have hview := h.view _ hback
    have heq : C'.view = Contents.view ⟨C.gen, C.tables, fun id ↦
        if C.logs id = none then none else C'.logs id⟩ := by
      refine Contents.view_congr (hc.tables.trans hts) fun id ↦ ?_
      by_cases hid : C.logs id = none
      · simp only [hid, if_true]
        have hrel := hc.logs id
        rcases hlogs id with hl | ⟨-, hl⟩
        · rw [(hc.logs_eq_none_iff id).2 (hl.trans hid)]
        · rw [hl] at hrel
          generalize C'.logs id = o at hrel
          cases hrel with
          | some hf =>
            rw [File.crashed_saved_iff.1 hf]
            exact logRecords_empty
      · simp only [hid, if_false]
    rwa [heq]
  have hreopened : ∀ id, C.reopened.logs id = C.logs id ∨
      C.logs id = none ∧ C.reopened.logs id = some {} := fun id ↦ by
    rw [C.reopened_logs]
    split
    · cases hlog : C.logs id with
      | none => exact .inr ⟨rfl, rfl⟩
      | some f => exact .inl rfl
    · exact .inl rfl
  simp only [Contents.reopening, List.forall_mem_cons]
  exact ⟨h, ⟨h.short, fun C' hc ↦ hsame C.withManifest C' rfl hc fun _ ↦ .inl rfl⟩,
    ⟨h.short, fun C' hc ↦ hsame C.reopened C' rfl hc hreopened⟩, fun _ ht ↦
    absurd ht List.not_mem_nil⟩

/-- **Recovery does not throw, and brings the map back.** -/
theorem wp_recover {opts : Options}
    (hw : ∀ ev : Event (Call Mark) DB Disk, Survives sz (· = v) ev.disk → W.always ev)
    (h : Rests sz L v d) : DB.recover.wp reliable W (fun _ db d ↦ Serves sz L v db d)
      (fun _ _ _ ↦ False) { opts } d := by
  obtain ⟨C, hd, hs, hwhole, hshort, hL, rfl⟩ := h
  refine DB.wp_recover hd hs.logs (fun ev hev ↦ hw ev ?_) fun d' hd' ↦ ?_
  · obtain ⟨C', hmem, hd'⟩ := hev.holds
    have hyields : C.Yields (· = C.view) := hwhole.yields hshort rfl
    exact ⟨C', hd', hs.reopening (fun hg ↦ (hd.first hg).1) C' hmem, hyields.reopening C' hmem⟩
  · refine ⟨C.reopened, opened_recovered hd' hs (fun hg ↦ (hd.first hg).1) opts,
      .recovered hwhole hshort sz opts, fun hl id _ ↦ ?_, C.shown_replayed⟩
    rw [C.reopened_logs]
    split
    · cases hlog : C.logs id with
      | none => exact logRecords_empty
      | some f =>
        have hnil := hL hl id
        rwa [hlog] at hnil
    · exact hL hl id

/-- **What the contents yield, recovery brings back.** -/
theorem Contents.Yields.recover {C : Contents} {P : (Bytes → Option Bytes) → Prop} (hy : C.Yields P)
    (hd : Holds sz d C) (hlogs : ∀ id, C.logs id ≠ none → id ≤ nextOf C.tables) {d' : Disk}
    (hc : d.Crashed d') (opts : Options) : DB.recover.Returns reliable { opts } d'
      fun _ db d'' ↦ ∃ u, P u ∧ Answers db d'' u := by
  obtain ⟨C', hC, hd'⟩ := hd.crashed hc
  have hlogs' : ∀ id, C'.logs id ≠ none → id ≤ nextOf C'.tables := fun id hid ↦ by
    rw [hC.tables]
    exact hlogs id fun hne ↦ hid ((hC.logs_eq_none_iff id).2 hne)
  refine Prog.returns_of_wp (DB.wp_recover hd' hlogs' (fun _ _ ↦ trivial)
    fun d'' hd'' ↦ ⟨C'.view, hy.view C' hC, ?_⟩)
  have hshort : ∀ t ∈ C'.tables, t.2.IsShort := hC.tables ▸ hy.short
  rw [← C'.shown_replayed]
  exact answers_shown rfl hd''.tables.stored hshort

/-- **What a directory survives, recovery brings back.** -/
theorem Survives.recover {P : (Bytes → Option Bytes) → Prop} (h : Survives sz P d) {d' : Disk}
    (hc : d.Crashed d') (opts : Options) : DB.recover.Returns reliable { opts } d'
      fun _ db d'' ↦ ∃ u, P u ∧ Answers db d'' u := by
  obtain ⟨C, hd, hs, hy⟩ := h
  exact hy.recover hd hs.logs hc opts

end Serves

end KeyValStore
