import KeyValStore.History.Reach

/-!
# What a reopened store shows

Sessions that end with a close or with a crash between two operations.  Recovery brings back what
was there before (`recoveryPreserves`), provided that no flush starts while some segment other than
the current one has records: such a segment stays behind, and its records are replayed over newer
ones.
-/

set_option autoImplicit false

namespace KeyValStore

open Crash Std
open DB (buildEvent walSegPath)

/-- No segment but the current one has records. -/
def NothingStale (db : DB) (d : Disk) : Prop :=
  ∀ (n : Name) (f : File), d[n]? = some f → extension n = ascii ".log" →
    n ≠ walSegPath db.currentWalId → WAL.records f.content = []

/-- Which segments have records can be read off the contents. -/
theorem nothingStale_iff {sz : Sizing} {db db' : DB} {d : Disk} {C : Contents} (h : Holds sz d C)
    (hwal : db'.currentWalId = db.currentWalId) : NothingStale db' d ↔ NoStale db C := by
  constructor
  · intro hstale id hid
    cases hlog : C.logs id with
    | none => rfl
    | some f =>
      refine hstale (walSegPath id) f ((h.logs id).trans hlog) (DB.extension_walSegPath id) ?_
      exact fun heq ↦ hid ((DB.walSegPath_inj.1 heq).trans hwal)
  · intro hstale n f hf hn hne
    have hext : ∀ {e : Bytes}, extension n = e → e ≠ ascii ".log" → WAL.records f.content = [] :=
      fun he hlog ↦ absurd (he.symm.trans hn) hlog
    cases h.names n f hf with
    | dest => exact hext rfl (by decide)
    | tmp => exact hext rfl (by decide)
    | sst id => exact hext (DB.extension_sstPath id) (by decide)
    | done id => exact hext (DB.extension_donePath id) (by decide)
    | @log id =>
      have hid : id ≠ db.currentWalId := fun heq ↦ hne (by rw [heq, hwal])
      have hnone := hstale id hid
      rwa [← h.logs id, hf] at hnone

/-- Taking a number does not change the segment. -/
theorem nothingStale_taken_iff {sz : Sizing} {db : DB} {d : Disk} {C : Contents}
    (h : Holds sz d C) : NothingStale (DB.taken db) d ↔ NoStale db C := nothingStale_iff h rfl

/-- What is asked of every step of a history, with a condition on the building of tables. -/
structure Orderly (sz : Sizing) (P : Entries → DB → Disk → Prop) (s : Label × Trace) : Prop where
  /-- The process does not die in the middle of the step. -/
  uncut : ¬s.1.IsCut
  /-- Strings are short. -/
  short : s.1.IsShort
  /-- Bloom filters do not get too large. -/
  bloom : ∀ ev ∈ s.2, OnBuild (fun entries _ _ ↦ BloomFits sz entries) ev
  /-- The condition. -/
  build : ∀ ev ∈ s.2, OnBuild P ev

/-- **Recovery preserves the visible store**, in every history from the empty directory whose builds
meet the condition: after a close or a crash between two operations, recovery returns, and the store
answers every `get` as before. -/
def RecoveryPreserves (sz : Sizing) (P : Entries → DB → Disk → Prop) : Prop :=
  ∀ (hist : List (Label × Trace)) (db : DB) (d d' : Disk) (l : Label) (tr : Trace) (opts : Options),
    Run sz (.closed ∅) hist (.opened db d) → (∀ s ∈ hist, Orderly sz P s) →
    Step sz (.opened db d) l tr (.closed d') → Orderly sz P (l, tr) →
    ∃ v, Answers db d v ∧
      DB.recover.Returns reliable { opts } d' fun _ db' d'' ↦ Answers db' d'' v

section Reopen

variable {sz : Sizing} {L : Prop} {P : Entries → DB → Disk → Prop} {v : Bytes → Option Bytes}
  {db : DB} {d : Disk}

/-- The watch of a history: its builds meet the condition. -/
def buildWatch (sz : Sizing) (P : Entries → DB → Disk → Prop) : Watch (Call Mark) DB Disk where
  assume ev := OnBuild (fun entries _ _ ↦ BloomFits sz entries) ev ∧ OnBuild P ev
  always _ := True

/-- The condition of the theorem is what has to be assumed of builds. -/
theorem assumes_buildWatch (hP : ∀ entries db d, P entries db d → NoWrap db)
    (hstale : ¬L → ∀ entries db d, P entries db d → NothingStale db d) :
    Assumes sz L (buildWatch sz P) where
  bloom h := h.1 _ _ rfl
  noWrap h := hP _ _ _ (h.2 _ _ rfl)
  noStale hL := by
    intro db entries d C ho h
    exact (nothingStale_taken_iff ho.holds).1 (hstale hL _ _ _ (h.2 _ _ rfl))

/-- Recovery of a directory at rest. -/
theorem Rests.recover (h : Rests sz L v d) (opts : Options) :
    DB.recover.Returns reliable { opts } d fun _ db d' ↦ Serves sz L v db d' :=
  Prog.returns_of_wp (wp_recover (fun _ _ ↦ trivial) h)

/-- What a world stands for. -/
def World.Shows (sz : Sizing) (L : Prop) (v : Bytes → Option Bytes) : World → Prop
  | closed d => Rests sz L v d
  | opened db d => Serves sz L v db d

/-- What a step makes of the map. -/
def Label.apply : Label → (Bytes → Option Bytes) → Bytes → Option Bytes
  | did op => op.apply
  | didCut op => op.apply
  | _ => id

/-- **A step that is not cut** makes of the map what it should; it throws no exception. -/
theorem World.Shows.step (hA : Assumes sz L (buildWatch sz P)) {w w' : World}
    {l : Label} {tr : Trace} (h : w.Shows sz L v) (hs : Step sz w l tr w')
    (hl : Orderly sz P (l, tr)) (hcrash : L → ∀ db d, w ≠ .opened db d ∨ l ≠ .crashed) :
    w'.Shows sz L (l.apply v) := by
  have hassume : ∀ ev ∈ tr, (buildWatch sz P).assume ev := fun ev hev ↦
    ⟨hl.bloom ev hev, hl.build ev hev⟩
  cases hs with
  | opened hx => exact (hx.of_wp hassume (wp_recover (fun _ _ ↦ trivial) h)).2
  | openThrew hx => exact (hx.of_wp hassume (wp_recover (fun _ _ ↦ trivial) h)).2.elim
  | did hx => exact (hx.of_wp hassume (wp_run hA hl.short (fun _ _ ↦ trivial) h)).2
  | threw hx => exact (hx.of_wp hassume (wp_run hA hl.short (fun _ _ ↦ trivial) h)).2.elim
  | closed hx => exact (hx.of_wp hassume (wp_close hA (fun _ _ ↦ trivial) h)).2
  | closeThrew hx _ => exact (hx.of_wp hassume (wp_close hA (fun _ _ ↦ trivial) h)).2.elim
  | crashed hc =>
    by_cases hL : L
    · rcases hcrash hL _ _ with h | h <;> exact absurd rfl h
    · obtain ⟨C, hd, hrest⟩ := h.crashed hc
      exact ⟨C, hd, hrest.1, hrest.2.1, hrest.2.2.1, fun h ↦ absurd h hL, hrest.2.2.2.2⟩
  | openCut => exact absurd trivial hl.uncut
  | didCut => exact absurd trivial hl.uncut
  | closeCut => exact absurd trivial hl.uncut

/-- **Orderly histories**: the world stands for a map. -/
theorem exists_shows {hist : List (Label × Trace)} {w : World} (hrun : Run sz (.closed ∅) hist w)
    (hhist : ∀ s ∈ hist, Orderly sz (fun _ db d ↦ NoWrap db ∧ NothingStale db d) s) :
    ∃ v, w.Shows sz False v := by
  have hA : Assumes sz False (buildWatch sz fun _ db d ↦ NoWrap db ∧ NothingStale db d) :=
    assumes_buildWatch (fun _ _ _ h ↦ h.1) fun _ _ _ _ h ↦ h.2
  refine hrun.keeps (I := fun _ w ↦ ∃ v, w.Shows sz False v) ⟨_, rests_empty sz False⟩ ?_ hhist
  rintro hist w l tr w' ⟨v, hv⟩ hs hl
  exact ⟨_, hv.step hA hs hl False.elim⟩

/-- **Recovery preserves the visible store** when every flush starts with no records in any segment
but the current one. -/
theorem recoveryPreserves (sz : Sizing) :
    RecoveryPreserves sz fun _ db d ↦ NoWrap db ∧ NothingStale db d := by
  intro hist db d d' l tr opts hrun hhist hstep hl
  have hA : Assumes sz False (buildWatch sz fun _ db d ↦ NoWrap db ∧ NothingStale db d) :=
    assumes_buildWatch (fun _ _ _ h ↦ h.1) fun _ _ _ _ h ↦ h.2
  obtain ⟨v, hv⟩ : ∃ v, Serves sz False v db d := exists_shows hrun hhist
  refine ⟨v, hv.answers, ?_⟩
  have hrest := World.Shows.step (w := .opened db d) hA hv hstep hl False.elim
  have happly : l.apply v = v := by
    cases hstep with
    | didCut => exact absurd trivial hl.uncut
    | crashed => rfl
    | closed => rfl
    | closeCut => rfl
    | closeThrew => rfl
  rw [happly] at hrest
  intro tr' o hx
  rcases hrest.recover opts tr' o hx with hcut | ⟨a, db', d'', rfl, hserves⟩
  · exact .inl hcut
  · exact .inr ⟨a, db', d'', rfl, hserves.answers⟩

end Reopen

/-- A write after two flushes and a compaction, and a crash that loses nothing. -/
theorem recoveryPreserves_compacted : ∃ hist d d',
    Run .onePercent (.closed ∅) hist (.opened (Snapshot.compacted.write Snapshot.older).db d) ∧
    (∀ s ∈ hist, Orderly .onePercent (fun _ db d ↦ NoWrap db ∧ NothingStale db d) s) ∧
    d.Crashed d' ∧ ∃ v, Answers (Snapshot.compacted.write Snapshot.older).db d v ∧
      DB.recover.Returns reliable {} d' fun _ db' d'' ↦ Answers db' d'' v := by
  obtain ⟨hreach, -⟩ := Snapshot.reaches_compacted (fun l ↦ ¬l.IsCut ∧ l.IsShort)
    (P := fun entries db d ↦ BloomFits .onePercent entries ∧ NoWrap db ∧
      NothingStale db d) ⟨id, trivial⟩
    (fun op hop ↦ ⟨id, hop⟩) fun s entries d ho hs hopen hlt ↦
      ⟨hopen.bloom, noWrap_taken (by omega),
      (nothingStale_taken_iff ho.holds).2 hs⟩
  have hshort : ∀ r ∈ (Op.put [107] [49]).record, r.IsShort := by decide
  obtain ⟨hist, d, hrun, hmeets, -⟩ := hreach.write (.put [107] [49]) rfl (by decide) ⟨id, hshort⟩
  have hhist : ∀ s ∈ hist, Orderly .onePercent (fun _ db d ↦ NoWrap db ∧ NothingStale db d) s := by
    refine fun s hs ↦ ⟨(hmeets s hs).label.1, (hmeets s hs).label.2, fun ev hev ↦ ?_,
      fun ev hev ↦ ?_⟩
    · exact ((hmeets s hs).build ev hev).mono fun _ _ _ ↦ And.left
    · exact ((hmeets s hs).build ev hev).mono fun _ _ _ ↦ And.right
  have hnil : ∀ {P : Event (Call Mark) DB Disk → Prop}, ∀ ev ∈ ([] : Trace), P ev := fun _ h ↦
    absurd h List.not_mem_nil
  exact ⟨hist, d, _, hrun, hhist, d.crashed_sync,
    recoveryPreserves .onePercent hist _ d _ .crashed [] {} hrun hhist (.crashed d.crashed_sync)
      ⟨id, trivial, hnil, hnil⟩⟩

/-! ## A write that comes back -/

theorem Snapshot.isShort_stale : ∀ t ∈ stale.contents.tables, t.2.IsShort := by
  have hmem : (reopened.write newer).db.memtable =
      DB.applyRecord newer (DB.replayed (compacted.write older).crash.records) := rfl
  have hlast : (reopened.write newer).db.memtable.data.IsShort := by
    rw [hmem]
    exact isShort_applyRecord (by decide) (isShort_replayed fun _ ↦ Contents.short_of_mem_records)
  have htables : stale.contents.tables = (3, (reopened.write newer).db.memtable.data) ::
      compacted.contents.tables := rfl
  rw [htables, List.forall_mem_cons]
  exact ⟨hlast, List.forall_mem_singleton.2 (DB.isShort_cleanOf _ _)⟩

/-- **An overwritten value comes back**: the segment that stays behind is replayed again. -/
theorem not_recoveryPreserves : ¬RecoveryPreserves .onePercent fun _ _ _ ↦ True := by
  intro h
  obtain ⟨hist, d, hrun, hmeets, ho⟩ := Snapshot.reaches_stale (fun l ↦ ¬l.IsCut ∧ l.IsShort)
    (P := fun entries _ _ ↦ BloomFits .onePercent entries) ⟨id, trivial⟩ ⟨id, trivial⟩
    (fun op hop ↦ ⟨id, hop⟩) fun _ _ _ hopen _ ↦ hopen.bloom
  have hhist : ∀ s ∈ hist, Orderly .onePercent (fun _ _ _ ↦ True) s := fun s hs ↦
    ⟨(hmeets s hs).label.1, (hmeets s hs).label.2, (hmeets s hs).build, fun _ _ _ _ _ ↦ trivial⟩
  have hnil : ∀ {P : Event (Call Mark) DB Disk → Prop}, ∀ ev ∈ ([] : Trace), P ev := fun _ h ↦
    absurd h List.not_mem_nil
  obtain ⟨v, hv, hrecover⟩ := h hist _ d _ .crashed [] {} hrun hhist (.crashed d.crashed_sync)
    ⟨id, trivial, hnil, hnil⟩
  -- before the crash the second write is seen
  have hbefore : v [107] = some [50] := by
    have hshown := answers_shown ho.tables ho.holds.tables.stored Snapshot.isShort_stale
    rw [hv.unique hshown]
    have htables : Snapshot.stale.contents.tables =
        (3, (Snapshot.reopened.write Snapshot.newer).db.memtable.data) ::
        Snapshot.compacted.contents.tables := rfl
    have hmem : (Snapshot.reopened.write Snapshot.newer).db.memtable =
        DB.applyRecord Snapshot.newer Snapshot.reopened.db.memtable := rfl
    have hempty : Snapshot.stale.db.memtable.data = ∅ := rfl
    rw [htables, hempty, shown_flush, hmem, shown_applyRecord]
    rfl
  -- after it, the first
  have hafter : v [107] = some [49] := by
    obtain ⟨hd, hs⟩ := Snapshot.holds_crash ho
    have hwp : DB.recover.wp reliable .blind (fun _ db d ↦ Answers db d Snapshot.stale.crash.view)
        (fun _ _ _ ↦ False) {} (d.map fun _ f ↦ f.sync) :=
      DB.wp_recover hd hs.logs (fun _ _ ↦ trivial) fun d' hd' ↦ by
        rw [← Snapshot.stale.crash.shown_replayed]
        exact answers_shown rfl hd'.tables.stored Snapshot.isShort_stale
    obtain ⟨_, db', d', hv', hview⟩ := hrecover.exists_ok (device_total .none) hwp
    rw [hv'.unique hview, Contents.view, Snapshot.records_stale]
    rfl
  rw [hbefore] at hafter
  exact absurd hafter (by decide)

end KeyValStore
