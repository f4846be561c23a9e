import KeyValStore.History.Newest
import KeyValStore.History.Reopen

/-!
# A crash at any step

Sessions that start from an empty directory and are all closed, except that the last one may crash
anywhere: between two operations, or in the middle of one, of opening or of closing.  No segment but
the current one ever has records then, and recovery brings back what all completed writes have made,
or that with the write that was under way (`crashAtomic`).

It does not, once the numbers of tables have wrapped around (`not_crashAtomic`).
-/

set_option autoImplicit false

namespace KeyValStore

open Crash Std

/-- A step of a session that is opened and closed as it should be. -/
def Label.IsClean : Label → Prop
  | opened _ => True
  | did _ => True
  | closed => True
  | _ => False

/-- The operation that is completed in a step. -/
def Label.op : Label → Option Op
  | did op => some op
  | _ => none

/-- The operations that are completed in a history, in order. -/
def completed (hist : List (Label × Trace)) : List Op := hist.filterMap fun s ↦ s.1.op

/-- What recovery may show once a session has come to its end, in which `v` was seen: `v`, or what
the operation under way would have made of it. -/
def Label.Shows (l : Label) (v u : Bytes → Option Bytes) : Prop :=
  u = v ∨ ∃ op, l = .didCut op ∧ u = op.apply v

/-- What is assumed of a step: short strings, and the condition on the building of tables. -/
structure Regular (sz : Sizing) (P : Entries → DB → Disk → Prop) (s : Label × Trace) : Prop where
  /-- Strings are short. -/
  short : s.1.IsShort
  /-- Bloom filters do not get too large. -/
  bloom : ∀ ev ∈ s.2, OnBuild (fun entries _ _ ↦ BloomFits sz entries) ev
  /-- The condition. -/
  build : ∀ ev ∈ s.2, OnBuild P ev

theorem regular_of_meets {sz : Sizing} {P : Entries → DB → Disk → Prop}
    {hist : List (Label × Trace)} (h : ∀ s ∈ hist, Meets (fun l ↦ l.IsClean ∧ l.IsShort)
      (fun entries db d ↦ BloomFits sz entries ∧ P entries db d) s) :
    ∀ s ∈ hist, s.1.IsClean ∧ Regular sz P s := fun s hs ↦
  ⟨(h s hs).label.1, (h s hs).label.2, fun ev hev ↦
    ((h s hs).build ev hev).mono fun _ _ _ ↦ And.left,
    fun ev hev ↦ ((h s hs).build ev hev).mono fun _ _ _ ↦ And.right⟩

/-- **Sessions are crash-atomic**: after clean sessions and a last step that ends one, however it
ends, recovery returns, and the store shows what the completed operations have made of the empty
map, or that with the operation under way. -/
def CrashAtomic (sz : Sizing) (P : Entries → DB → Disk → Prop) : Prop :=
  ∀ (hist : List (Label × Trace)) (w : World) (l : Label) (tr : Trace) (d : Disk) (opts : Options),
    Run sz (.closed ∅) hist w → (∀ s ∈ hist, s.1.IsClean ∧ Regular sz P s) →
    Step sz w l tr (.closed d) → Regular sz P (l, tr) →
    DB.recover.Returns reliable { opts } d fun _ db d' ↦
      ∃ u, l.Shows (Op.applyAll (completed hist) fun _ ↦ none) u ∧ Answers db d' u

section Atomic

variable {sz : Sizing} {P : Entries → DB → Disk → Prop} {v : Bytes → Option Bytes}

/-- The watch of a step that may be cut: recovery would bring back one of the given maps. -/
def survivalWatch (sz : Sizing) (P : Entries → DB → Disk → Prop)
    (A : (Bytes → Option Bytes) → Prop) : Watch (Call Mark) DB Disk where
  assume ev := OnBuild (fun entries _ _ ↦ BloomFits sz entries) ev ∧ OnBuild P ev
  always ev := Survives sz A ev.disk

theorem assumes_survivalWatch {L : Prop} {A : (Bytes → Option Bytes) → Prop}
    (h : Assumes sz L (buildWatch sz P)) : Assumes sz L (survivalWatch sz P A) :=
  ⟨h.bloom, h.noWrap, h.noStale⟩

/-- **The last step.** -/
theorem World.Shows.recover (hA : Assumes sz True (buildWatch sz P)) {w : World} {l : Label}
    {tr : Trace} {d : Disk} (h : w.Shows sz True v) (hs : Step sz w l tr (.closed d))
    (hl : Regular sz P (l, tr)) (opts : Options) :
    DB.recover.Returns reliable { opts } d fun _ db d' ↦
      ∃ u, l.Shows v u ∧ Answers db d' u := by
  have hassume : ∀ (A : (Bytes → Option Bytes) → Prop), ∀ ev ∈ tr,
      (survivalWatch sz P A).assume ev :=
    fun _ ev hev ↦ ⟨hl.bloom ev hev, hl.build ev hev⟩
  have hsame : ∀ u, u = v → l.Shows v u := fun _ ↦ .inl
  have hA' := fun A ↦ assumes_survivalWatch (A := A) hA
  cases hs with
  | openCut hx hc =>
    obtain ⟨-, _, _, hcut⟩ := hx.of_wp (hassume _)
      (wp_recover (W := survivalWatch sz P (· = v)) (fun _ ↦ id) h)
    exact (hcut.mono hsame).recover hc opts
  | openThrew hx => exact (hx.of_wp (hassume (· = v)) (wp_recover (fun _ ↦ id) h)).2.elim
  | didCut hx hc =>
    obtain ⟨-, _, _, hcut⟩ := hx.of_wp (hassume _)
      (wp_run (W := survivalWatch sz P _) (hA' _) hl.short (fun _ ↦ id) h)
    exact (hcut.mono fun u hu ↦ hu.imp id fun hu ↦ ⟨_, rfl, hu⟩).recover hc opts
  | crashed hc => exact (h.survives.mono hsame).recover hc opts
  | closed hx =>
    have hrest := (hx.of_wp (hassume (· = v)) (wp_close (hA' _) (fun _ ↦ id) h)).2
    intro tr' o hx'
    refine (hrest.recover opts tr' o hx').imp_right ?_
    rintro ⟨a, db, d', rfl, hserves⟩
    exact ⟨a, db, d', rfl, v, .inl rfl, hserves.answers⟩
  | closeCut hx hc =>
    obtain ⟨-, _, _, hcut⟩ := hx.of_wp (hassume _)
      (wp_close (W := survivalWatch sz P (· = v)) (hA' _) (fun _ ↦ id) h)
    exact (hcut.mono hsame).recover hc opts
  | closeThrew hx _ => exact (hx.of_wp (hassume (· = v)) (wp_close (hA' _) (fun _ ↦ id) h)).2.elim

theorem completed_append (hist : List (Label × Trace)) (l : Label) (tr : Trace) :
    Op.applyAll (completed (hist ++ [(l, tr)])) v = l.apply (Op.applyAll (completed hist) v) ∨
      l.IsCut := by
  rw [completed, List.filterMap_append, ← completed, Op.applyAll_append]
  cases l with
  | didCut op => exact .inr trivial
  | _ => exact .inl rfl

/-- **After clean sessions** the world stands for the map that the completed operations have
made. -/
theorem shows_of_clean {hist : List (Label × Trace)} {w : World} (hrun : Run sz (.closed ∅) hist w)
    (hhist : ∀ s ∈ hist, s.1.IsClean ∧ Regular sz (fun _ db _ ↦ NoWrap db) s) :
    w.Shows sz True (Op.applyAll (completed hist) fun _ ↦ none) := by
  have hA : Assumes sz True (buildWatch sz fun _ db _ ↦ NoWrap db) :=
    assumes_buildWatch (fun _ _ _ ↦ id) fun h ↦ absurd trivial h
  refine hrun.keeps (I := fun hist w ↦ w.Shows sz True (Op.applyAll (completed hist) fun _ ↦ none))
    (G := fun s ↦ s.1.IsClean ∧ Regular sz (fun _ db _ ↦ NoWrap db) s)
    (rests_empty sz True) ?_ hhist
  rintro hist w l tr w' hw hs ⟨hclean, hreg⟩
  have huncut : ¬l.IsCut := by cases l <;> simp_all [Label.IsClean, Label.IsCut]
  rw [(completed_append hist l tr).resolve_right huncut]
  refine hw.step hA hs ⟨huncut, hreg.short, hreg.bloom, hreg.build⟩ fun _ db d ↦ .inr ?_
  rintro rfl
  exact hclean

/-- **Sessions are crash-atomic** as long as the numbers of tables do not wrap around. -/
theorem crashAtomic (sz : Sizing) : CrashAtomic sz fun _ db _ ↦ NoWrap db := by
  intro hist w l tr d opts hrun hhist hstep hl
  have hA : Assumes sz True (buildWatch sz fun _ db _ ↦ NoWrap db) :=
    assumes_buildWatch (fun _ _ _ ↦ id) fun h ↦ absurd trivial h
  exact (shows_of_clean hrun hhist).recover hA hstep hl opts

end Atomic

/-- A write after two flushes and a compaction, cut when only one byte of its record has been
written. -/
theorem crashAtomic_compacted : ∃ hist d tr d',
    Run .onePercent (.closed ∅) hist (.opened Snapshot.compacted.db d) ∧
    (∀ s ∈ hist, s.1.IsClean ∧ Regular .onePercent (fun _ db _ ↦ NoWrap db) s) ∧
    Step .onePercent (.opened Snapshot.compacted.db d) (.didCut (.put [107] [50])) tr (.closed d') ∧
    DB.recover.Returns reliable {} d' fun _ db' d'' ↦ ∃ u,
      Label.Shows (.didCut (.put [107] [50])) (Op.applyAll (completed hist) fun _ ↦ none) u ∧
        Answers db' d'' u := by
  obtain ⟨⟨hist, d, hrun, hmeets, -⟩, -⟩ := Snapshot.reaches_compacted
    (fun l ↦ l.IsClean ∧ l.IsShort) (P := fun entries db _ ↦ BloomFits .onePercent entries ∧
      NoWrap db) ⟨trivial, trivial⟩
    (fun _ hop ↦ ⟨trivial, hop⟩) fun s _ _ _ _ hopen hlt ↦ ⟨hopen.bloom, noWrap_taken (by omega)⟩
  have hhist := regular_of_meets hmeets
  have hx : Exec reliable ((Op.put [107] [50]).run .onePercent) Snapshot.compacted.db d _
      (.cut (d.modify (DB.walSegPath Snapshot.compacted.db.currentWalId) (·.append [WalOp.put]))) :=
    .get (.call (.inl ⟨rfl, rfl⟩) .cut)
  have hstep := Step.didCut hx (Disk.crashed_sync _)
  have hwrite : ∀ {P : Entries → DB → Disk → Prop}, ∀ ev ∈ ([⟨.write
      (DB.walSegPath Snapshot.compacted.db.currentWalId) [WalOp.put], Snapshot.compacted.db, d⟩] :
      Trace), OnBuild P ev := fun ev hev ↦ by
    obtain rfl := List.mem_singleton.1 hev
    exact onBuild_of_isPlain rfl
  have hshort : ∀ r ∈ (Op.put [107] [50]).record, r.IsShort := by decide
  exact ⟨hist, d, _, _, hrun, hhist, hstep, crashAtomic .onePercent hist _ _ _ _ {} hrun hhist hstep
    ⟨hshort, hwrite, hwrite⟩⟩

/-- A store that has been opened for the first time. -/
theorem exists_first_session : ∃ hist d,
    Run .onePercent (.closed ∅) hist (.opened (Snapshot.first .onePercent).db d) ∧
    (∀ s ∈ hist, s.1.IsClean ∧ Regular .onePercent (fun _ db _ ↦ NoWrap db) s) ∧
    Opened .onePercent (Snapshot.first .onePercent).db d (Snapshot.first .onePercent).contents := by
  have hreach : Reaches .onePercent (fun l ↦ l.IsClean ∧ l.IsShort)
      (fun entries db _ ↦ BloomFits .onePercent entries ∧ NoWrap db) (.first .onePercent) :=
    reaches_first ⟨trivial, trivial⟩
  obtain ⟨hist, d, hrun, hmeets, ho⟩ := hreach
  exact ⟨hist, d, hrun, regular_of_meets hmeets, ho⟩

/-! ## A table that is gone -/

/-- Recovery throws when a table that the MANIFEST lists first is gone. -/
theorem wp_recover_missing {d : Disk} {opts : Options} {bs : Bytes} {g n : ℕ} {names : List Name}
    (hdest : (d[Manifest.dest]?).map File.content = some bs)
    (hdata : Manifest.parse bs = .ok ⟨g, DB.sstPath n :: names⟩) (hn : n < 2 ^ 64)
    (hnone : d[DB.sstPath n]? = none) :
    DB.recover.wp reliable .blind (fun _ _ _ ↦ False) (fun _ _ _ ↦ True) { opts } d := by
  rw [DB.recover, wp_bind]
  refine DB.wp_removeLeftovers (J := fun n ↦ n = Manifest.tmp ∨ DB.isSealed n = true)
    (by simp) (.inl rfl) (fun _ _ _ ↦ .inr) (fun _ _ _ _ _ ↦ trivial) fun d' hd' ↦ ?_
  have hdest' : d'[Manifest.dest]? = d[Manifest.dest]? := hd' _ (by simp)
  have hnone' : d'[DB.sstPath n]? = none := (hd' _ (by simp)).trans hnone
  have hmem : d'.contains Manifest.dest = true := by
    rw [ExtTreeMap.contains_eq_isSome_getElem?, hdest']
    cases hf : d[Manifest.dest]? with
    | none => simp [hf] at hdest
    | some f => rfl
  rw [wp_bind, DB.loadTables, wp_bind, Manifest.exists]
  refine wp_fileExists.2 ⟨trivial, fun _ ↦ ?_⟩
  rw [hmem, if_pos rfl, DB.loadListed, wp_bind, Manifest.read, wp_bind]
  refine wp_readFile id trivial (fun _ hf ↦ hf.elim) fun _ ↦ ?_
  rw [hdest', hdest]
  simp only [hdata]
  rw [wp_ofExcept_ok, wp_bind, wp_modify, List.forM_cons, wp_bind, wp_bind, DB.listedId_sstPath hn,
    wp_ofExcept_ok, DB.loadTable, wp_bind, wp_modify, wp_bind, SSTable.open, wp_bind]
  refine wp_readFile id trivial (fun _ hf ↦ hf.elim) fun _ ↦ ?_
  rw [hnone', Option.map_none]
  exact trivial

/-- **A wrapped number destroys the store**: a compaction removes the table it has just built, and
the next recovery throws. -/
theorem not_crashAtomic : ¬CrashAtomic .onePercent fun _ _ _ ↦ True := by
  intro h
  obtain ⟨hist, db, d, ts, tr, db', d', clean, g, hrun, hmeets, -, -, -, hx, htr, -, hnone, hdest,
    hg⟩ := Snapshot.exists_wrapped (fun l ↦ l.IsClean ∧ l.IsShort) ⟨trivial, trivial⟩
      fun _ hop ↦ ⟨trivial, hop⟩
  have hx' : Exec reliable (Op.compact.run .onePercent) db d tr (.ok () db' d') := hx
  have hregular : ∀ {l : Label} {tr : Trace}, l.IsShort →
      (∀ ev ∈ tr, OnBuild (fun entries _ _ ↦ BloomFits .onePercent entries) ev) →
      Regular .onePercent (fun _ _ _ ↦ True) (l, tr) := fun hl htr ↦
    ⟨hl, htr, fun _ _ _ _ _ ↦ trivial⟩
  have hhist : ∀ s ∈ hist ++ [(.did .compact, tr)],
      s.1.IsClean ∧ Regular .onePercent (fun _ _ _ ↦ True) s := by
    rw [List.forall_mem_append]
    refine ⟨fun s hs ↦
        ⟨(hmeets s hs).label.1, hregular (hmeets s hs).label.2 (hmeets s hs).build⟩, ?_⟩
    exact List.forall_mem_singleton.2 ⟨trivial, hregular (fun _ h ↦ nomatch h) htr⟩
  have hreturns := h _ _ .crashed [] _ {} (.snoc hrun (.did hx')) hhist (.crashed d'.crashed_sync)
    (hregular trivial fun _ h ↦ absurd h List.not_mem_nil)
  have hcrash := d'.crashed_sync
  have hm : ((d'.map fun _ f ↦ f.sync)[Manifest.dest]?).map File.content =
      some (Manifest.text ⟨g, [DB.sstPath 0]⟩) := by
    rw [hcrash.get_saved hdest, Option.map_some, File.content_saved]
  obtain ⟨_, _, _, -, hfalse⟩ := hreturns.exists_ok (device_total .none)
    (wp_recover_missing (n := 0) hm (Manifest.parse_text (Manifest.writable_sstPaths hg [0]))
      (by decide) (hcrash.get_none hnone))
  exact hfalse

end KeyValStore
