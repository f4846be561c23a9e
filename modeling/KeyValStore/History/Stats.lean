import KeyValStore.History.Readable
import KeyValStore.Recovery.Leftovers

/-!
# What stats says

Between two operations the directory of an open store has the MANIFEST, the tables it lists and log
segments, and nothing else: whatever a crash has left behind is gone once recovery returns, and what
an operation needs for a while is gone when it returns (`Clear`).  `stats_match` says that `stats`
describes this directory, in every session of every history, and that it counts the MemTable and the
records that were replayed as they are.

`neverThrows` is about histories as such: no step of theirs throws, and at their end recovery
returns, or the open store answers.
-/

set_option autoImplicit false

namespace KeyValStore

open Crash Std
open DB (Keeps sstPath walSegPath donePath isLeftover isOrphan applied applyRecord loggedDisk)

/-- The directory has no files but those that belong to the contents. -/
structure Clear (d : Disk) (C : Contents) : Prop where
  /-- There is no temporary MANIFEST. -/
  tmp : d[Manifest.tmp]? = none
  /-- There are no sealed segments. -/
  done : ∀ id, d[donePath (walSegPath id)]? = none
  /-- There are no tables that are not listed. -/
  sst : ∀ id, d[sstPath id]? ≠ none → ∃ t ∈ C.tables, t.1 = id

namespace Clear

variable {sz : Sizing} {db : DB} {d d' : Disk} {C C' : Contents}

/-- Only segments change. -/
theorem logs (h : Clear d C) (hts : C'.tables = C.tables) {id : ℕ}
    (hd : Disk.AgreeOff (walSegPath id) d d') : Clear d' C' where
  tmp := (hd _ (DB.walSegPath_ne_tmp id).symm).trans h.tmp
  done id' := (hd _ (DB.walSegPath_ne_donePath id id').symm).trans (h.done id')
  sst id' hne := by
    rw [hts]
    rw [hd _ (DB.sstPath_ne_walSegPath id' id)] at hne
    exact h.sst id' hne

/-- A new table is built and listed. -/
theorem committed (h : Clear d C) (n : ℕ) (entries : Entries) (bs : Bytes) (gen : ℕ) :
    Clear (Manifest.commit bs (d.insert (sstPath n) (.saved (SSTable.image sz entries))))
      (C.list gen ((n, entries) :: C.tables)) where
  tmp := by
    rw [Manifest.commit, Disk.getElem?_insert_ne Manifest.dest_ne_tmp.symm,
      ExtTreeMap.getElem?_erase_self]
  done id := by
    rw [Manifest.commit, Disk.getElem?_insert_ne (DB.donePath_ne_dest id),
      Disk.getElem?_erase_ne (DB.donePath_ne_tmp id),
      Disk.getElem?_insert_ne (DB.sstPath_ne_donePath n id).symm]
    exact h.done id
  sst id hne := by
    rw [Manifest.commit, Disk.getElem?_insert_ne (DB.sstPath_ne_dest id),
      Disk.getElem?_erase_ne (DB.sstPath_ne_tmp id)] at hne
    by_cases hid : id = n
    · exact ⟨_, List.mem_cons_self, hid.symm⟩
    · rw [Disk.getElem?_insert_ne fun heq ↦ hid (DB.sstPath_inj.1 heq)] at hne
      obtain ⟨t, ht, rfl⟩ := h.sst id hne
      exact ⟨t, List.mem_cons_of_mem _ ht, rfl⟩

/-- **A flush.** -/
theorem flushed (h : Clear d C) : Clear (DB.flushedDisk sz db d) (DB.flushOpen db C) := by
  have hcommitted : Clear (DB.flushCommitted sz db d) (DB.flushList db C) := h.committed _ _ _ _
  -- sealing and opening are about segments and about the file that is removed in the end
  have hagree : ∀ n, (∀ id, n ≠ walSegPath id) → n ≠ donePath (walSegPath db.currentWalId) →
      (DB.flushedDisk sz db d)[n]? = (DB.flushCommitted sz db d)[n]? := by
    intro n hlog hdone
    rw [DB.flushedDisk, Disk.getElem?_erase_ne hdone, DB.flushOpened,
      Disk.getElem?_insertIfNew_ne (hlog _), DB.flushSealed, DB.sealDisk]
    split
    · rw [Disk.getElem?_insert_ne hdone, Disk.getElem?_erase_ne (hlog _)]
    · rfl
  refine ⟨?_, fun id ↦ ?_, fun id hne ↦ ?_⟩
  · rw [hagree _ (fun id ↦ (DB.walSegPath_ne_tmp id).symm) (DB.donePath_ne_tmp _).symm]
    exact hcommitted.tmp
  · by_cases hid : id = db.currentWalId
    · rw [hid, DB.flushedDisk, ExtTreeMap.getElem?_erase_self]
    · rw [hagree _ (fun _ ↦ (DB.walSegPath_ne_donePath _ id).symm) fun heq ↦
          hid (DB.donePath_inj.1 heq)]
      exact hcommitted.done id
  · rw [hagree _ (DB.sstPath_ne_walSegPath id) (DB.sstPath_ne_donePath id _)] at hne
    exact hcommitted.sst id hne

/-- **A merge.** -/
theorem merged (h : Clear d C) : Clear (DB.mergedDisk sz db C.tables d) (DB.mergeList sz db C) := by
  have hcommitted : Clear (DB.mergeCommitted sz db C.tables d)
      (C.list (u64 (db.manifestGen + 1)) ((db.nextSstId, DB.cleanOf sz C.tables) :: C.tables)) :=
    h.committed _ _ _ _
  have herased : ∀ n, (DB.mergedDisk sz db C.tables d)[n]? ≠ none →
      n ∉ C.tables.map (sstPath ·.1) ∧ (DB.mergeCommitted sz db C.tables d)[n]? ≠ none := by
    intro n hne
    rw [DB.mergedDisk, getElem?_eraseAll] at hne
    split at hne
    · exact absurd rfl hne
    · exact ⟨by assumption, hne⟩
  refine ⟨by_contra fun hne ↦ (herased _ hne).2 hcommitted.tmp,
    fun id ↦ by_contra fun hne ↦ (herased _ hne).2 (hcommitted.done id), fun id hne ↦ ?_⟩
  obtain ⟨hold, hne⟩ := herased _ hne
  obtain ⟨t, ht, rfl⟩ := hcommitted.sst id hne
  rcases List.mem_cons.1 ht with rfl | ht
  · exact ⟨_, List.mem_singleton_self _, rfl⟩
  · exact absurd (List.mem_map_of_mem ht) hold

/-- **Recovery** deletes what should not be there. -/
theorem recovered {opts : Options} {tr : Trace}
    (hx : Exec reliable DB.recover { opts } d tr (.ok () db d'))
    (hdb : db = DB.recovered sz opts C) : Clear d' C.reopened := by
  obtain ⟨gen, ts, segs, -, -, heq, rfl⟩ := DB.recoverOf_eq_some_iff.1 (DB.exec_recover hx)
  have hgone : ∀ n, (∀ id, n ≠ walSegPath id) → isLeftover n = true ∨ isOrphan ts n = true →
      ((DB.cleaned ts d).insertIfNew (walSegPath db.currentWalId) {})[n]? = none := by
    intro n hlog hn
    rw [Disk.getElem?_insertIfNew_ne (hlog _), DB.cleaned_eq_none hn]
  refine ⟨hgone _ (fun id ↦ (DB.walSegPath_ne_tmp id).symm) (.inl (by simp [isLeftover])),
    fun id ↦ hgone _ (fun _ ↦ (DB.walSegPath_ne_donePath _ id).symm) (.inl (by simp [isLeftover])),
    fun id hne ↦ ?_⟩
  have hsst : db.sstables.map (·.path) = ts.map (·.2.path) := by
    rw [heq]
    exact List.map_map
  have hpaths : ts.map (·.2.path) = C.tables.map (sstPath ·.1) := by
    rw [← hsst, hdb, ← DB.map_path_tables sz]
    rfl
  have hlisted : sstPath id ∈ ts.map (·.2.path) := by
    by_contra hnot
    exact hne
      (hgone _ (DB.sstPath_ne_walSegPath id)
        (.inr (DB.isOrphan_iff.2 ⟨DB.extension_sstPath id, hnot⟩)))
  rw [hpaths] at hlisted
  obtain ⟨t, ht, hid⟩ := List.mem_map.1 hlisted
  exact ⟨t, ht, DB.sstPath_inj.1 hid⟩

end Clear

/-! ## Sessions -/

/-- A store that has replayed `n` records, and counts what it has. -/
structure Tally (n : ℕ) (db : DB) (d : Disk) (C : Contents) : Prop where
  /-- The directory is clear. -/
  clear : Clear d C
  /-- The MemTable counts its bytes. -/
  counted : db.memtable.Counted
  /-- The records that were replayed. -/
  replayed : db.walReplayed = n

theorem counted_applyRecord {t : MemTable} (h : t.Counted) (r : WalRecord) :
    (applyRecord r t).Counted := by
  rw [applyRecord]
  split
  · exact h.run (.put r.key r.value)
  · exact h.run (.del r.key)

theorem counted_replayed (rs : List WalRecord) : (DB.replayed rs).Counted := by
  induction rs using List.reverseRecOn with
  | nil => rfl
  | append_singleton rs r ih =>
    rw [DB.replayed, List.foldl_append]
    exact counted_applyRecord ih r

section Tally

variable {sz : Sizing} {n : ℕ} {db db' : DB} {d d' : Disk} {C : Contents}

theorem upheld_tally (sz : Sizing) (n : ℕ) : Upheld sz (Tally n) where
  flush _ h := ⟨h.clear.flushed, rfl, h.replayed⟩
  merge _ h := ⟨h.clear.merged, h.counted, h.replayed⟩

/-- A write. -/
theorem Tally.written (h : Tally n db d C) (r : WalRecord) :
    Tally n (applied r db) (loggedDisk (walSegPath db.currentWalId) r d) (DB.logged db C r) where
  clear := h.clear.logs rfl (Disk.agreeOff_modify _ _ _)
  counted := counted_applyRecord h.counted r
  replayed := h.replayed

/-- Recovery. -/
theorem Tally.recovered (h : Holds sz d C) (hs : C.Sound) (hshort : C.IsShort)
    (hsettled : C.Settled) {opts : Options} {tr : Trace}
    (hx : Exec reliable DB.recover { opts } d tr (.ok () db d')) :
    Legible sz db d' C.reopened ∧ Tally C.records.length db d' C.reopened := by
  obtain ⟨hdb, hlegible⟩ := h.exec_recover hs hshort hsettled hx
  refine ⟨hlegible, .recovered hx hdb, ?_, ?_⟩
  · rw [hdb]
    exact counted_replayed _
  · rw [hdb]
    rfl

end Tally

/-- **A session under way**: after a history in which anything may have happened, the store has been
opened on the directory `d₀`, and operations have been carried out since. -/
inductive InSession (sz : Sizing) (d₀ : Disk) : DB → Disk → Prop
  | opened {hist : List (Label × Trace)} {opts : Options} {tr : Trace} {db : DB} {d : Disk}
      (hrun : Run sz (.closed ∅) hist (.closed d₀)) (hhist : ∀ s ∈ hist, Sane sz s)
      (hs : Step sz (.closed d₀) (.opened opts) tr (.opened db d)) : InSession sz d₀ db d
  | did {op : Op} {tr : Trace} {db db' : DB} {d d' : Disk} (h : InSession sz d₀ db d)
      (hs : Step sz (.opened db d) (.did op) tr (.opened db' d')) (hl : Sane sz (.did op, tr)) :
      InSession sz d₀ db' d'

/-- **What stats says is so**, in a session that has been opened on the directory `d₀`. -/
structure StatsMatch (d₀ : Disk) (db : DB) (d : Disk) : Prop where
  /-- The MANIFEST has the generation, and lists the tables. -/
  manifest : ∃ f, d[Manifest.dest]? = some f ∧
    Manifest.parse f.content = .ok ⟨db.stats.manifestGen, db.sstables.map (·.path)⟩
  /-- There are as many tables in the directory. -/
  tables : (d.keys.filter fun n ↦ extension n = ascii ".sst").length = db.stats.sstableCount
  /-- The active segment is there. -/
  active : walSegPath db.stats.activeWalId ∈ d
  /-- There is nothing else but older segments. -/
  only : ∀ n ∈ d, n = Manifest.dest ∨ n ∈ db.sstables.map (·.path) ∨ ∃ id ≤ db.stats.activeWalId,
    n = walSegPath id
  /-- The bytes of the MemTable. -/
  bytes : db.stats.memtableBytes = UInt64.ofNat db.memtable.data.byteCount
  /-- The complete records in the segments that recovery found. -/
  replayed : ∀ n, (∀ id, n ≤ id → d₀[walSegPath id]? = none) →
    db.stats.walReplayed = (recordsBelow (fun id ↦ d₀[walSegPath id]?) n).length

section InSession

variable {sz : Sizing} {d₀ : Disk} {db : DB} {d : Disk}

/-- **A session keeps its directory clear.** -/
theorem InSession.tally (h : InSession sz d₀ db d) :
    ∃ C₀ C : Contents, HoldsLogs d₀ C₀.logs ∧ (∀ id, C₀.logs id ≠ none → id ≤ nextOf C₀.tables) ∧
      Legible sz db d C ∧ Tally C₀.records.length db d C := by
  induction h with
  | opened hrun hhist hs =>
    obtain ⟨C₀, hd, hsound, hshort, hsettled⟩ := readable_of_run hrun hhist
    cases hs with
    | opened hx =>
        exact ⟨C₀, _, hd.toHoldsLogs, hsound.logs, Tally.recovered hd hsound hshort hsettled hx⟩
  | did _ hs hl ih =>
    obtain ⟨C₀, C, hd, hlogs, hlegible, htally⟩ := ih
    cases hs with
    | did hx =>
      obtain ⟨C', h⟩ :=
        (hx.of_wp hl.build ((upheld_tally sz _).wp_op hlegible hl.short (fun _ ↦ htally)
        fun r _ ↦ htally.written r)).2
      exact ⟨C₀, C', hd, hlogs, h⟩

/-- Any bound above all segments will do. -/
theorem recordsBelow_eq_of_bounds {logs : ℕ → Option File} {n m : ℕ}
    (hn : ∀ id, n ≤ id → logs id = none) (hm : ∀ id, m ≤ id → logs id = none) :
    recordsBelow logs n = recordsBelow logs m := by
  rcases le_total n m with h | h
  · exact (recordsBelow_of_le h fun id hid ↦ by rw [hn id hid, logRecords_none]).symm
  · exact recordsBelow_of_le h fun id hid ↦ by rw [hm id hid, logRecords_none]

/-- The records in the segments of a directory can be counted up to any bound. -/
theorem length_recordsBelow {C : Contents} (hd : HoldsLogs d C.logs)
    (hlogs : ∀ id, C.logs id ≠ none → id ≤ nextOf C.tables) {n : ℕ}
    (hn : ∀ id, n ≤ id → d[walSegPath id]? = none) :
    (recordsBelow (fun id ↦ d[walSegPath id]?) n).length = C.records.length := by
  have hlog : (fun id ↦ d[walSegPath id]?) = C.logs := funext hd.logs
  have hnone : ∀ id, n ≤ id → C.logs id = none := fun id hid ↦ (hd.logs id).symm.trans (hn id hid)
  rw [hlog, recordsBelow_eq_of_bounds hnone fun id hid ↦ not_not.1 fun hne ↦
    Nat.not_succ_le_self _ (hid.trans (hlogs id hne))]
  rfl

/-- **What stats says is so.** -/
theorem stats_match (h : InSession sz d₀ db d) : StatsMatch d₀ db d := by
  obtain ⟨C₀, C, hd₀, hlogs, hacc, htally⟩ := h.tally
  have hpaths : db.sstables.map (·.path) = C.tables.map (sstPath ·.1) := by
    rw [hacc.tables, DB.map_path_tables]
  have hmem : ∀ n : Name, n ∈ d ↔ ∃ f, d[n]? = some f := fun n ↦ by
    rw [ExtTreeMap.mem_iff_isSome_getElem?, Option.isSome_iff_exists]
  have hfile : ∀ n ∈ C.tables.map (sstPath ·.1), n ∈ d := by
    intro n hn
    obtain ⟨t, ht, rfl⟩ := List.mem_map.1 hn
    exact (hmem _).2 ⟨_, (hacc.holds.tables t ht).2.2⟩
  have honly : ∀ n ∈ d, n = Manifest.dest ∨ n ∈ C.tables.map (sstPath ·.1) ∨
      ∃ id ≤ db.currentWalId, n = walSegPath id := by
    intro n hn
    obtain ⟨f, hf⟩ := (hmem n).1 hn
    cases hacc.holds.names n f hf with
    | dest => exact .inl rfl
    | tmp =>
      rw [htally.clear.tmp] at hf
      cases hf
    | sst id =>
      obtain ⟨t, ht, rfl⟩ := htally.clear.sst id (by rw [hf]; exact Option.some_ne_none f)
      exact .inr (.inl (List.mem_map_of_mem (f := fun t : ℕ × Entries ↦ sstPath t.1) ht))
    | @log id hid =>
      refine .inr (.inr ⟨id, hacc.last id ?_, rfl⟩)
      rw [← hacc.holds.logs, hf]
      exact Option.some_ne_none f
    | done id =>
      rw [htally.clear.done] at hf
      cases hf
  refine ⟨?_, ?_, ?_, hpaths ▸ honly, htally.counted, fun n hn ↦ ?_⟩
  · have hm := hacc.holds.manifest
    rw [hacc.gen, Option.map_some] at hm
    refine ⟨_, hm, ?_⟩
    have hids := Manifest.writable_sstPaths (hacc.holds.gen _ hacc.gen) (C.tables.map Prod.fst)
    rw [List.map_map] at hids
    rw [File.content_saved, hpaths]
    exact Manifest.parse_text hids
  · have hnodup : (C.tables.map (sstPath ·.1)).Nodup :=
      List.pairwise_map.2 (hacc.sound.sorted.imp fun hlt heq ↦ hlt.ne' (DB.sstPath_inj.1 heq))
    have hperm : (d.keys.filter fun n ↦ extension n = ascii ".sst").Perm
        (C.tables.map (sstPath ·.1)) := by
      refine (List.perm_ext_iff_of_nodup (ExtTreeMap.nodup_keys.filter _) hnodup).2 fun n ↦ ?_
      rw [List.mem_filter, ExtTreeMap.mem_keys, decide_eq_true_eq]
      refine ⟨fun ⟨hn, hext⟩ ↦ ?_, fun hn ↦ ⟨hfile n hn, ?_⟩⟩
      · rcases honly n hn with rfl | hn | ⟨id, -, rfl⟩
        · exact absurd hext (by decide)
        · exact hn
        · exact absurd hext (by rw [DB.extension_walSegPath]; decide)
      · obtain ⟨t, -, rfl⟩ := List.mem_map.1 hn
        exact DB.extension_sstPath t.1
    rw [hperm.length_eq, ← hpaths, List.length_map]
    rfl
  · obtain ⟨f, hf⟩ := Option.ne_none_iff_exists'.1 hacc.active
    rw [← hacc.holds.logs] at hf
    exact (hmem _).2 ⟨f, hf⟩
  · rw [length_recordsBelow hd₀ hlogs hn]
    exact htally.replayed

end InSession

/-- A store that has been opened for the first time, and a write. -/
theorem exists_session : ∃ db d, InSession .onePercent ∅ db d ∧ db.stats.memtableEntries = 1 := by
  obtain ⟨tr, d, hx, -, ho⟩ :=
    exists_recover (P := fun _ _ _ ↦ True) (holds_empty .onePercent) sound_empty {}
  have hopened : InSession .onePercent ∅ (Snapshot.first .onePercent).db d :=
    .opened .nil (fun _ h ↦ absurd h List.not_mem_nil) (.opened hx)
  obtain ⟨tr', d', hx', hbuild, -⟩ := Snapshot.exists_exec_older
    (P := fun entries db _ ↦ BloomFits .onePercent entries ∧ NoWrap db) ho
  refine ⟨_, d', hopened.did (.did hx') ⟨?_, hbuild⟩, by decide⟩
  rintro r ⟨⟩
  decide

theorem stats_match_first : ∃ db d, db.stats.memtableEntries = 1 ∧ StatsMatch ∅ db d := by
  obtain ⟨db, d, h, hsize⟩ := exists_session
  exact ⟨db, d, hsize, stats_match h⟩

/-! ## Exceptions -/

/-- The step ends with an exception. -/
def Label.Throws : Label → Prop
  | openThrew _ => True
  | threw _ => True
  | closeThrew => True
  | _ => False

/-- Recovery returns; an open store answers. -/
def World.Works : World → Prop
  | closed d => ∀ opts : Options, DB.recover.Returns reliable { opts } d fun _ _ _ ↦ True
  | opened db d => ∃ v, Answers db d v

section Throws

variable {sz : Sizing} {w w' : World} {l : Label} {tr : Trace}

/-- **No step throws** in a world that can be read. -/
theorem World.Readable.not_throws (h : w.Readable sz) (hs : Step sz w l tr w')
    (hl : Sane sz (l, tr)) : ¬l.Throws := by
  intro ht
  cases hs with
  | openThrew hx =>
    obtain ⟨C, hd, hs, hshort, hsettled⟩ := h
    exact (hx.of_wp hl.build (wp_recover_legible hd hs hshort hsettled _)).2
  | threw hx =>
    obtain ⟨C, h⟩ := h
    exact (hx.of_wp hl.build (wp_run_legible h hl.short)).2
  | closeThrew hx hc => exact (hx.of_wp hl.build ((keeps_legible sz).wp_close h)).2
  | _ => exact ht

theorem World.Readable.works (h : w.Readable sz) : w.Works := by
  cases w with
  | closed d =>
    obtain ⟨C, hd, hs, -, -⟩ := h
    exact fun opts ↦
      Prog.returns_of_wp (DB.wp_recover hd hs.logs (fun _ _ ↦ trivial) fun _ _ ↦ trivial)
  | opened db d =>
    obtain ⟨C, h⟩ := h
    exact ⟨_, answers_shown h.tables h.holds.tables.stored h.short⟩

/-- **Nothing throws**: no step of any history does, whatever crashes there were before, and at the
end recovery returns, or the open store answers. -/
theorem neverThrows {hist : List (Label × Trace)} (hrun : Run sz (.closed ∅) hist w)
    (hhist : ∀ s ∈ hist, Sane sz s) : (∀ s ∈ hist, ¬s.1.Throws) ∧ w.Works := by
  refine ⟨?_, (readable_of_run hrun hhist).works⟩
  induction hrun with
  | nil => exact fun _ h ↦ absurd h List.not_mem_nil
  | snoc hrun hs ih =>
    rw [List.forall_mem_append] at hhist ⊢
    exact ⟨ih hhist.1, List.forall_mem_singleton.2 ((readable_of_run hrun hhist.1).not_throws hs
      (hhist.2 _ (List.mem_singleton_self _)))⟩

end Throws

/-- A store is opened for the first time, and the process dies. -/
theorem neverThrows_crashed : ∃ (hist : List (Label × Trace)) (d : Disk), hist.length = 2 ∧
    (∀ s ∈ hist, ¬s.1.Throws) ∧ (World.closed d).Works := by
  obtain ⟨tr, d, hx, hbuild, -⟩ := exists_recover
    (P := fun entries db _ ↦ BloomFits .onePercent entries ∧ NoWrap db)
    (holds_empty .onePercent) sound_empty {}
  have hrun : Run .onePercent (.closed ∅) [(.opened {}, tr), (.crashed, [])] (.closed _) :=
    .snoc (.snoc .nil (.opened hx)) (.crashed d.crashed_sync)
  have hsane : ∀ s ∈ [(Label.opened {}, tr), (.crashed, [])], Sane .onePercent s := by
    simp only [List.forall_mem_cons]
    exact ⟨⟨trivial, hbuild⟩, ⟨trivial, fun _ h ↦ absurd h List.not_mem_nil⟩, fun _ h ↦
        absurd h List.not_mem_nil⟩
  exact ⟨_, _, rfl, neverThrows hrun hsane⟩

end KeyValStore
