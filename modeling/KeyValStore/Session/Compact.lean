import KeyValStore.Session.Flush

/-!
# What a compaction does

After its flush, `compact_locked` builds the merged table, swaps the list, replaces the MANIFEST and
removes the old tables.  `wp_merge` follows these steps under faults that are answered by
exceptions, with the names of `Session.Flush` for what it goes through; `wp_compactLocked` puts the
flush before them.
-/

set_option autoImplicit false

namespace KeyValStore

open Crash Std

/-- The directory without the files of the given names. -/
def eraseAll (names : List Name) (d : Disk) : Disk := names.foldl ExtTreeMap.erase d

theorem getElem?_eraseAll (names : List Name) (d : Disk) (n : Name) :
    (eraseAll names d)[n]? = if n ∈ names then none else d[n]? := by
  induction names generalizing d with
  | nil => simp [eraseAll]
  | cons n' names ih =>
    rw [eraseAll, List.foldl_cons, ← eraseAll, ih]
    by_cases hn : n = n'
    · subst hn
      simp
    · rw [Disk.getElem?_erase_ne hn]
      simp [hn]

namespace DB

section Stages

variable (sz : Sizing) (db : DB) (ts : List (ℕ × Entries)) (d : Disk)

/-- The directory once the merged table has been built. -/
def mergeBuilt : Disk := d.insert (sstPath db.nextSstId) (.saved (SSTable.image sz (cleanOf sz ts)))

/-- The MANIFEST a compaction writes. -/
def mergeManifest : ManifestData := ⟨u64 (db.manifestGen + 1), [sstPath db.nextSstId]⟩

/-- The directory once the MANIFEST has been replaced. -/
def mergeCommitted : Disk :=
  Manifest.commit (Manifest.text (mergeManifest db)) (mergeBuilt sz db ts d)

/-- **The directory after a compaction.** -/
def mergedDisk : Disk := eraseAll (ts.map (sstPath ·.1)) (mergeCommitted sz db ts d)

/-- **The object after a compaction.** -/
def mergedDb : DB :=
  { taken db with
    sstables := [.loaded sz (sstPath db.nextSstId) (cleanOf sz ts)]
    manifestGen := u64 (db.manifestGen + 1) }

end Stages

/-- **The directories a merge goes through.** -/
inductive MergeStage (F : Faults Mark) (sz : Sizing) (db : DB)
    (ts : List (ℕ × Entries)) (d : Disk) : Disk → Prop
  | building {d' : Disk} (h : Disk.AgreeOff (sstPath db.nextSstId) d d') :
      MergeStage F sz db ts d d'
  | replacing {d' : Disk} (h : Manifest.Replacing F (mergeBuilt sz db ts d) d') :
      MergeStage F sz db ts d d'
  | removing {names : List Name} (h : names <+: ts.map (sstPath ·.1)) :
      MergeStage F sz db ts d (eraseAll names (mergeCommitted sz db ts d))

/-- **The calls a merge makes** once it has announced the building of its table. -/
inductive MergeEvent (F : Faults Mark) (sz : Sizing) (db : DB)
    (ts : List (ℕ × Entries)) (d : Disk) : Event (Call Mark) DB Disk → Prop
  | plain {c : Call Mark} {m : DB} {d' : Disk} (hc : c.isPlain = true)
      (h : MergeStage F sz db ts d d') : MergeEvent F sz db ts d ⟨c, m, d'⟩
  | commit {d' : Disk} (h : Manifest.Replacing F (mergeBuilt sz db ts d) d')
      (htmp : d'[Manifest.tmp]? = some (.saved (Manifest.text (mergeManifest db)))) :
      MergeEvent F sz db ts d ⟨.rename Manifest.tmp Manifest.dest, mergedDb sz db ts, d'⟩
  | discard {d' : Disk} (hf : F.refuse (.rename Manifest.tmp Manifest.dest))
      (h : Manifest.Replacing F (mergeBuilt sz db ts d) d') :
      MergeEvent F sz db ts d ⟨.remove Manifest.dest, mergedDb sz db ts, d'⟩

theorem MergeEvent.stage {F : Faults Mark} {sz : Sizing} {db : DB} {ts : List (ℕ × Entries)}
    {d : Disk} {ev : Event (Call Mark) DB Disk} (h : MergeEvent F sz db ts d ev) :
    MergeStage F sz db ts d ev.disk := by
  cases h with
  | plain hc h => exact h
  | commit h => exact .replacing h
  | discard _ h => exact .replacing h

/-- **The states an exception in a merge can leave.** -/
inductive MergeThrew (F : Faults Mark) (sz : Sizing) (db : DB)
    (ts : List (ℕ × Entries)) (d : Disk) : Error → DB → Disk → Prop
  | build (h : F.refuse (.openTrunc (sstPath db.nextSstId))) :
      MergeThrew F sz db ts d (.sstBuild (sstPath db.nextSstId)) (taken db) d
  | «open» (h : F.refuse (.readFile (sstPath db.nextSstId))) :
      MergeThrew F sz db ts d (.sstOpen (sstPath db.nextSstId)) { taken db with sstables := [] }
        (mergeBuilt sz db ts d)
  | manifest {e : Error} {d' : Disk} (he : Manifest.Throws e)
      (h : Manifest.Refuses F) (hd : Manifest.Replacing F (mergeBuilt sz db ts d) d') :
      MergeThrew F sz db ts d e (mergedDb sz db ts) d'

section Rules

variable {F : Faults Mark} {W : Watch (Call Mark) DB Disk} {E : Error → DB → Disk → Prop}
  {db : DB} {d : Disk} {sz : Sizing} {ts : List (ℕ × Entries)}

theorem wp_removeTables {Q : PUnit → DB → Disk → Prop} (hF : Throwing F)
    (hw : ∀ names, names <+: ts.map (sstPath ·.1) → Allows W (· = eraseAll names d))
    (h : Q () db (eraseAll (ts.map (sstPath ·.1)) d)) :
    (forM (tables sz ts) fun sst ↦ call (.remove sst.path) : Io DB PUnit).wp (device F) W Q E db
      d := by
  refine wp_forM (fun left m d' ↦ m = db ∧ ∃ done, tables sz ts = done ++ left ∧
    d' = eraseAll (done.map (·.path)) d) _ ⟨rfl, [], rfl, rfl⟩ ?_ ?_
  · rintro sst left m d' - ⟨rfl, done, hdone, rfl⟩
    have hpre : done.map (·.path) <+: ts.map (sstPath ·.1) := by
      rw [← map_path_tables sz, hdone, List.map_append]
      exact List.prefix_append _ _
    have hpath : sst.path ≠ Manifest.dest := by
      have hmem : sst ∈ tables sz ts := by simp [hdone]
      obtain ⟨t, -, rfl⟩ := List.mem_map.1 hmem
      exact sstPath_ne_dest _
    refine wp_call_remove (fun hf ↦ hpath (hF.remove _ hf))
      (hw _ hpre _ _ _ (isPlain_remove hpath) rfl) ⟨rfl, done ++ [sst], by simp [hdone], ?_⟩
    rw [List.map_append, eraseAll, eraseAll, List.foldl_append]
    rfl
  · rintro m d' ⟨rfl, done, hdone, rfl⟩
    rw [List.append_nil] at hdone
    rw [← map_path_tables sz, hdone] at h
    exact h

/-- **What a compaction does with the merged entries**, when the table of those without a tombstone
can be read back. -/
theorem wp_mergeRest {Q : Unit → DB → Disk → Prop} {merged clean : Entries} {built committed : Disk}
    {done : DB} (hF : Throwing F) (hdb : db.sstables = tables sz ts)
    (hclean : (merged.filter fun _ e ↦ !e.tombstone) = clean)
    (hbuilt : d.insert (sstPath db.nextSstId) (.saved (SSTable.image sz clean)) = built)
    (hcommitted : Manifest.commit (Manifest.text (mergeManifest db)) built = committed)
    (hdone : { taken db with
      sstables := [.loaded sz (sstPath db.nextSstId) clean]
      manifestGen := u64 (db.manifestGen + 1) } = done)
    (hbuild : W.always (buildEvent db clean d))
    (h : W.assume (buildEvent db clean d) → SSTable.Openable sz clean ∧
      Allows W (Disk.AgreeOff (sstPath db.nextSstId) d) ∧ Allows W (Manifest.Replacing F built) ∧
      (∀ d', Manifest.Replacing F built d' →
        d'[Manifest.tmp]? = some (.saved (Manifest.text (mergeManifest db))) →
        W.always ⟨.rename Manifest.tmp Manifest.dest, done, d'⟩) ∧
      (∀ d', F.refuse (.rename Manifest.tmp Manifest.dest) → Manifest.Replacing F built d' →
        W.always ⟨.remove Manifest.dest, done, d'⟩) ∧
      (∀ names, names <+: ts.map (sstPath ·.1) → Allows W (· = eraseAll names committed)) ∧
      (F.refuse (.openTrunc (sstPath db.nextSstId)) →
        E (.sstBuild (sstPath db.nextSstId)) (taken db) d) ∧
      (W.assume ⟨.readFile (sstPath db.nextSstId), { taken db with sstables := [] }, built⟩ →
        F.refuse (.readFile (sstPath db.nextSstId)) →
        E (.sstOpen (sstPath db.nextSstId)) { taken db with sstables := [] } built) ∧
      (∀ e d', Manifest.Throws e → Manifest.Refuses F →
        Manifest.Replacing F built d' → E e done d') ∧
      Q () done (eraseAll (ts.map (sstPath ·.1)) committed)) :
    (mergeRest sz merged).wp (device F) W Q E db d := by
  subst hclean hbuilt hcommitted hdone
  rw [mergeRest, wp_bind, Crash.wp_get, wp_bind, wp_modify, wp_bind]
  refine SSTable.wp_build hF (hF.short_write (sstPath_ne_tmp _)) hbuild fun hA ↦ ?_
  obtain ⟨hopen, hbuilding, hreplacing, hcommit, hdiscard, hremoving, hthrew₁, hthrew₂,
    hthrew₃, hok⟩ := h hA
  refine ⟨hbuilding, hthrew₁, ?_⟩
  rw [wp_bind, wp_modify, wp_bind]
  refine SSTable.wp_open hopen (SSTable.content_insert_image _ _ _ _) hF.short_readFile
    (hreplacing _ _ _ rfl (.inl (.refl _ _))) hthrew₂ fun _ ↦ ?_
  rw [wp_bind, wp_modify, wp_bind]
  refine wp_updateManifestLocked hF hreplacing hcommit hdiscard hthrew₃ ?_
  rw [hdb]
  exact wp_removeTables hF hremoving hok

/-- **What the merge of a compaction does**, when the merged table can be read back. -/
theorem wp_merge {Q : Unit → DB → Disk → Prop} (hF : Throwing F)
    (hread : ∀ t ∈ ts, W.assume ⟨.readFile (sstPath t.1), db, d⟩ →
      ¬F.refuse (.readFile (sstPath t.1)))
    (hdb : db.sstables = tables sz ts) (hts : Stored sz d ts) (hidle : Allows W (· = d))
    (hbuild : W.always (buildEvent db (cleanOf sz ts) d))
    (h : W.assume (buildEvent db (cleanOf sz ts) d) →
      SSTable.Openable sz (cleanOf sz ts) ∧ (∀ ev, MergeEvent F sz db ts d ev → W.always ev) ∧
      (∀ e db' d', MergeThrew F sz db ts d e db' d' →
        (e = .sstOpen (sstPath db.nextSstId) → W.assume
          ⟨.readFile (sstPath db.nextSstId), { taken db with sstables := [] },
          mergeBuilt sz db ts d⟩) →
        E e db' d') ∧
      Q () (mergedDb sz db ts) (mergedDisk sz db ts d)) :
    (merge sz).wp (device F) W Q E db d := by
  have hrev : db.sstables.reverse = tables sz ts.reverse := by
    rw [hdb, tables, tables, List.map_reverse]
  rw [merge, wp_bind, Crash.wp_get, wp_bind, hrev]
  refine wp_mergeTables hF (fun t ht ↦ hread t (List.mem_reverse.1 ht))
    (fun t ht ↦ hts t (List.mem_reverse.1 ht)) hidle ?_
  refine wp_mergeRest hF hdb (show _ = cleanOf sz ts from rfl) rfl rfl rfl hbuild fun hA ↦ ?_
  obtain ⟨hopen, hw, hthrew, hok⟩ := h hA
  have hallow : Allows W (MergeStage F sz db ts d) := fun _ _ _ hc hd' ↦ hw _ (.plain hc hd')
  refine ⟨hopen, hallow.mono fun _ ↦ .building, hallow.mono fun _ ↦ .replacing,
    fun d' hd' htmp ↦ hw _ (.commit hd' htmp), fun d' hf hd' ↦ hw _ (.discard hf hd'),
    fun names hn ↦ hallow.mono ?_, fun hf ↦ hthrew _ _ _ (.build hf) (by rintro ⟨⟩), fun hA hf ↦
    hthrew _ _ _ (.open hf) fun _ ↦ hA, fun _ _ he hf hd' ↦
      hthrew _ _ _ (.manifest he hf hd') fun heq ↦ ?_, hok⟩
  · rintro _ rfl
    exact .removing hn
  · subst heq
    rcases he with he | he | he <;> cases he

/-- A compaction of fewer than two tables does nothing. -/
theorem wp_compactLocked_few {Q : Unit → DB → Disk → Prop} (hlen : db.sstables.length < 2)
    (h : Q () db d) : (compactLocked sz).wp (device F) W Q E db d := by
  rw [compactLocked, wp_bind, Crash.wp_get, if_pos hlen]
  exact h

/-- **A compaction is a flush and a merge.** -/
theorem wp_compactLocked {Q : Unit → DB → Disk → Prop} (hlen : ¬db.sstables.length < 2)
    (h : (flushMemtableLocked sz).wp (device F) W
      (fun _ db d ↦ (merge sz).wp (device F) W Q E db d) E db d) :
    (compactLocked sz).wp (device F) W Q E db d := by
  rw [compactLocked, wp_bind, Crash.wp_get, if_neg hlen, wp_bind]
  exact h

end Rules

end DB

end KeyValStore
