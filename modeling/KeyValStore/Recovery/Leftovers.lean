import KeyValStore.Recovery.Depends
import KeyValStore.Manifest.Text

/-!
# Leftovers of interrupted work

Recovery deletes the temporary MANIFEST, the sealed segments and the tables that are not listed, and
reads none of them.  Two directories that agree on all other files, one of them perhaps without the
MANIFEST that recovery writes into it, are the same to it (`recoverOf_congr`), so leftovers never
show (`sameRecovery_of_planted`).
-/

set_option autoImplicit false

namespace KeyValStore

open Crash Std

namespace DB

section Found

variable {d d' : Disk} {gen : ℕ} {ts : List (ℕ × SSTable)} {opts : Options}

theorem isLeftover_dest : isLeftover Manifest.dest = false := by
  decide

theorem isOrphan_dest (ts : List (ℕ × SSTable)) : isOrphan ts Manifest.dest = false :=
  isOrphan_of_extension (by decide)

theorem isLeftover_of_sst {n : Name} (h : extension n = ascii ".sst") : isLeftover n = false :=
  isLeftover_of_extension (by rw [h]; decide) (by rw [h]; decide)

theorem getElem?_swept_eq_none {n : Name} (h : isLeftover n = true) : (swept d)[n]? = none := by
  rw [swept, getElem?_without, if_pos h]

theorem getElem?_listedDisk_eq_none {n : Name} (h : isLeftover n = true) :
    (listedDisk ts (swept d))[n]? = none := by
  rw [listedDisk]
  split
  · exact getElem?_swept_eq_none h
  · have hdest : n ≠ Manifest.dest := by
      rintro rfl
      simp [isLeftover_dest] at h
    rw [Manifest.commit, Disk.getElem?_insert_ne hdest]
    by_cases htmp : n = Manifest.tmp
    · rw [htmp, ExtTreeMap.getElem?_erase_self]
    · rw [Disk.getElem?_erase_ne htmp, getElem?_swept_eq_none h]

theorem listedId_of_scannedId {ext pre : Bytes} {p : Name} {id : ℕ}
    (h : scannedId ext pre p = .ok (some id)) : listedId p = .ok id := by
  rw [scannedId] at h
  split at h
  · cases h
  · split at h
    · cases h
    · rename_i hpre
      rw [not_or, Nat.not_lt] at hpre
      cases hn : stoull ((stem p).drop 4) with
      | error e =>
        rw [hn] at h
        cases h
      | ok n =>
        rw [hn] at h
        obtain rfl := Option.some.inj (Except.ok.inj h)
        rw [listedId, substr, if_neg hpre.1.not_gt, ← hn]
        rfl

theorem listedTable_eq_some {p : Name} {o : Option (ℕ × SSTable)} (h : listedTable d p = some o) :
    ∃ id t, o = some (id, t) ∧ listedId p = .ok id ∧ openOf d p = some t := by
  cases hid : listedId p with
  | error e =>
    rw [listedTable, hid] at h
    cases h
  | ok id =>
    cases ht : openOf d p with
    | none =>
      rw [listedTable, hid, ht] at h
      cases h
    | some t =>
      rw [listedTable, hid, ht] at h
      exact ⟨id, t, (Option.some.inj h).symm, rfl, rfl⟩

/-- The tables of a MANIFEST have the names it lists. -/
theorem map_path_of_collect {names : List Name} (h : collect (listedTable d) names = some ts) :
    ts.map (·.2.path) = names := by
  induction names generalizing ts with
  | nil =>
    obtain rfl := Option.some.inj h
    rfl
  | cons p names ih =>
    rw [collect_cons, Option.bind_eq_some_iff] at h
    obtain ⟨o, ho, h⟩ := h
    obtain ⟨ts', hts', rfl⟩ := Option.map_eq_some_iff.1 h
    obtain ⟨id, t, rfl, -, ht⟩ := listedTable_eq_some ho
    rw [Option.toList_some, List.singleton_append, List.map_cons, openOf_path ht, ih hts']

/-- The directory after step 3 holds a MANIFEST from which the same tables are read. -/
theorem foundTables_listedDisk (hfound : foundTables (swept d) = some (gen, ts))
    (hnames : d[Manifest.dest]? = none → ∀ t ∈ ts, 10 ∉ t.2.path) :
    ∃ f, (listedDisk ts (swept d))[Manifest.dest]? = some f ∧
      Manifest.parse f.content = .ok ⟨gen, ts.map (·.2.path)⟩ ∧
      collect (listedTable (swept d)) (ts.map (·.2.path)) = some ts ∧
      ∀ t ∈ ts, (listedDisk ts (swept d))[t.2.path]? = (swept d)[t.2.path]? := by
  have hdest : (swept d)[Manifest.dest]? = d[Manifest.dest]? := by
    rw [swept, getElem?_without, isLeftover_dest]
    rfl
  cases hd : d[Manifest.dest]? with
  | some f =>
    rw [foundTables, hdest, hd] at hfound
    have hcontains : (swept d).contains Manifest.dest = true := by
      rw [ExtTreeMap.contains_eq_isSome_getElem?, hdest, hd]
      rfl
    refine ⟨f, by rw [listedDisk, if_pos hcontains, hdest, hd], ?_⟩
    cases hdata : Manifest.parse f.content with
    | error e =>
      simp only [hdata, Except.toOption] at hfound
      cases hfound
    | ok data =>
      simp only [hdata, Except.toOption, Option.bind_eq_bind, Option.bind_some] at hfound
      obtain ⟨ts', hts', heq⟩ := Option.bind_eq_some_iff.1 hfound
      obtain ⟨rfl, rfl⟩ := Prod.mk.inj (Option.some.inj heq)
      rw [map_path_of_collect hts']
      exact ⟨rfl, hts', fun t _ ↦ by rw [listedDisk, if_pos hcontains]⟩
  | none =>
    rw [foundTables, hdest, hd] at hfound
    have hcontains : ¬(swept d).contains Manifest.dest = true := by
      rw [ExtTreeMap.contains_eq_isSome_getElem?, hdest, hd]
      exact Bool.false_ne_true
    obtain ⟨ts', hts', heq⟩ := Option.bind_eq_some_iff.1 hfound
    obtain ⟨rfl, rfl⟩ := Prod.mk.inj (Option.some.inj heq)
    have hscanned : ∀ t ∈ newestFirst ts', extension t.2.path = ascii ".sst" ∧
        scannedTable (swept d) t.2.path = some (some t) := fun t ht ↦
      (mem_of_collect_scanned hts' ((newestFirst_perm ts').mem_iff.1 ht)).2
    refine ⟨_, by rw [listedDisk, if_neg hcontains, Manifest.commit_dest], ?_, ?_, fun t ht ↦ ?_⟩
    · rw [File.content_saved]
      refine Manifest.parse_text ⟨by norm_num, fun n hn ↦ ?_⟩
      obtain ⟨t, ht, rfl⟩ := List.mem_map.1 hn
      exact hnames hd t ht
    · refine (collect_map (b := id) fun t ht ↦ ?_).trans (by rw [List.map_id])
      obtain ⟨hid, hopen⟩ := scannedTable_eq_some (hscanned t ht).2
      rw [listedTable, listedId_of_scannedId hid, id, hopen]
      rfl
    · have hext := (hscanned t ht).1
      rw [listedDisk, if_neg hcontains, Manifest.commit,
        Disk.getElem?_insert_ne (ne_of_extension (by rw [hext]; decide)),
        Disk.getElem?_erase_ne (ne_of_extension (by rw [hext]; decide))]

theorem exists_file_of_foundTables (hfound : foundTables (swept d) = some (gen, ts))
    (hd : d[Manifest.dest]? = none) {t : ℕ × SSTable} (ht : t ∈ ts) : ∃ f, d[t.2.path]? = some f ∧
      scannedId (ascii ".sst") (ascii "sst_") t.2.path = .ok (some t.1) := by
  rw [foundTables, getElem?_swept isLeftover_dest, hd] at hfound
  obtain ⟨ts', hts', heq⟩ := Option.bind_eq_some_iff.1 hfound
  obtain ⟨-, rfl⟩ := Prod.mk.inj (Option.some.inj heq)
  obtain ⟨hmem, hext, hscanned⟩ := mem_of_collect_scanned hts' ((newestFirst_perm ts').mem_iff.1 ht)
  obtain ⟨f, hf⟩ := (mem_of_perm_keys (.refl _) _).1 hmem
  exact ⟨f, by rw [← hf, getElem?_swept (isLeftover_of_sst hext)],
    (scannedTable_eq_some hscanned).1⟩

/-- Step 3 finds the same tables in any directory that has the files the first one has after step 3,
leftovers and orphans aside. -/
theorem foundTables_congr (hfound : foundTables (swept d) = some (gen, ts))
    (hnames : d[Manifest.dest]? = none → ∀ t ∈ ts, 10 ∉ t.2.path)
    (h : ∀ n f, isLeftover n = false → isOrphan ts n = false →
      (listedDisk ts (swept d))[n]? = some f → d'[n]? = some f) :
    foundTables (swept d') = some (gen, ts) := by
  obtain ⟨f, hf, hparse, hcollect, hkept⟩ := foundTables_listedDisk hfound hnames
  have hdest : (swept d')[Manifest.dest]? = some f := by
    rw [getElem?_swept isLeftover_dest, h _ f isLeftover_dest (isOrphan_dest ts) hf]
  have hlisted : ∀ p ∈ ts.map (·.2.path), listedTable (swept d') p = listedTable (swept d) p := by
    intro p hp
    have horphan : isOrphan ts p = false := Bool.eq_false_iff.2 fun ho ↦ (isOrphan_iff.1 ho).2 hp
    have hsome : (listedTable (swept d) p).isSome = true := (collect_eq_some.1 hcollect).1 p hp
    obtain ⟨o, ho⟩ := Option.isSome_iff_exists.1 hsome
    obtain ⟨id, t, -, -, hopen⟩ := listedTable_eq_some ho
    obtain ⟨g, hg, -⟩ := Option.bind_eq_some_iff.1 hopen
    have hl : isLeftover p = false := by
      cases hl : isLeftover p with
      | false => rfl
      | true =>
        rw [getElem?_swept_eq_none hl] at hg
        cases hg
    obtain ⟨t', ht', rfl⟩ := List.mem_map.1 hp
    have hg' := h _ g hl horphan ((hkept t' ht').trans hg)
    rw [listedTable, listedTable, openOf, openOf, getElem?_swept (d := d') hl, hg', hg]
  rw [foundTables, hdest]
  simp only [hparse, Except.toOption, Option.bind_eq_bind, Option.bind_some, collect_congr hlisted,
    hcollect]
  rfl

/-- After step 4 such a directory has neither leftovers nor orphans. -/
theorem without_listedDisk {f : File} (hdest : d'[Manifest.dest]? = some f) {e : Disk}
    (he : ∀ n, (isLeftover n = true ∨ isOrphan ts n = true) → e[n]? = none)
    (h : ∀ n, isLeftover n = false → isOrphan ts n = false → d'[n]? = e[n]?) :
    without (isOrphan ts) (listedDisk ts (swept d')) = e := by
  have hcontains : (swept d').contains Manifest.dest = true := by
    rw [ExtTreeMap.contains_eq_isSome_getElem?, getElem?_swept isLeftover_dest, hdest]
    rfl
  refine ExtTreeMap.ext_getElem? fun n ↦ ?_
  rw [listedDisk, if_pos hcontains, getElem?_without]
  cases ho : isOrphan ts n with
  | true => rw [if_pos rfl, he n (.inr ho)]
  | false =>
    rw [if_neg Bool.false_ne_true]
    cases hl : isLeftover n with
    | true => rw [getElem?_swept_eq_none hl, he n (.inl hl)]
    | false => rw [getElem?_swept hl, h n hl ho]

/-- The directory after step 4. -/
def cleaned (ts : List (ℕ × SSTable)) (d : Disk) : Disk :=
  without (isOrphan ts) (listedDisk ts (swept d))

theorem cleaned_eq_none {n : Name} (h : isLeftover n = true ∨ isOrphan ts n = true) :
    (cleaned ts d)[n]? = none := by
  rw [cleaned, getElem?_without]
  rcases h with h | h
  · rw [getElem?_listedDisk_eq_none h, ite_self]
  · rw [if_pos h]

theorem getElem?_cleaned {n : Name} (h : isOrphan ts n = false) :
    (cleaned ts d)[n]? = (listedDisk ts (swept d))[n]? := by
  rw [cleaned, getElem?_without, h]
  rfl

theorem recoverOf_eq_some_iff {db : DB} : recoverOf opts d = some (db, d') ↔ ∃ gen ts segs,
    foundTables (swept d) = some (gen, ts) ∧ segmentsOf (cleaned ts d) = some segs ∧
      db = openedDb (scannedSegmentsDb (cleaned ts d) segs (foundDb opts gen ts)) ∧
      d' = (cleaned ts d).insertIfNew (walSegPath db.currentWalId) {} := by
  constructor
  · intro h
    rw [recoverOf] at h
    obtain ⟨⟨gen, ts⟩, hfound, h⟩ := Option.bind_eq_some_iff.1 h
    obtain ⟨segs, hsegs, h⟩ := Option.bind_eq_some_iff.1 h
    obtain ⟨rfl, rfl⟩ := Prod.mk.inj (Option.some.inj h)
    exact ⟨gen, ts, segs, hfound, hsegs, rfl, rfl⟩
  · rintro ⟨gen, ts, segs, hfound, hsegs, rfl, rfl⟩
    rw [recoverOf, hfound, Option.bind_eq_bind, Option.bind_some]
    change (segmentsOf (cleaned ts d)).bind _ = _
    rw [hsegs]
    rfl

/-- **What recovery deletes does not matter to it.**  A directory is recovered like another one if
it agrees with that one, as it is after step 3, on the files that recovery keeps. -/
theorem recoverOf_congr (hfound : foundTables (swept d) = some (gen, ts))
    (hnames : d[Manifest.dest]? = none → ∀ t ∈ ts, 10 ∉ t.2.path)
    (h : ∀ n, isLeftover n = false → isOrphan ts n = false →
      d'[n]? = (listedDisk ts (swept d))[n]?) :
    recoverOf opts d' = recoverOf opts d := by
  have hfound' : foundTables (swept d') = some (gen, ts) :=
    foundTables_congr hfound hnames fun n f hl ho hf ↦ (h n hl ho).trans hf
  obtain ⟨f, hf, -⟩ := foundTables_listedDisk hfound hnames
  have hdisk : without (isOrphan ts) (listedDisk ts (swept d')) = cleaned ts d :=
    without_listedDisk ((h _ isLeftover_dest (isOrphan_dest ts)).trans hf) (fun _ ↦ cleaned_eq_none)
      fun n hl ho ↦ (h n hl ho).trans (getElem?_cleaned ho).symm
  rw [recoverOf, recoverOf, hfound', hfound, Option.bind_eq_bind, Option.bind_some,
    Option.bind_eq_bind, Option.bind_some]
  simp only [hdisk, cleaned]

end Found

/-! ## Planted files -/

/-- A file that interrupted work may leave beside a MANIFEST: the temporary MANIFEST, a sealed
segment, or a table that is not listed. -/
def IsSpare (data : ManifestData) (n : Name) : Prop :=
  n = Manifest.tmp ∨ isSealed n = true ∨ extension n = ascii ".sst" ∧ n ∉ data.liveSstables

/-- The first directory has a MANIFEST, and the second one differs from it in leftovers only. -/
def Planted (d dl : Disk) : Prop :=
  ∃ f data, d[Manifest.dest]? = some f ∧ Manifest.parse f.content = .ok data ∧
    ∀ n, ¬IsSpare data n → dl[n]? = d[n]?

/-- If recovery of the first directory returns, then recovery of the second one returns the same
object and leaves the same files. -/
def SameRecovery (opts : Options) (d dl : Disk) : Prop :=
  ∀ tr db d', Exec reliable recover { opts } d tr (.ok () db d') →
    recover.Returns reliable { opts } dl fun _ db₁ d₁ ↦ db₁ = db ∧ d₁ = d'

/-- **Leftovers never influence the store.** -/
theorem sameRecovery_of_planted {d dl : Disk} (h : Planted d dl) (opts : Options) :
    SameRecovery opts d dl := by
  intro tr db d' hx
  obtain ⟨f, data, hf, hdata, hdl⟩ := h
  have hdb := exec_recover hx
  obtain ⟨gen, ts, -, hfound, -⟩ := recoverOf_eq_some_iff.1 hdb
  have hlisted : listedDisk ts (swept d) = swept d := by
    rw [listedDisk, if_pos]
    rw [ExtTreeMap.contains_eq_isSome_getElem?, getElem?_swept isLeftover_dest, hf]
    rfl
  have hnames : d[Manifest.dest]? = none → ∀ t ∈ ts, 10 ∉ t.2.path := fun hnone ↦ by
    rw [hf] at hnone
    cases hnone
  obtain ⟨f', hf', hparse, -⟩ := foundTables_listedDisk hfound hnames
  rw [hlisted, getElem?_swept isLeftover_dest, hf] at hf'
  obtain rfl := Option.some.inj hf'
  obtain rfl := Except.ok.inj (hdata.symm.trans hparse)
  refine returns_recover ((recoverOf_congr hfound hnames fun n hl ho ↦ ?_).trans hdb) ⟨rfl, rfl⟩
  rw [hlisted, getElem?_swept hl]
  refine hdl n ?_
  rintro (rfl | hsealed | horphan)
  · simp [isLeftover] at hl
  · simp [isLeftover, hsealed] at hl
  · rw [isOrphan_iff.2 horphan] at ho
    cases ho

/-- The directory of a new store with leftovers of each kind. -/
def spareDisk : Disk :=
  ((Manifest.firstDisk.insert Manifest.tmp ⟨[103], [255]⟩).insert (sstPath 7)
    (.saved [1, 2, 3])).insert (donePath (walSegPath 3)) ⟨[], [0]⟩

theorem sameRecovery_spareDisk : SameRecovery {} Manifest.firstDisk spareDisk := by
  have hdest : Manifest.firstDisk[Manifest.dest]? = some (.saved (Manifest.text ⟨1, []⟩)) :=
    ExtTreeMap.getElem?_insert_self
  have hparse : Manifest.parse (Manifest.text ⟨1, []⟩) = .ok ⟨1, []⟩ :=
    Manifest.parse_text (Manifest.writable_sstPaths (by norm_num) [])
  refine sameRecovery_of_planted ⟨_, ⟨1, []⟩, hdest, by rw [File.content_saved, hparse],
    fun n hn ↦ ?_⟩ {}
  rw [IsSpare, not_or, not_or] at hn
  have hdone : n ≠ donePath (walSegPath 3) := fun heq ↦ hn.2.1 (heq ▸ isSealed_donePath 3)
  have hsst : n ≠ sstPath 7 := fun heq ↦ hn.2.2 ⟨heq ▸ extension_sstPath 7, List.not_mem_nil⟩
  rw [spareDisk, Disk.getElem?_insert_ne hdone, Disk.getElem?_insert_ne hsst,
    Disk.getElem?_insert_ne hn.1]

end DB

end KeyValStore
