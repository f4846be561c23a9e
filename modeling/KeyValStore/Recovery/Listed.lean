import KeyValStore.Recovery.Scanned

/-!
# What a MANIFEST brings back

The numbers of the tables go into a MANIFEST as names and come back as numbers, in the same order,
and recovery counts on above all of them (`roundTrips`).
-/

set_option autoImplicit false

namespace KeyValStore

open Crash Std

namespace DB

/-- The data of a MANIFEST that lists the tables with the given numbers. -/
def listed (gen : ℕ) (ids : List ℕ) : ManifestData := ⟨gen, ids.map sstPath⟩

/-- **A MANIFEST is written and comes back.** -/
structure RoundTrips (gen : ℕ) (ids : List ℕ) (db : DB) (d : Disk) : Prop where
  /-- Reading it gives the generation and the numbers back, in order. -/
  read : (do Manifest.write (listed gen ids); Manifest.read : Io DB ManifestData).Returns
    reliable db d fun data _ _ ↦ data.generation = gen ∧ data.liveSstables.mapM listedId = .ok ids
  /-- Recovery loads the tables, if they can be opened, and counts on above them. -/
  load : (∀ id ∈ ids, (openOf d (sstPath id)).isSome = true) →
    (do Manifest.write (listed gen ids); loadListed : Io DB Unit).Returns reliable db
    d fun _ db' _ ↦
      db'.manifestGen = gen ∧
        db'.sstables.map (·.path) = db.sstables.map (·.path) ++ ids.map sstPath ∧
        ∀ id ∈ ids, id < db'.nextSstId

theorem lt_nextAfter {ts : List (ℕ × SSTable)} (h : ∀ t ∈ ts, t.1 < 2 ^ 64 - 1) :
    ∀ t ∈ ts, t.1 < nextAfter ts := by
  induction ts with
  | nil => exact fun t ht ↦ absurd ht List.not_mem_nil
  | cons t ts ih =>
    rw [List.forall_mem_cons] at h ⊢
    have hu : u64 (t.1 + 1) = t.1 + 1 := Nat.mod_eq_of_lt (by omega)
    have hnext : nextAfter (t :: ts) = max (t.1 + 1) (nextAfter ts) := congrArg (max · _) hu
    rw [hnext]
    exact ⟨lt_max_of_lt_left (Nat.lt_succ_self _), fun t' ht' ↦ lt_max_of_lt_right (ih h.2 t' ht')⟩

theorem mapM_listedId {ids : List ℕ} (h : ∀ id ∈ ids, id < 2 ^ 64) :
    (ids.map sstPath).mapM listedId = .ok ids := by
  induction ids with
  | nil => rfl
  | cons id ids ih =>
    rw [List.forall_mem_cons] at h
    rw [List.map_cons, List.mapM_cons, listedId_sstPath h.1, ih h.2]
    rfl

section Write

variable {W : Watch (Call Mark) DB Disk} {E : Error → DB → Disk → Prop} {db : DB} {d : Disk}

/-- `Manifest::write` on a device that does all it is asked to. -/
theorem wp_writeManifest {data : ManifestData} {Q : Unit → DB → Disk → Prop}
    (h : Q () db (Manifest.commit (Manifest.text data) d)) :
    (Manifest.write data : Io DB Unit).wp reliable .blind Q E db d := by
  refine Manifest.wp_write (fun hf ↦ hf.elim) (fun _ _ _ _ _ ↦ trivial) (fun _ _ _ _ _ ↦ trivial)
    (fun _ _ _ ↦ trivial) (fun _ _ _ hf ↦ ?_) ?_
  · rcases hf with hf | ⟨_, hf⟩ | hf <;> exact hf.elim
  · rintro kept (rfl | ⟨hf, -⟩)
    · exact h
    · exact hf.elim

theorem wp_readManifest {data : ManifestData} (hdata : Manifest.Writable data)
    {Q : ManifestData → DB → Disk → Prop}
    (hd : d[Manifest.dest]? = some (.saved (Manifest.text data))) (h : Q data db d) :
    (Manifest.read : Io DB ManifestData).wp reliable .blind Q E db d := by
  rw [Manifest.read, wp_bind]
  refine wp_readFile (fun hf ↦ hf.elim) trivial (fun _ hf ↦ hf.elim) fun _ ↦ ?_
  rw [hd, Option.map_some, File.content_saved]
  have hparse := Manifest.parse_text hdata
  refine (wp_ofExcept _).2 ⟨fun data' h' ↦ ?_, fun e h' ↦ ?_⟩
  · rw [hparse] at h'
    obtain rfl := Except.ok.inj h'
    exact h
  · rw [hparse] at h'
    cases h'

end Write

section

variable {d : Disk}

theorem openOf_commit (bs : Bytes) (d : Disk) (id : ℕ) :
    openOf (Manifest.commit bs d) (sstPath id) = openOf d (sstPath id) := by
  rw [openOf, openOf, Manifest.getElem?_commit_sst]

/-- What recovery finds under the names of tables that can be opened. -/
theorem exists_collect_listed {ids : List ℕ} (hids : ∀ id ∈ ids, id < 2 ^ 64)
    (hopen : ∀ id ∈ ids, (openOf d (sstPath id)).isSome = true) :
    ∃ ts, collect (listedTable d) (ids.map sstPath) = some ts ∧ ts.map (·.1) = ids ∧
      ts.map (·.2.path) = ids.map sstPath := by
  induction ids with
  | nil => exact ⟨[], rfl, rfl, rfl⟩
  | cons id ids ih =>
    rw [List.forall_mem_cons] at hids hopen
    obtain ⟨t, ht⟩ := Option.isSome_iff_exists.1 hopen.1
    obtain ⟨ts, hts, hnumbers, hpaths⟩ := ih hids.2 hopen.2
    have hfound : listedTable d (sstPath id) = some (some (id, t)) := by
      rw [listedTable, listedId_sstPath hids.1, ht]
      rfl
    refine ⟨(id, t) :: ts, ?_, congrArg _ hnumbers, ?_⟩
    · rw [List.map_cons, collect_cons, hfound, hts]
      rfl
    · rw [List.map_cons, List.map_cons, hpaths, openOf_path ht]

/-- **The MANIFEST round-trips**, for all numbers and all lists of them. -/
theorem roundTrips {gen : ℕ} {ids : List ℕ} (hgen : gen < 2 ^ 64)
    (hids : ∀ id ∈ ids, id < 2 ^ 64 - 1) (db : DB) (d : Disk) : RoundTrips gen ids db d where
  read := by
    refine Prog.returns_of_wp ?_
    rw [wp_bind]
    refine wp_writeManifest (wp_readManifest (Manifest.writable_sstPaths hgen ids)
      (Manifest.commit_dest _ _) ⟨rfl, mapM_listedId fun id hid ↦ ?_⟩)
    exact (hids id hid).trans_le (Nat.sub_le _ _)
  load hopen := by
    have hlt : ∀ id ∈ ids, id < 2 ^ 64 := fun id hid ↦ (hids id hid).trans_le (Nat.sub_le _ _)
    obtain ⟨ts, hts, hnumbers, hpaths⟩ := exists_collect_listed
      (d := Manifest.commit (Manifest.text (listed gen ids)) d) hlt
      fun id hid ↦ by rw [openOf_commit]; exact hopen id hid
    refine Prog.returns_of_wp ?_
    rw [wp_bind]
    refine wp_writeManifest ?_
    rw [loadListed, wp_bind]
    refine wp_readManifest (Manifest.writable_sstPaths hgen ids) (Manifest.commit_dest _ _) ?_
    rw [wp_bind, wp_modify]
    refine wp_loadAllListed (fun _ _ _ _ _ ↦ trivial) (fun hnone ↦ ?_) fun ts' hts' ↦ ?_
    · cases hts.symm.trans hnone
    obtain rfl := Option.some.inj (hts.symm.trans hts')
    refine ⟨rfl, ?_, fun id hid ↦ lt_max_of_lt_right ?_⟩
    · rw [List.map_append, List.map_map]
      exact congrArg _ hpaths
    · rw [← hnumbers] at hid hids
      obtain ⟨t, ht, rfl⟩ := List.mem_map.1 hid
      exact lt_nextAfter (fun t ht ↦ hids t.1 (List.mem_map_of_mem ht)) t ht

end

theorem roundTrips_pair : RoundTrips 5 [1000000, 999999] {} (pairFiles 999999) :=
  roundTrips (by norm_num) (by simp) {} (pairFiles 999999)

end DB

end KeyValStore
