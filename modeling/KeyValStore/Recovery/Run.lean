import KeyValStore.Recovery.Replay

/-!
# What recovery does

`wp_recover` follows `recover` in a directory that holds some contents.  The MANIFEST is written if
there is none, the next segment is opened, and otherwise the contents stay as they are
(`Contents.reopened`); the object has the tables that are listed and a MemTable into which the
records of the segments have been replayed (`DB.recovered`).
-/

set_option autoImplicit false

namespace KeyValStore

open Crash Std
open DB (StoreName sstPath walSegPath applyRecord isSealed)

namespace Contents

/-- The contents once there is a MANIFEST. -/
def withManifest (C : Contents) : Contents := { C with gen := some (C.gen.getD 1) }

/-- **The contents after recovery.** -/
def reopened (C : Contents) : Contents :=
  C.withManifest.setLog (nextOf C.tables) (some ((C.logs (nextOf C.tables)).getD {}))

/-- The contents recovery goes through. -/
def reopening (C : Contents) : List Contents := [C, C.withManifest, C.reopened]

theorem withManifest_of_some {C : Contents} {g : ℕ} (h : C.gen = some g) : C.withManifest = C := by
  rw [withManifest, h, Option.getD_some, ← h]

end Contents

namespace DB

/-- The MemTable into which some records have been replayed. -/
def replayed (rs : List WalRecord) : MemTable := rs.foldl (fun t r ↦ applyRecord r t) {}

/-- **The object after recovery.** -/
def recovered (sz : Sizing) (opts : Options) (C : Contents) : DB where
  opts
  memtable := replayed C.records
  wal := some (walSegPath (nextOf C.tables))
  sstables := tables sz C.tables
  nextSstId := nextOf C.tables
  currentWalId := nextOf C.tables
  manifestGen := C.gen.getD 1
  walReplayed := C.records.length

/-- The object once the tables have been loaded. -/
def loadedFrom (sz : Sizing) (opts : Options) (C : Contents) : DB where
  opts
  sstables := tables sz C.tables
  nextSstId := nextOf C.tables
  manifestGen := C.gen.getD 1

/-- **The calls recovery makes.** -/
inductive RecoverEvent (sz : Sizing) (C : Contents) : Event (Call Mark) DB Disk → Prop
  | plain {c : Call Mark} {m : DB} {d : Disk} {C' : Contents} (hc : c.isPlain = true)
      (hmem : C' ∈ C.reopening) (h : Holds sz d C') : RecoverEvent sz C ⟨c, m, d⟩
  | commit {m : DB} {d : Disk} (hgen : C.gen = none) (h : Holds sz d C)
      (htmp : d[Manifest.tmp]? = some (.saved (Manifest.text ⟨1, []⟩))) :
      RecoverEvent sz C ⟨.rename Manifest.tmp Manifest.dest, m, d⟩
  | replayed {r : WalRecord} {m : DB} {d : Disk} (hr : r ∈ C.records)
      (h : Holds sz d C.withManifest) : RecoverEvent sz C ⟨.mark (.replayed r), m, d⟩

/-- Every call is made in a directory that holds some of the contents recovery goes through. -/
theorem RecoverEvent.holds {sz : Sizing} {C : Contents} {ev : Event (Call Mark) DB Disk}
    (h : RecoverEvent sz C ev) : ∃ C' ∈ C.reopening, Holds sz ev.disk C' := by
  cases h with
  | plain hc hmem h => exact ⟨_, hmem, h⟩
  | commit hgen h htmp => exact ⟨C, by simp [Contents.reopening], h⟩
  | replayed hr h => exact ⟨C.withManifest, by simp [Contents.reopening], h⟩

section Run

variable {sz : Sizing} {W : Watch (Call Mark) DB Disk} {E : Error → DB → Disk → Prop}
  {opts : Options} {d : Disk} {C : Contents}

theorem loose_of_isSealed {n : Name} (hn : StoreName n) (h : isSealed n = true) : C.Loose n := by
  cases hn with
  | dest => simp at h
  | tmp => exact C.loose_tmp
  | sst id => simp at h
  | log hid => simp at h
  | done id => exact C.loose_donePath id

/-- **Step 3.** -/
theorem wp_loadTables {Q : Unit → DB → Disk → Prop} (h : Holds sz d C)
    (hw : ∀ ev, RecoverEvent sz C ev → W.always ev)
    (hok : ∀ d', Holds sz d' C.withManifest → Q () (loadedFrom sz opts C) d') :
    loadTables.wp reliable W Q E { opts } d := by
  have hidle : Allows W (Holds sz · C) := fun c m d' hc hd' ↦
    hw _ (.plain hc (by simp [Contents.reopening]) hd')
  have hcontains : d.contains Manifest.dest = C.gen.isSome := by
    rw [ExtTreeMap.contains_eq_isSome_getElem?, h.manifest, Option.isSome_map]
  rw [loadTables, wp_bind, Manifest.exists]
  refine wp_fileExists.2 ⟨hidle _ _ _ rfl h, fun _ ↦ ?_⟩
  rw [hcontains, wp_ite]
  cases hgen : C.gen with
  | some g =>
    rw [Option.isSome_some, if_pos rfl]
    have hm : (d[Manifest.dest]?).map File.content =
        some (Manifest.text ⟨g, C.tables.map (sstPath ·.1)⟩) := by
      rw [h.manifest, hgen, Option.map_some, Option.map_some, File.content_saved]
    have hwritable : Manifest.Writable ⟨g, C.tables.map (sstPath ·.1)⟩ := by
      have hids := Manifest.writable_sstPaths (h.gen g hgen) (C.tables.map Prod.fst)
      rwa [List.map_map] at hids
    refine wp_loadListed hm (Manifest.parse_text hwritable) rfl
      (fun t ht ↦ (h.tables t ht).1) h.tables.stored (hidle.mono fun d' hd' ↦ hd' ▸ h) ?_
    · have hdb : loadedDb sz C.tables { opts, manifestGen := g } = loadedFrom sz opts C := by
        simp [loadedDb, loadedFrom, hgen]
      rw [hdb]
      refine hok d ?_
      rw [Contents.withManifest_of_some hgen]
      exact h
  | none =>
    rw [Option.isSome_none, if_neg Bool.false_ne_true]
    obtain ⟨hts, hsst⟩ := h.first hgen
    have hnil : ∀ ts : List (ℕ × Entries), (∀ t ∈ ts, ∃ f, d[sstPath t.1]? = some f) → ts = [] := by
      intro ts h'
      refine List.eq_nil_iff_forall_not_mem.2 fun t ht ↦ ?_
      obtain ⟨f, hf⟩ := h' t ht
      rw [hsst] at hf
      cases hf
    have hreplacing : ∀ {d'}, Manifest.Replacing .none d d' → Holds sz d' C := by
      rintro d' (hoff | ⟨hf, -⟩)
      · exact h.off (hoff.agreeBut C.loose_tmp)
      · exact hf.elim
    refine wp_loadScanned sz rfl (fun p f hf ↦ .inl ?_) (hidle.mono fun _ ↦ hreplacing) ?_ ?_
    · cases h.names p f hf with
      | sst id =>
        rw [hsst] at hf
        cases hf
      | dest => exact scannedId_of_extension (by decide)
      | tmp => exact scannedId_of_extension (by decide)
      | log hid => exact scannedId_of_extension (by rw [extension_walSegPath]; decide)
      | done id => exact scannedId_of_extension (by rw [extension_donePath]; decide)
    · intro ts ts' d' hp hin hd' htmp
      obtain rfl := hnil ts hin
      obtain rfl := List.perm_nil.1 hp
      exact hw _ (.commit hgen (hreplacing hd') htmp)
    · intro ts ts' hp hin hst
      obtain rfl := hnil ts fun t ht ↦ (hin t ht).1
      obtain rfl := List.perm_nil.1 hp
      have hdb : scannedDb sz [] (nextOf []) { opts } = loadedFrom sz opts C := by
        simp [scannedDb, loadedFrom, hgen, hts, nextOf, tables, u64]
      rw [hdb]
      refine hok _ ?_
      have hnone : HoldsTables sz d [] := fun t ht ↦ absurd ht List.not_mem_nil
      have hcommit := h.toHoldsLogs.commit (u64_lt (0 + 1)) hnone
      rw [Contents.withManifest, hgen, hts]
      exact hcommit

/-- **What recovery does.** -/
theorem wp_recover {Q : Unit → DB → Disk → Prop} (h : Holds sz d C)
    (hlogs : ∀ id, C.logs id ≠ none → id ≤ nextOf C.tables)
    (hw : ∀ ev, RecoverEvent sz C ev → W.always ev)
    (hok : ∀ d', Holds sz d' C.reopened → Q () (recovered sz opts C) d') :
    recover.wp reliable W Q E { opts } d := by
  have hidle : ∀ {C'}, C' ∈ C.reopening → Allows W (Holds sz · C') := fun hC' c m d' hc hd' ↦
    hw _ (.plain hc hC' hd')
  have hmem₀ : C ∈ C.reopening := by simp [Contents.reopening]
  have hmem₁ : C.withManifest ∈ C.reopening := by simp [Contents.reopening]
  rw [recover, wp_bind]
  refine wp_removeLeftovers (fun h ↦ h.2.1 rfl) C.loose_tmp
    (fun n f hf hs ↦ loose_of_isSealed (h.names n f hf) hs)
    ((hidle hmem₀).mono fun _ hd' ↦ h.off hd') fun d₁ hd₁ ↦ ?_
  rw [wp_bind]
  refine wp_loadTables (h.off hd₁) hw fun d₂ h₂ ↦ ?_
  rw [wp_bind]
  refine wp_removeOrphans (J := C.withManifest.Loose) (fun h ↦ h.2.1 rfl)
    (fun n f hf hext hlive ↦ ?_) ((hidle hmem₁).mono fun _ hd' ↦ h₂.off hd') fun d₃ hd₃ ↦ ?_
  · -- only the tables have this extension
    cases h₂.names n f hf with
    | sst id =>
      refine Contents.loose_sstPath (Option.some_ne_none _) fun t ht hid ↦ hlive ?_
      rw [loadedFrom, map_path_tables]
      exact List.mem_map.2 ⟨t, ht, by rw [hid]⟩
    | dest => exact absurd hext (by decide)
    | tmp => exact absurd hext (by decide)
    | log hid => exact absurd hext (by rw [extension_walSegPath]; decide)
    | done id => exact absurd hext (by rw [extension_donePath]; decide)
  have h₃ := h₂.off hd₃
  rw [wp_bind]
  refine wp_replaySegments (n := nextOf C.tables + 1) h₃.toHoldsLogs
    (fun id hid ↦ Nat.lt_succ_of_le (hlogs id hid)) ((hidle hmem₁).mono fun _ hd' ↦ hd' ▸ h₃)
    (fun r hr m ↦ hw _ (.replayed hr h₃)) fun id _ hid ↦ ?_
  have hmax : max id (nextOf C.tables) = nextOf C.tables := by
    have hcur : (loadedFrom sz opts C).currentWalId = 0 := rfl
    rw [hcur] at hid
    omega
  rw [openActive, wp_bind, wp_modify, wp_bind, Crash.wp_get, wp_bind]
  refine WAL.wp_open (hidle hmem₁ _ _ _ rfl h₃) (fun hf ↦ hf.elim) ?_
  have hnext : (loadedFrom sz opts C).nextSstId = nextOf C.tables := rfl
  rw [wp_modify]
  simp only [replayedDb, hnext, hmax]
  have h₄ := hok _ (h₃.opened (nextOf_lt C.tables))
  have hdb : recovered sz opts C = { replayedDb C.records (loadedFrom sz opts C) with
      wal := some (walSegPath (nextOf C.tables)), currentWalId := nextOf C.tables } := by
    simp [recovered, replayedDb, loadedFrom, replayed]
  rw [hdb] at h₄
  exact h₄

end Run

end DB

/-! ## The inventory after recovery -/

section Inventory

variable {sz : Sizing} {d : Disk} {C : Contents}

theorem Contents.Sound.reopening (h : C.Sound) (hfirst : C.gen = none → C.tables = []) :
    ∀ C' ∈ C.reopening, C'.Sound := by
  have hmanifest : C.withManifest.Sound := by
    refine ⟨h.sorted, h.fresh, ?_, h.logs⟩
    rintro g hg
    obtain rfl := Option.some.inj hg
    cases hgen : C.gen with
    | some g => exact h.gen g hgen
    | none =>
      rw [Contents.withManifest, hfirst hgen]
      rfl
  simp only [Contents.reopening, List.forall_mem_cons]
  exact ⟨h, hmanifest, hmanifest.setLog le_rfl, fun _ ht ↦ absurd ht List.not_mem_nil⟩

theorem Contents.reopened_logs (C : Contents) (id : ℕ) : C.reopened.logs id =
    if id = nextOf C.tables then some ((C.logs id).getD {}) else C.logs id := by
  rw [Contents.reopened]
  by_cases hid : id = nextOf C.tables
  · rw [if_pos hid, hid, Contents.setLog_logs_self]
  · rw [if_neg hid, Contents.setLog_logs_ne _ _ hid]
    rfl

/-- **Recovery establishes the invariant.** -/
theorem opened_recovered (h : Holds sz d C.reopened) (hs : C.Sound)
    (hfirst : C.gen = none → C.tables = []) (opts : Options) :
    Opened sz (DB.recovered sz opts C) d C.reopened where
  holds := h
  sound := hs.reopening hfirst _ (by simp [Contents.reopening])
  gen := rfl
  tables := rfl
  next := rfl
  wal := rfl
  active := by
    rw [DB.recovered, C.reopened_logs, if_pos rfl]
    exact Option.some_ne_none _
  last id hid := by
    rw [C.reopened_logs] at hid
    split at hid
    · rename_i heq
      exact heq.le
    · exact hs.logs id hid

end Inventory

end KeyValStore
