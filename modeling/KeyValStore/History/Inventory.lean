import KeyValStore.History.Reopen

/-!
# The inventory of a store

What the MANIFEST of a directory lists, at every step of every history: complete tables, the newest
first (`Inventory`).  No table is ever built under a name that is listed, between two operations the
object has the tables that are listed, and the generations of the MANIFEST increase as long as they
do not wrap around (`inventoryKept`).

The generation is one more than the next number, so it is the generation that wraps around first:
the last but one of the 64-bit numbers is taken, and the MANIFEST gets the generation 0
(`not_inventoryKept`).
-/

set_option autoImplicit false

namespace KeyValStore

open Crash Std
open DB (sstPath walSegPath donePath buildEvent taken Keeps)

/-! ## What a directory lists -/

/-- What is read of the MANIFEST, if there is one. -/
def manifestOf (d : Disk) : Option (Except Error ManifestData) :=
  (d[Manifest.dest]?).map fun f ↦ Manifest.parse f.content

/-- The names the MANIFEST lists. -/
def listed (d : Disk) : List Name :=
  match manifestOf d with
  | some (.ok data) => data.liveSstables
  | _ => []

/-- The generation of the MANIFEST; 0 while there is none. -/
def genOf (d : Disk) : ℕ :=
  match manifestOf d with
  | some (.ok data) => data.generation
  | _ => 0

/-- **The MANIFEST lists complete tables, the newest first.** -/
structure Inventory (sz : Sizing) (d : Disk) (gen : ℕ) (ts : List (ℕ × Entries)) : Prop where
  /-- The MANIFEST can be read, and lists the tables. -/
  manifest : manifestOf d = some (.ok ⟨gen, ts.map (sstPath ·.1)⟩)
  /-- Their numbers decrease strictly. -/
  sorted : ts.Pairwise fun a b ↦ b.1 < a.1
  /-- Each of them is there, as it has been built. -/
  complete : ∀ t ∈ ts, (d[sstPath t.1]?).map File.content = some (SSTable.image sz t.2)

/-- There is no MANIFEST yet, or it lists complete tables. -/
def InOrder (sz : Sizing) (d : Disk) : Prop := manifestOf d = none ∨ ∃ gen ts, Inventory sz d gen ts

/-- A table is built under a name that neither the MANIFEST nor the object has. -/
def BuildsFresh (ev : Event (Call Mark) DB Disk) : Prop :=
  ∀ path entries, ev.call = .mark (.build path entries) →
    path ∉ listed ev.disk ∧ path ∉ ev.mem.sstables.map (·.path)

/-- The object has the tables that are listed, and its next number is above theirs. -/
def Matches (sz : Sizing) (db : DB) (d : Disk) : Prop :=
  ∃ gen ts, Inventory sz d gen ts ∧ db.sstables.map (·.path) = ts.map (sstPath ·.1) ∧
    ∀ t ∈ ts, t.1 < db.nextSstId

/-- The generation of the MANIFEST that a call puts in place. -/
def committed (ev : Event (Call Mark) DB Disk) : Option ℕ :=
  match ev.call with
  | .rename old new =>
    if new = Manifest.dest then
      match (ev.disk[old]?).map fun f ↦ Manifest.parse f.content with
      | some (.ok data) => some data.generation
      | _ => none
    else none
  | _ => none

/-- The generations that have been put in place in a history, in order. -/
def generations (hist : List (Label × Trace)) : List ℕ := (hist.flatMap (·.2)).filterMap committed

/-- The directory of a world. -/
def World.disk : World → Disk
  | closed d => d
  | opened _ d => d

/-- **The inventory is kept** in every history from the empty directory whose builds meet the
condition `P`; the generations rise if they also meet `R`. -/
def InventoryKept (sz : Sizing) (P R : Entries → DB → Disk → Prop) : Prop :=
  ∀ (hist : List (Label × Trace)) (w : World), Run sz (.closed ∅) hist w →
    (∀ s ∈ hist, ∀ ev ∈ s.2, OnBuild P ev) →
    (∀ s ∈ hist, ∀ ev ∈ s.2, InOrder sz ev.disk ∧ BuildsFresh ev) ∧ InOrder sz w.disk ∧
      (∀ db d, w = .opened db d → Matches sz db d) ∧
      ((∀ s ∈ hist, ∀ ev ∈ s.2, OnBuild R ev) → (generations hist).Pairwise (· < ·))

section Holds

variable {sz : Sizing} {d d' : Disk} {C : Contents}

theorem Holds.manifestOf (h : Holds sz d C) :
    manifestOf d = C.gen.map fun g ↦ .ok ⟨g, C.tables.map (sstPath ·.1)⟩ := by
  rw [KeyValStore.manifestOf, h.manifest]
  cases hgen : C.gen with
  | none => rfl
  | some g =>
    have hwritable : Manifest.Writable ⟨g, C.tables.map (sstPath ·.1)⟩ := by
      have hids := Manifest.writable_sstPaths (h.gen g hgen) (C.tables.map Prod.fst)
      rwa [List.map_map] at hids
    rw [Option.map_some, Option.map_some, Option.map_some, File.content_saved,
      Manifest.parse_text hwritable]

theorem Holds.listed (h : Holds sz d C) : listed d = C.tables.map (sstPath ·.1) := by
  rw [KeyValStore.listed, h.manifestOf]
  cases hgen : C.gen with
  | none => rw [(h.first hgen).1]; rfl
  | some g => rfl

theorem Holds.genOf (h : Holds sz d C) : genOf d = C.gen.getD 0 := by
  rw [KeyValStore.genOf, h.manifestOf]
  cases C.gen <;> rfl

theorem Holds.inventory (h : Holds sz d C) (hs : C.Sound) {g : ℕ} (hg : C.gen = some g) :
    Inventory sz d g C.tables where
  manifest := by rw [h.manifestOf, hg]; rfl
  sorted := hs.sorted
  complete t ht := (h.tables.stored t ht).2

theorem Holds.inOrder (h : Holds sz d C) (hs : C.Sound) : InOrder sz d := by
  cases hgen : C.gen with
  | none => exact .inl (by rw [h.manifestOf, hgen]; rfl)
  | some g => exact .inr ⟨g, _, h.inventory hs hgen⟩

theorem Opened.matches {db : DB} (h : Opened sz db d C) : Matches sz db d := by
  refine ⟨_, _, h.holds.inventory h.sound h.gen, ?_, fun t ht ↦ ?_⟩
  · rw [h.tables, DB.map_path_tables]
  · rw [h.next]
    exact h.sound.fresh t ht

/-- A new table and an unfinished MANIFEST do not matter. -/
theorem Holds.built (h : Holds sz d C) {n : ℕ} {entries : Entries} (hn : C.Loose (sstPath n))
    (hd : Manifest.Replacing .none (d.insert (sstPath n) (.saved (SSTable.image sz entries))) d') :
    Holds sz d' C := by
  have hoff := hd.resolve_right fun hr ↦ hr.1
  exact (h.off (Disk.AgreeOff.agreeBut (Disk.agreeOff_insert d _ _) hn)).off
    (hoff.agreeBut C.loose_tmp)

end Holds

/-! ## Calls -/

/-- **What holds of every call**: the directory is sound, tables are built under new names, and the
MANIFEST is only replaced by another one; of a greater generation, if `R` says that generations
rise. -/
structure Tidy (sz : Sizing) (R : Prop) (ev : Event (Call Mark) DB Disk) : Prop where
  /-- The directory is sound. -/
  holds : ∃ C, Holds sz ev.disk C ∧ C.Sound
  /-- Tables are built under new names. -/
  build : BuildsFresh ev
  /-- Nothing but a MANIFEST takes the place of the MANIFEST. -/
  rename : ∀ old new, ev.call = .rename old new → old ≠ Manifest.dest ∧ (new = Manifest.dest →
    ∃ data, Manifest.Writable data ∧ ev.disk[old]? = some (.saved (Manifest.text data)) ∧
      (R → genOf ev.disk < data.generation))
  /-- The MANIFEST is not removed. -/
  remove : ev.call ≠ .remove Manifest.dest

/-- There is no MANIFEST, or it is durable and not empty. -/
def Firm (d : Disk) : Prop := ∀ f, d[Manifest.dest]? = some f → f.pending = [] ∧ f.synced ≠ []

section Calls

variable {sz : Sizing} {R : Prop} {d d' : Disk} {C : Contents} {m : DB}

theorem Holds.firm (h : Holds sz d C) : Firm d := by
  intro f hf
  rw [h.manifest] at hf
  obtain ⟨g, -, rfl⟩ := Option.map_eq_some_iff.1 hf
  refine ⟨rfl, fun hnil ↦ ?_⟩
  have htext : Manifest.text ⟨g, C.tables.map (sstPath ·.1)⟩ = [] := hnil
  rw [Manifest.text_eq] at htext
  simp [ascii] at htext

theorem Tidy.plain {c : Call Mark} (hc : c.isPlain = true) (h : Holds sz d C) (hs : C.Sound) :
    Tidy sz R ⟨c, m, d⟩ where
  holds := ⟨C, h, hs⟩
  build := by
    rintro path entries rfl
    cases hc
  rename := by
    rintro old new rfl
    cases hc
  remove := by
    rintro rfl
    simp [Call.isPlain] at hc

/-- A mark that is not the building of a table. -/
theorem Tidy.mark {mk : Mark} (hmk : ∀ path entries, mk ≠ .build path entries) (h : Holds sz d C)
    (hs : C.Sound) : Tidy sz R ⟨.mark mk, m, d⟩ where
  holds := ⟨C, h, hs⟩
  build path entries hc := absurd (Call.mark.inj hc) (hmk path entries)
  rename _ _ hc := by cases hc
  remove := by rintro ⟨⟩

/-- The building of a table with a free number. -/
theorem Tidy.building {db : DB} {entries : Entries} (h : Opened sz db d C) :
    Tidy sz R (buildEvent db entries d) where
  holds := ⟨C, h.holds, h.sound⟩
  build := by
    have hfree : sstPath db.nextSstId ∉ C.tables.map (sstPath ·.1) := by
      intro hmem
      obtain ⟨t, ht, hpath⟩ := List.mem_map.1 hmem
      exact h.fresh t ht (DB.sstPath_inj.1 hpath)
    rintro path entries' ⟨⟩
    refine ⟨h.holds.listed ▸ hfree, ?_⟩
    show _ ∉ db.sstables.map (·.path)
    rwa [h.tables, DB.map_path_tables]
  rename _ _ hc := by cases hc
  remove := by rintro ⟨⟩

/-- The replacing of the MANIFEST. -/
theorem Tidy.commit {g : ℕ} (ts : List (ℕ × Entries)) (h : Holds sz d C) (hs : C.Sound)
    (hg : g < 2 ^ 64) (hlt : R → C.gen.getD 0 < g)
    (htmp : d[Manifest.tmp]? = some (.saved (Manifest.text ⟨g, ts.map (sstPath ·.1)⟩))) :
    Tidy sz R ⟨.rename Manifest.tmp Manifest.dest, m, d⟩ where
  holds := ⟨C, h, hs⟩
  build _ _ hc := by cases hc
  rename := by
    rintro _ _ ⟨⟩
    refine ⟨Manifest.dest_ne_tmp.symm, fun _ ↦ ⟨_, ?_, htmp, h.genOf ▸ hlt⟩⟩
    have hids := Manifest.writable_sstPaths hg (ts.map Prod.fst)
    rwa [List.map_map] at hids
  remove := by rintro ⟨⟩

/-- The sealing of a segment. -/
theorem Tidy.sealing {id : ℕ} (h : Holds sz d C) (hs : C.Sound) :
    Tidy sz R ⟨.rename (walSegPath id) (donePath (walSegPath id)), m, d⟩ where
  holds := ⟨C, h, hs⟩
  build _ _ hc := by cases hc
  rename := by
    rintro _ _ ⟨⟩
    exact ⟨DB.walSegPath_ne_dest id, fun hd ↦ absurd hd (DB.donePath_ne_dest id)⟩
  remove := by rintro ⟨⟩

/-! ## The generations of a run -/

theorem genOf_congr (h : d'[Manifest.dest]? = d[Manifest.dest]?) : genOf d' = genOf d := by
  rw [genOf, genOf, manifestOf, manifestOf, h]

/-- A plain call between two directories with a durable MANIFEST leaves it alone. -/
theorem getElem?_dest_of_plain {c : Call Mark} {r : Reply c} (hc : c.isPlain = true)
    (hs : Crash.Step .none c d r d') (hd : Firm d) (hd' : Firm d') :
    d'[Manifest.dest]? = d[Manifest.dest]? := by
  have hempty : d'[Manifest.dest]? ≠ some {} := fun h ↦ (hd' _ h).2 rfl
  cases c with
  | mark mk => cases hc
  | rename old new => cases hc
  | fileExists n => rw [hs.2]; rfl
  | listDir => rw [hs.2]
  | readFile n => rw [hs.1]
  | tell n => rw [hs.2]; rfl
  | flush n => rw [(hs.resolve_right fun hf ↦ hf.1).2]
  | close n => rw [(hs.resolve_right fun hf ↦ hf.1).2]
  | remove n =>
    obtain rfl := (hs.resolve_right fun hf ↦ hf.1).2
    have hn : n ≠ Manifest.dest := of_decide_eq_true hc
    exact Disk.getElem?_erase_ne hn.symm
  | openTrunc n =>
    obtain rfl := (hs.resolve_right fun hf ↦ hf.1).2
    by_cases hn : Manifest.dest = n
    · exact absurd (hn ▸ ExtTreeMap.getElem?_insert_self) hempty
    · exact Disk.getElem?_insert_ne hn
  | openAppend n =>
    obtain rfl := (hs.resolve_right fun hf ↦ hf.1).2
    by_cases hn : Manifest.dest = n
    · subst hn
      rw [Disk.getElem?_insertIfNew_self] at hempty ⊢
      cases hf : d[Manifest.dest]? with
      | none => exact absurd (by rw [hf]; rfl) hempty
      | some f => rfl
    · exact Disk.getElem?_insertIfNew_ne hn
  | write n bs =>
    obtain rfl := (hs.resolve_right fun hf ↦ hf.1).2
    by_cases hn : Manifest.dest = n
    · subst hn
      cases hf : d[Manifest.dest]? with
      | none => rw [ExtTreeMap.getElem?_modify_self, hf]; rfl
      | some f =>
        have hnew : (d.modify Manifest.dest (·.append bs))[Manifest.dest]? =
            some (f.append bs) := by
          rw [ExtTreeMap.getElem?_modify_self, hf, Option.map_some]
        have hbs : bs = [] := (List.append_eq_nil_iff.1 (hd' _ hnew).1).2
        rw [hnew, hbs, File.append, List.append_nil]
    · exact Disk.getElem?_modify_ne hn
  | sync n =>
    obtain rfl := (hs.resolve_right fun hf ↦ hf.1).2
    by_cases hn : Manifest.dest = n
    · subst hn
      rw [ExtTreeMap.getElem?_modify_self]
      cases hf : d[Manifest.dest]? with
      | none => rfl
      | some f =>
        obtain ⟨s, p⟩ := f
        obtain rfl : p = [] := (hd _ hf).1
        simp [File.content, File.saved]
    · exact Disk.getElem?_modify_ne hn

/-- **A call puts another generation in place, or leaves the MANIFEST alone.** -/
theorem Tidy.genOf_step {c : Call Mark} {r : Reply c} (h : Tidy sz R ⟨c, m, d⟩)
    (hs : Crash.Step .none c d r d') (hd' : Firm d') :
    committed ⟨c, m, d⟩ = none ∧ genOf d' = genOf d ∨
      ∃ g, committed ⟨c, m, d⟩ = some g ∧ (R → genOf d < g) ∧ genOf d' = g := by
  obtain ⟨C, hholds, -⟩ := h.holds
  by_cases hc : c.isPlain = true
  · refine .inl ⟨?_, genOf_congr (getElem?_dest_of_plain hc hs hholds.firm hd')⟩
    cases c <;> first | rfl | cases hc
  cases c with
  | mark mk => exact .inl ⟨rfl, congrArg genOf hs.2⟩
  | remove n =>
    have hn : n = Manifest.dest := by simpa [Call.isPlain] using hc
    exact absurd (hn ▸ rfl) h.remove
  | rename old new =>
    obtain ⟨-, rfl⟩ := hs.resolve_right fun hf ↦ hf.1
    obtain ⟨hold, hnew⟩ := h.rename old new rfl
    by_cases hn : new = Manifest.dest
    · obtain ⟨data, hdata, hfile, hlt⟩ := hnew hn
      refine .inr ⟨data.generation, ?_, hlt, ?_⟩
      · have hfile' : d[old]? = some (.saved (Manifest.text data)) := hfile
        simp [committed, hn, hfile', Manifest.parse_text hdata]
      · have hfile' : d[old]? = some (.saved (Manifest.text data)) := hfile
        simp [genOf, manifestOf, Call.perform, hfile', hn, Manifest.parse_text hdata]
    · refine .inl ⟨by simp [committed, hn], genOf_congr ?_⟩
      rw [Call.perform]
      cases hf : d[old]? with
      | none => rfl
      | some f =>
        show ((d.erase old).insert new f)[Manifest.dest]? = _
        rw [Disk.getElem?_insert_ne (Ne.symm hn), Disk.getElem?_erase_ne (Ne.symm hold)]
  | _ => exact absurd rfl hc

/-- The generations that are put in place between one of generation `g` and one of generation `g'`;
they rise if `R` says so. -/
structure Counts (R : Prop) (g : ℕ) (gs : List ℕ) (g' : ℕ) : Prop where
  /-- The last one stays. -/
  last : g' = gs.getLastD g
  /-- Each is greater than those before it. -/
  sorted : R → (g :: gs).Pairwise (· < ·)

theorem Counts.refl (R : Prop) (g : ℕ) : Counts R g [] g :=
  ⟨rfl, fun _ ↦ List.pairwise_singleton _ _⟩

theorem Counts.mem_of_ne {g g' : ℕ} {gs : List ℕ} (h : Counts R g gs g') (hne : g' ≠ g) :
    g' ∈ gs := by
  have hmem : g' ∈ g :: gs := h.last ▸ List.getLastD_mem_cons
  exact (List.mem_cons.1 hmem).resolve_left hne

theorem Counts.cons {g g' g'' : ℕ} {gs : List ℕ} (hlt : R → g < g') (h : Counts R g' gs g'') :
    Counts R g (g' :: gs) g'' where
  last := by rw [h.last, List.getLastD_cons]
  sorted hR := by
    have hsorted := h.sorted hR
    refine List.pairwise_cons.2 ⟨fun x hx ↦ ?_, hsorted⟩
    rcases List.mem_cons.1 hx with rfl | hx
    · exact hlt hR
    · exact (hlt hR).trans ((List.pairwise_cons.1 hsorted).1 x hx)

theorem Counts.append {g g' g'' : ℕ} {gs gs' : List ℕ} (h : Counts R g gs g')
    (h' : Counts R g' gs' g'') : Counts R g (gs ++ gs') g'' := by
  induction gs generalizing g with
  | nil =>
    obtain rfl : g' = g := h.last
    exact h'
  | cons x xs ih =>
    refine .cons (fun hR ↦ ?_) (ih ⟨by rw [h.last, List.getLastD_cons], fun hR ↦ ?_⟩)
    · exact (List.pairwise_cons.1 (h.sorted hR)).1 x List.mem_cons_self
    · exact (List.pairwise_cons.1 (h.sorted hR)).2

/-- **The generations of a run rise.** -/
theorem counts_of_chain {tr : Trace} (h : Chain reliable d tr d') (hev : ∀ ev ∈ tr, Tidy sz R ev)
    (hend : Firm d') : Counts R (genOf d) (tr.filterMap committed) (genOf d') := by
  induction h with
  | nil => exact .refl R _
  | cons hs h ih =>
    rw [List.forall_mem_cons] at hev
    have hfirm := h.start (J := Firm) (fun ev hmem ↦ by
      obtain ⟨C, hC, -⟩ := (hev.2 ev hmem).holds
      exact hC.firm) hend
    have hrest := ih hev.2 hend
    rcases hev.1.genOf_step hs hfirm with ⟨hnone, hgen⟩ | ⟨g, hsome, hlt, rfl⟩
    · rw [List.filterMap_cons, hnone, ← hgen]
      exact hrest
    · rw [List.filterMap_cons, hsome]
      exact hrest.cons hlt

end Calls

/-! ## Every history -/

/-- Neither the number of the table nor the generation that goes with it wraps around. -/
def HasRoom (db : DB) : Prop := NoWrap db ∧ db.nextSstId + 1 < 2 ^ 64

/-- What is assumed of the building of a table, and what holds of every call. -/
def tidyWatch (sz : Sizing) (R : Prop) : Watch (Call Mark) DB Disk where
  assume := OnBuild fun entries db _ ↦ SSTable.Openable sz entries ∧ NoWrap db ∧ (R → HasRoom db)
  always := Tidy sz R

section History

variable {sz : Sizing} {R : Prop} {db : DB} {d : Disk} {C : Contents} {entries : Entries}

/-- The generation that is counted up is greater than the one before. -/
theorem Opened.gen_lt (h : Opened sz db d C) (hlt : db.nextSstId + 1 < 2 ^ 64)
    (hroom : HasRoom (taken db)) : C.gen.getD 0 < u64 (db.manifestGen + 1) := by
  have hlt' : db.nextSstId + 1 + 1 < 2 ^ 64 := by
    have hnext := hroom.2
    rwa [taken, u64_of_lt hlt] at hnext
  have hgen : db.manifestGen = db.nextSstId + 1 := by
    rw [h.sound.gen _ h.gen, ← h.next, u64_of_lt hlt]
  rw [h.gen, Option.getD_some, hgen, u64_of_lt hlt']
  exact Nat.lt_succ_self _

/-- **Flushes and merges keep the inventory.** -/
theorem keeps_tidy (sz : Sizing) (R : Prop) :
    Keeps sz (tidyWatch sz R) fun db d ↦ ∃ C, Opened sz db d C where
  idle := by
    rintro db d ⟨C, ho⟩ c m d' hc rfl
    exact .plain hc ho.holds ho.sound
  flushBuild := by
    rintro db d ⟨C, ho⟩ -
    exact .building ho
  flush := by
    rintro db d ⟨C, ho⟩ he hbuild
    obtain ⟨hopen, hwrap, hroom⟩ := hbuild _ _ rfl
    have hsucc := succ_lt_of_noWrap ho.next_lt hwrap
    have hsound := ho.sound_flushContents hsucc
    have hcommitted := DB.holds_flushCommitted ho.holds.toHoldsLogs ho.holds.tables
      ho.tables ho.fresh ho.next_lt hopen
    refine ⟨hopen, fun ev hev ↦ ?_, _, ho.flushed hsucc hopen⟩
    cases hev with
    | plain hc hstage =>
      obtain ⟨C', hmem, hd⟩ := DB.holds_of_flushStage ho.holds ho.gen_ne ho.tables
        ho.fresh ho.next_lt ho.wal_lt hopen hstage
      exact .plain hc hd (hsound C' hmem)
    | commit hd htmp =>
      refine .commit ((db.nextSstId, db.memtable.data) :: C.tables)
        (ho.holds.built (Contents.loose_sstPath ho.gen_ne ho.fresh) hd) ho.sound (u64_lt _)
        (fun hR ↦ ho.gen_lt hsucc (hroom hR)) ?_
      rw [htmp, DB.flushManifest, ho.tables, DB.map_path_tables, List.map_cons]
    | discard hf hd => exact hf.elim
    | sealing => exact .sealing hcommitted (hsound _ (by simp [DB.flushContents]))
    | flushed =>
      exact .mark (by simp) (ho.flushed hsucc hopen).holds (ho.flushed hsucc hopen).sound
  merge := by
    rintro db d ⟨C, ho⟩ he
    refine ⟨C.tables, ho.tables, ho.holds.tables.stored, .building ho, fun hbuild ↦ ?_⟩
    obtain ⟨hopen, hwrap, hroom⟩ := hbuild _ _ rfl
    have hsucc := succ_lt_of_noWrap ho.next_lt hwrap
    refine ⟨hopen, fun ev hev ↦ ?_, _, ho.merged hsucc hopen⟩
    cases hev with
    | plain hc hstage =>
      obtain ⟨C', hmem, hd⟩ :=
        DB.holds_of_mergeStage ho.holds ho.gen_ne ho.fresh ho.next_lt hopen hstage
      exact .plain hc hd (ho.sound_mergeContents hsucc C' hmem)
    | commit hd htmp =>
      exact .commit [(db.nextSstId, DB.cleanOf sz C.tables)]
        (ho.holds.built (Contents.loose_sstPath ho.gen_ne ho.fresh) hd) ho.sound (u64_lt _)
        (fun hR ↦ ho.gen_lt hsucc (hroom hR)) htmp
    | discard hf hd => exact hf.elim

theorem wp_run_tidy (h : Opened sz db d C) (op : Op) : (op.run sz).wp reliable (tidyWatch sz R)
    (fun _ db d ↦ ∃ C, Opened sz db d C) (fun _ _ _ ↦ False) db d := by
  have hkeeps := keeps_tidy sz R
  cases hr : op.record with
  | some r =>
    rw [run_of_record hr]
    refine hkeeps.wp_write h.wal (fun c m d' hc hg ↦ ?_) ⟨_, h.written r⟩
    obtain ⟨p, -, hd⟩ := DB.holds_of_growing h.holds h.wal_lt hg
    exact .plain hc hd (h.sound_growing p)
  | none =>
    cases op with
    | put k x => cases hr
    | del k => cases hr
    | flush => exact wp_mono (hkeeps.wp_flush ⟨C, h⟩) (fun _ _ _ h ↦ h.1) fun _ _ _ ↦ id
    | compact => exact hkeeps.wp_compact ⟨C, h⟩

theorem wp_recover_tidy (h : Holds sz d C) (hs : C.Sound) (opts : Options) :
    DB.recover.wp reliable (tidyWatch sz R) (fun _ db d ↦ ∃ C, Opened sz db d C) (fun _ _ _ ↦ False)
      { opts } d := by
  have hfirst : C.gen = none → C.tables = [] := fun hg ↦ (h.first hg).1
  have hsound := hs.reopening hfirst
  refine DB.wp_recover h hs.logs (fun ev hev ↦ ?_) fun d' hd' ↦
    ⟨_, opened_recovered hd' hs hfirst opts⟩
  cases hev with
  | plain hc hmem hd => exact .plain hc hd (hsound _ hmem)
  | commit hgen hd htmp =>
    refine .commit (g := 1) [] hd hs (by decide) ?_ htmp
    rw [hgen]
    exact fun _ ↦ Nat.zero_lt_one
  | replayed hr hd => exact .mark (by simp) hd (hsound _ (by simp [Contents.reopening]))

/-- A world whose directory is sound. -/
def World.Sound (sz : Sizing) : World → Prop
  | closed d => ∃ C, Holds sz d C ∧ C.Sound
  | opened db d => ∃ C, Opened sz db d C

theorem World.Sound.holds {w : World} (h : w.Sound sz) : ∃ C, Holds sz w.disk C ∧ C.Sound := by
  cases w with
  | closed d => exact h
  | opened db d =>
    obtain ⟨C, ho⟩ := h
    exact ⟨C, ho.holds, ho.sound⟩

/-- A crash loses no MANIFEST. -/
theorem sound_of_crashed {d' : Disk} (h : Holds sz d C) (hs : C.Sound) (hc : d.Crashed d') :
    (World.closed d').Sound sz ∧ genOf d' = genOf d := by
  obtain ⟨C', hC, hd⟩ := h.crashed hc
  exact ⟨⟨C', hd, hs.crashed hC⟩, by rw [hd.genOf, h.genOf, hC.gen]⟩

/-- **A run keeps the inventory**, however it ends. -/
theorem tidy_of_exec {p : Io DB Unit} {m : DB} {d : Disk} {tr : Trace}
    {o : Outcome DB Error Unit Disk} {Q : Unit → DB → Disk → Prop} (hx : Exec reliable p m d tr o)
    (hA : ∀ ev ∈ tr, (tidyWatch sz R).assume ev)
    (hwp : p.wp reliable (tidyWatch sz R) Q (fun _ _ _ ↦ False) m d)
    (hQ : ∀ m d, Q () m d → ∃ C, Holds sz d C ∧ C.Sound) :
    (∀ ev ∈ tr, Tidy sz R ev) ∧ o.Meets (tidyWatch sz R) Q (fun _ _ _ ↦ False) ∧
      (∃ C, Holds sz o.device C ∧ C.Sound) ∧
      Counts R (genOf d) (tr.filterMap committed) (genOf o.device) := by
  obtain ⟨htidy, ho⟩ := hx.of_wp hA hwp
  have hend : ∃ C, Holds sz o.device C ∧ C.Sound := by
    cases o with
    | ok a m d => exact hQ m d ho
    | threw e m d => exact ho.elim
    | cut d =>
      obtain ⟨c, m, hev⟩ := ho
      exact hev.holds
  obtain ⟨C, hC, hs⟩ := hend
  exact ⟨htidy, ho, ⟨C, hC, hs⟩, counts_of_chain hx.chain htidy hC.firm⟩

/-- **A step keeps the inventory.** -/
theorem World.Sound.step {w w' : World} {l : Label} {tr : Trace} (h : w.Sound sz)
    (hs : Step sz w l tr w') (hA : ∀ ev ∈ tr, (tidyWatch sz R).assume ev) :
    (∀ ev ∈ tr, Tidy sz R ev) ∧ w'.Sound sz ∧
      Counts R (genOf w.disk) (tr.filterMap committed) (genOf w'.disk) := by
  have hopened : ∀ m d, (∃ C, Opened sz m d C) → ∃ C, Holds sz d C ∧ C.Sound := fun m d ⟨C, ho⟩ ↦
    ⟨C, ho.holds, ho.sound⟩
  have hclosed : ∀ (m : DB) d, (∃ db, (∃ C, Opened sz db d C) ∧ db.memtable.empty = true) →
      ∃ C, Holds sz d C ∧ C.Sound := fun m d ⟨db, ho, _⟩ ↦ hopened db d ho
  cases hs with
  | opened hx =>
    obtain ⟨C, hd, hs⟩ := h
    obtain ⟨htidy, ho, -, hgen⟩ := tidy_of_exec hx hA (wp_recover_tidy hd hs _) hopened
    exact ⟨htidy, ho, hgen⟩
  | openThrew hx =>
    obtain ⟨C, hd, hs⟩ := h
    exact (tidy_of_exec hx hA (wp_recover_tidy hd hs _) hopened).2.1.elim
  | openCut hx hc =>
    obtain ⟨C, hd, hs⟩ := h
    obtain ⟨htidy, -, ⟨C', hd', hs'⟩, hgen⟩ := tidy_of_exec hx hA (wp_recover_tidy hd hs _) hopened
    obtain ⟨hsound, heq⟩ := sound_of_crashed hd' hs' hc
    exact ⟨htidy, hsound, heq ▸ hgen⟩
  | did hx =>
    obtain ⟨C, ho⟩ := h
    obtain ⟨htidy, ho, -, hgen⟩ := tidy_of_exec hx hA (wp_run_tidy ho _) hopened
    exact ⟨htidy, ho, hgen⟩
  | threw hx =>
    obtain ⟨C, ho⟩ := h
    exact (tidy_of_exec hx hA (wp_run_tidy ho _) hopened).2.1.elim
  | didCut hx hc =>
    obtain ⟨C, ho⟩ := h
    obtain ⟨htidy, -, ⟨C', hd', hs'⟩, hgen⟩ := tidy_of_exec hx hA (wp_run_tidy ho _) hopened
    obtain ⟨hsound, heq⟩ := sound_of_crashed hd' hs' hc
    exact ⟨htidy, hsound, heq ▸ hgen⟩
  | crashed hc =>
    obtain ⟨C, ho⟩ := h
    obtain ⟨hsound, heq⟩ := sound_of_crashed ho.holds ho.sound hc
    exact ⟨fun _ h ↦ absurd h List.not_mem_nil, hsound, heq ▸ .refl R _⟩
  | closed hx =>
    obtain ⟨htidy, -, hsound, hgen⟩ := tidy_of_exec hx hA ((keeps_tidy sz R).wp_close h) hclosed
    exact ⟨htidy, hsound, hgen⟩
  | closeCut hx hc =>
    obtain ⟨htidy, -, ⟨C', hd', hs'⟩, hgen⟩ :=
      tidy_of_exec hx hA ((keeps_tidy sz R).wp_close h) hclosed
    obtain ⟨hsound, heq⟩ := sound_of_crashed hd' hs' hc
    exact ⟨htidy, hsound, heq ▸ hgen⟩
  | closeThrew hx _ => exact (tidy_of_exec hx hA ((keeps_tidy sz R).wp_close h) hclosed).2.1.elim

theorem generations_append (hist : List (Label × Trace)) (l : Label) (tr : Trace) :
    generations (hist ++ [(l, tr)]) = generations hist ++ tr.filterMap committed := by
  simp [generations]

/-- **Every history keeps the inventory.** -/
theorem tidy_of_run {hist : List (Label × Trace)} {w : World} (hrun : Run sz (.closed ∅) hist w)
    (hA : ∀ s ∈ hist, ∀ ev ∈ s.2, (tidyWatch sz R).assume ev) :
    (∀ s ∈ hist, ∀ ev ∈ s.2, Tidy sz R ev) ∧ w.Sound sz ∧
      Counts R 0 (generations hist) (genOf w.disk) := by
  refine hrun.keeps (G := fun s ↦ ∀ ev ∈ s.2, (tidyWatch sz R).assume ev)
    (I := fun hist w ↦ (∀ s ∈ hist, ∀ ev ∈ s.2, Tidy sz R ev) ∧ w.Sound sz ∧
      Counts R 0 (generations hist) (genOf w.disk)) ?_ ?_ hA
  · refine ⟨fun _ h ↦ absurd h List.not_mem_nil, ⟨_, holds_empty sz, ?_⟩, ?_⟩
    · exact ⟨.nil, fun _ ht ↦ absurd ht List.not_mem_nil, fun _ hg ↦ (by cases hg),
        fun _ hid ↦ absurd rfl hid⟩
    · rw [World.disk, (holds_empty sz).genOf]
      exact .refl R 0
  · rintro hist w l tr w' ⟨htidy, hsound, hgen⟩ hs hA
    obtain ⟨htr, hsound', hgen'⟩ := hsound.step hs hA
    refine ⟨?_, hsound', generations_append hist l tr ▸ hgen.append hgen'⟩
    rw [List.forall_mem_append]
    exact ⟨htidy, List.forall_mem_singleton.2 htr⟩

/-- **The inventory is kept** when every table can be opened and its number does not wrap around;
and the generations rise as long as they do not wrap around. -/
theorem inventoryKept (sz : Sizing) :
    InventoryKept sz (fun entries db _ ↦ SSTable.Openable sz entries ∧ NoWrap db)
      fun _ db _ ↦ HasRoom db := by
  intro hist w hrun hhist
  let R : Prop := ∀ s ∈ hist, ∀ ev ∈ s.2, OnBuild (fun _ db _ ↦ HasRoom db) ev
  obtain ⟨htidy, hsound, hgen⟩ := tidy_of_run (R := R) hrun fun s hs ev hev path entries hcall ↦
    ⟨(hhist s hs ev hev path entries hcall).1, (hhist s hs ev hev path entries hcall).2,
      fun hroom ↦ hroom s hs ev hev path entries hcall⟩
  refine ⟨fun s hs ev hev ↦ ?_, ?_, ?_, fun hroom ↦ (List.pairwise_cons.1 (hgen.sorted hroom)).2⟩
  · obtain ⟨C, hd, hC⟩ := (htidy s hs ev hev).holds
    exact ⟨hd.inOrder hC, (htidy s hs ev hev).build⟩
  · obtain ⟨C, hd, hC⟩ := hsound.holds
    exact hd.inOrder hC
  · rintro db d rfl
    obtain ⟨C, ho⟩ := hsound
    exact ho.matches

end History

theorem hasRoom_taken {db : DB} (h : db.nextSstId + 2 < 2 ^ 64) : HasRoom (taken db) := by
  refine ⟨noWrap_taken (by omega), ?_⟩
  rw [taken, u64_of_lt (by omega)]
  omega

/-- Two flushes and a compaction. -/
theorem inventoryKept_compacted : ∃ hist d,
    Run .onePercent (.closed ∅) hist (.opened Snapshot.compacted.db d) ∧
    (∀ s ∈ hist, ∀ ev ∈ s.2, InOrder .onePercent ev.disk ∧ BuildsFresh ev) ∧
    Matches .onePercent Snapshot.compacted.db d ∧ (generations hist).Pairwise (· < ·) := by
  obtain ⟨⟨hist, d, hrun, hmeets, -⟩, -⟩ := Snapshot.reaches_compacted (fun _ ↦ True)
    (P := fun entries db _ ↦ SSTable.Openable .onePercent entries ∧ HasRoom db) trivial
    (fun _ _ ↦ trivial) fun s _ _ _ _ hopen hlt ↦ ⟨hopen, hasRoom_taken (by omega)⟩
  obtain ⟨hcalls, -, hmatches, hrises⟩ := inventoryKept .onePercent hist _ hrun
    fun s hs ev hev ↦ ((hmeets s hs).build ev hev).mono fun _ _ _ h ↦ ⟨h.1, h.2.1⟩
  exact ⟨hist, d, hrun, hcalls, hmatches _ _ rfl,
    hrises fun s hs ev hev ↦ ((hmeets s hs).build ev hev).mono fun _ _ _ ↦ And.right⟩

/-! ## A generation that wraps around -/

/-- The generation of an open store. -/
theorem Opened.genOf {sz : Sizing} {db : DB} {d : Disk} {C : Contents} (h : Opened sz db d C) :
    genOf d = u64 (db.nextSstId + 1) := by
  rw [h.holds.genOf, h.gen, Option.getD_some, h.sound.gen _ h.gen, h.next]

/-- **The generation can wrap around** before a number does: the table with the last number but one
is listed by a MANIFEST of generation 0. -/
theorem not_inventoryKept : ¬InventoryKept .onePercent
    (fun entries db _ ↦ SSTable.Openable .onePercent entries ∧ NoWrap db) fun _ _ _ ↦ True := by
  intro h
  -- all numbers up to the last but two have been taken
  obtain ⟨n, hn⟩ : ∃ n, n + 3 = 2 ^ 64 := ⟨2 ^ 64 - 3, by norm_num⟩
  obtain ⟨⟨hist, d, hrun, hmeets, ho⟩, hcounted⟩ := Snapshot.reaches_counted (fun _ ↦ True)
    (P := fun entries db _ ↦ SSTable.Openable .onePercent entries ∧ NoWrap db) trivial
    (fun _ _ ↦ trivial) (fun _ _ _ hopen hwrap ↦ ⟨hopen, hwrap⟩) n (by omega)
  have hnext := hcounted.next
  obtain ⟨-, hbytes, hnew, hne⟩ := hcounted.write
  generalize Snapshot.counted n = s at *
  have hnext' : (s.write Snapshot.other).db.nextSstId = n + 1 := hnext
  have hlt : (s.write Snapshot.other).db.nextSstId + 1 < 2 ^ 64 := by
    omega
  have hwrap : NoWrap (taken (s.write Snapshot.other).db) := noWrap_taken hlt
  -- one more write, and one more flush
  obtain ⟨tr₁, _, d₁, hx₁, htr₁, rfl, ho₁⟩ := exists_exec
    (P := fun entries db _ ↦ SSTable.Openable .onePercent entries ∧ NoWrap db)
    (Snapshot.wp_write (r := Snapshot.other) ho (.put [108] [49]) rfl hbytes)
  obtain ⟨tr₂, _, d₂, hx₂, htr₂, rfl, ho₂⟩ := exists_exec
    (P := fun entries db _ ↦ SSTable.Openable .onePercent entries ∧ NoWrap db)
    (Snapshot.wp_flush ho₁ hne hlt hnew ⟨hnew, hwrap⟩)
  have hmeets' := meets_snoc (meets_snoc hmeets (l := .did (.put [108] [49])) trivial htr₁)
    (l := .did .flush) trivial htr₂
  obtain ⟨-, -, -, hrises⟩ := h _ _ (.snoc (.snoc hrun (.did hx₁)) (.did hx₂))
    fun s hs ↦ (hmeets' s hs).build
  have hsorted := hrises fun _ _ _ _ _ _ _ ↦ trivial
  -- the generation was the greatest number, and is 0
  have hweak : ∀ {ev : Event (Call Mark) DB Disk},
      OnBuild (fun entries db _ ↦ SSTable.Openable .onePercent entries ∧ NoWrap db) ev →
        (tidyWatch .onePercent False).assume ev := fun hev path entries hcall ↦
    ⟨(hev path entries hcall).1, (hev path entries hcall).2, False.elim⟩
  obtain ⟨-, hsound, hgen⟩ := tidy_of_run (R := False) hrun fun s hs ev hev ↦
    hweak ((hmeets s hs).build ev hev)
  obtain ⟨-, hsound₁, hgen₁⟩ := hsound.step (.did hx₁) fun ev hev ↦ hweak (htr₁ ev hev)
  obtain ⟨-, -, hgen₂⟩ := hsound₁.step (.did hx₂) fun ev hev ↦ hweak (htr₂ ev hev)
  have hrest := hgen₁.append hgen₂
  rw [generations_append, generations_append, List.append_assoc] at hsorted
  generalize tr₁.filterMap committed ++ tr₂.filterMap committed = gs at hrest hsorted
  have hfirst : genOf d = n + 2 := by
    rw [ho.genOf, hnext, u64_of_lt (by omega)]
  have hzero : genOf d₂ = 0 := by
    have hnext₂ : (Snapshot.flush .onePercent (s.write Snapshot.other)).db.nextSstId =
        u64 ((s.write Snapshot.other).db.nextSstId + 1) := rfl
    rw [ho₂.genOf, hnext₂, u64_of_lt hlt, hnext', hn, u64, Nat.mod_self]
  have hmem : genOf d ∈ generations hist := hgen.mem_of_ne (by rw [World.disk, hfirst]; omega)
  have hmem₂ : genOf d₂ ∈ gs :=
    hrest.mem_of_ne (by rw [World.disk, World.disk, hfirst, hzero]; omega)
  have hlt := (List.pairwise_append.1 hsorted).2.2 _ hmem _ hmem₂
  rw [hzero] at hlt
  exact absurd hlt (Nat.not_lt_zero _)

end KeyValStore
