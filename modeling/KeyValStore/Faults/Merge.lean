import KeyValStore.Faults.Reads

/-!
# A merge that cannot read its tables

`scan_all` reports a failure only by returning fewer entries, and `compact_locked` commits what was
merged and removes the tables all the same.  `compactsSafely_iff` says when nothing is lost: when no
table with entries in it can fail to be read.
-/

set_option autoImplicit false

namespace KeyValStore

open Crash Std
open DB (sstPath tables Stored)

/-! ## Scans that may fail -/

section Scans

variable {F : Faults Mark} {E : Error → DB → Disk → Prop} {db : DB} {d : Disk} {sz : Sizing}

/-- **A scan that may fail** returns the first entries. -/
theorem SSTable.wp_scanAll_failing (F : Faults Mark) (db : DB) {path : Name} {entries : Entries}
    (h : SSTable.Fits sz entries)
    (hd : (d[path]?).map File.content = some (SSTable.image sz entries)) :
    ((SSTable.loaded sz path entries).scanAll : Io DB _).wp (device F) .blind
      (fun es db' d' ↦ db' = db ∧ d' = d ∧ es <+: entries.scanned ∧
        (¬CanFail F path → es = entries.scanned)) E db d := by
  have hall : SSTable.scanEntries (SSTable.bloomStart entries) 0 (SSTable.image sz entries) =
      entries.scanned := Entries.readBack_eq sz h.shortEntry
  refine (wp_bind _ _).2 ⟨trivial, fun _ r d' hs ↦ ?_⟩
  obtain ⟨rfl, rfl | ⟨hf, rfl⟩ | ⟨hf, x, bs, hx, ⟨u, hu⟩, rfl⟩⟩ := hs
  · have hpath : (SSTable.loaded sz path entries).path = path := rfl
    rw [hpath, hd]
    exact ⟨rfl, rfl, hall ▸ List.prefix_rfl, fun _ ↦ hall⟩
  · exact ⟨rfl, rfl, List.nil_prefix, fun hok ↦ absurd (.inl hf) hok⟩
  · have hx' : d'[path]? = some x := hx
    rw [hx', Option.map_some, Option.some_inj] at hd
    have hpre := SSTable.scanEntries_prefix (SSTable.bloomStart entries) bs u 0
    rw [hu, hd, hall] at hpre
    exact ⟨rfl, rfl, hpre, fun hok ↦ absurd (.inr hf) hok⟩

/-- A scan can go well. -/
theorem SSTable.exec_scanAll (F : Faults Mark) (db : DB) {path : Name} {entries : Entries}
    (h : SSTable.Fits sz entries)
    (hd : (d[path]?).map File.content = some (SSTable.image sz entries)) :
    ∃ tr, Exec (device F) ((SSTable.loaded sz path entries).scanAll : Io DB _) db d tr
      (.ok entries.scanned db d) := by
  have hwp := SSTable.wp_scanAll_failing (E := fun _ _ _ ↦ False) .none db h hd
  obtain ⟨tr, es, _, _, hx, -, rfl, rfl, -, hes⟩ := Exec.exists_ok (device_total .none)
    (fun _ ↦ trivial) hwp
  obtain rfl := hes fun hf ↦ hf.elim id id
  exact ⟨tr, hx.mono fun _ _ _ _ ↦ step_of_none F⟩

/-- **A scan can return nothing** when the file can fail to be read. -/
theorem SSTable.exec_scanAll_failing (db : DB) {t : SSTable} (hF : CanFail F t.path)
    (hd : d[t.path]? ≠ none) :
    ∃ tr, Exec (device F) (t.scanAll : Io DB _) db d tr (.ok [] db d) := by
  obtain ⟨x, hx⟩ := Option.ne_none_iff_exists'.1 hd
  rcases hF with hf | hf
  · exact ⟨[_], .call (r := none) ⟨rfl, .inr (.inl ⟨hf, rfl⟩)⟩ .pure⟩
  · refine ⟨[_], .call (r := some []) ⟨rfl, .inr (.inr ⟨hf, x, [], hx, List.nil_prefix, rfl⟩)⟩ ?_⟩
    have hnil : SSTable.scanEntries t.bloomOffset 0 [] = [] := by
      by_cases h : 0 < t.bloomOffset
      · exact SSTable.scanEntries_of_none rfl
      · exact SSTable.scanEntries_of_ge [] (Nat.le_of_not_lt h)
    show Exec (device F) (Prog.pure (SSTable.scanEntries _ 0 [])) db d [] _
    rw [hnil]
    exact .pure

/-- The scans of some tables and what they return. -/
def Scans (F : Faults Mark) (db : DB) (d : Disk) (ts : List SSTable) (ess : List (List SSTEntry)) :
    Prop :=
  List.Forall₂ (fun t es ↦ ∃ tr, Exec (device F) (t.scanAll : Io DB _) db d tr (.ok es db d)) ts ess

/-- **The merge loop** puts together what the scans return. -/
theorem exec_mergeTables_iff {ts : List SSTable} {merged r : Entries} {db' : DB} {d' : Disk} :
    (∃ tr, Exec (device F) (DB.mergeTables ts merged) db d tr (.ok r db' d')) ↔
      db' = db ∧ d' = d ∧ ∃ ess, Scans F db d ts ess ∧ r = ess.foldl DB.mergeInto merged := by
  induction ts generalizing merged with
  | nil =>
    constructor
    · rintro ⟨tr, hx⟩
      cases hx
      exact ⟨rfl, rfl, [], .nil, rfl⟩
    · rintro ⟨rfl, rfl, ess, hs, rfl⟩
      cases hs
      exact ⟨[], .pure⟩
  | cons t ts ih =>
    rw [DB.mergeTables]
    constructor
    · rintro ⟨tr, hx⟩
      obtain ⟨tr₁, tr₂, es, db₁, d₁, rfl, hscan, hrest⟩ := hx.of_bind
      obtain ⟨rfl, rfl⟩ : db₁ = db ∧ d₁ = d := by
        have hwp : (t.scanAll : Io DB _).wp (device F) .blind (fun _ db' d' ↦ db' = db ∧ d' = d)
            (fun _ _ _ ↦ True) db d := by
          refine (wp_bind _ _).2 ⟨trivial, fun _ r d' hs ↦ ?_⟩
          obtain ⟨rfl, -⟩ := hs
          cases r <;> exact ⟨rfl, rfl⟩
        exact (hscan.of_wp (fun _ _ ↦ trivial) hwp).2
      obtain ⟨rfl, rfl, ess, hs, rfl⟩ := ih.1 ⟨tr₂, hrest⟩
      exact ⟨rfl, rfl, es :: ess, .cons ⟨tr₁, hscan⟩ hs, rfl⟩
    · rintro ⟨rfl, rfl, ess, hs, rfl⟩
      cases hs with
      | cons hscan hs =>
        obtain ⟨tr₁, hscan⟩ := hscan
        obtain ⟨tr₂, hrest⟩ := ih.2 ⟨rfl, rfl, _, hs, rfl⟩
        exact ⟨tr₁ ++ tr₂, hscan.bind hrest⟩

end Scans

/-! ## A compaction with such scans -/

/-- **A compaction in which the scans of the tables may fail**; everything else goes well.  It
flushes to the state `db₁`, `d₁`, and `ess` is what the scans return. -/
structure Compaction (F : Faults Mark) (sz : Sizing) (db : DB) (d : Disk)
    (ess : List (List SSTEntry)) (db₁ : DB) (d₁ : Disk) (db' : DB) (d' : Disk) : Prop where
  /-- There are at least two tables. -/
  many : ¬db.sstables.length < 2
  /-- The flush. -/
  flush : ∃ tr, Exec reliable (DB.flushMemtableLocked sz) db d tr (.ok () db₁ d₁)
  /-- The scans, of the oldest table first. -/
  scans : Scans F db₁ d₁ db₁.sstables.reverse ess
  /-- What is done with the merged entries. -/
  rest : ∃ tr, Exec reliable (DB.mergeRest sz (ess.foldl DB.mergeInto ∅)) db₁ d₁ tr (.ok () db' d')

/-- Where no scan fails it is what `compact_locked` does. -/
theorem exec_compactLocked_iff {sz : Sizing} {db db' : DB} {d d' : Disk}
    (hlen : ¬db.sstables.length < 2) :
    (∃ tr, Exec reliable (DB.compactLocked sz) db d tr (.ok () db' d')) ↔
      ∃ ess db₁ d₁, Compaction .none sz db d ess db₁ d₁ db' d' := by
  have heq : DB.compactLocked sz = Prog.get fun db ↦ if db.sstables.length < 2 then pure ()
      else DB.flushMemtableLocked sz >>= fun _ ↦ DB.merge sz := rfl
  have hmerge : DB.merge sz = Prog.get fun db ↦
      DB.mergeTables db.sstables.reverse ∅ >>= fun merged ↦
      DB.mergeRest sz merged := rfl
  rw [heq]
  constructor
  · rintro ⟨tr, hx⟩
    cases hx with
    | get hx =>
      simp only [if_neg hlen] at hx
      obtain ⟨tr₁, tr₂, _, db₁, d₁, rfl, hflush, hx⟩ := hx.of_bind
      rw [hmerge] at hx
      cases hx with
      | get hx =>
        obtain ⟨tr₃, tr₄, merged, db₂, d₂, rfl, hscan, hrest⟩ := hx.of_bind
        obtain ⟨rfl, rfl, ess, hs, rfl⟩ := exec_mergeTables_iff.1 ⟨tr₃, hscan⟩
        exact ⟨ess, db₂, d₂, hlen, ⟨tr₁, hflush⟩, hs, tr₄, hrest⟩
  · rintro ⟨ess, db₁, d₁, -, ⟨tr₁, hflush⟩, hs, tr₃, hrest⟩
    obtain ⟨tr₂, hscan⟩ := exec_mergeTables_iff.2 ⟨rfl, rfl, ess, hs, rfl⟩
    refine ⟨tr₁ ++ (tr₂ ++ tr₃), .get ?_⟩
    simp only [if_neg hlen]
    refine hflush.bind ?_
    rw [hmerge]
    exact .get (hscan.bind hrest)

/-- All entries of all tables take part in the merge. -/
def TookPart (ts : List (ℕ × Entries)) (ess : List (List SSTEntry)) : Prop :=
  ess = ts.reverse.map fun t ↦ t.2.scanned

/-- The MANIFEST and the files of the tables are as they were. -/
def InPlace (ts : List (ℕ × Entries)) (d d' : Disk) : Prop :=
  d'[Manifest.dest]? = d[Manifest.dest]? ∧ ∀ t ∈ ts, d'[sstPath t.1]? = d[sstPath t.1]?

/-- **What a compaction should do** when scans fail: either nothing was missing in the merge, or the
MANIFEST and the tables stay, and once the files can be read again every `get` answers what it did
before. -/
def CompactsSafely (F : Faults Mark) (sz : Sizing) (db : DB) (d : Disk) (ts : List (ℕ × Entries)) :
    Prop :=
  ∀ ess db₁ d₁ db' d', Compaction F sz db d ess db₁ d₁ db' d' →
    (TookPart (inputs db ts) ess ∨ InPlace (inputs db ts) d₁ d') ∧
      ∃ v, Answers db d v ∧ Answers db' d' v

section Compact

variable {F : Faults Mark} {sz : Sizing} {db : DB} {d : Disk} {ts : List (ℕ × Entries)}

/-- What is seen does not change when the MemTable becomes a table. -/
theorem shown_inputs (db : DB) (ts : List (ℕ × Entries)) :
    DB.shown ∅ (inputs db ts) = DB.shown db.memtable.data ts := by
  rw [inputs]
  split
  · rename_i he
    rw [MemTable.empty, ExtTreeMap.isEmpty_iff] at he
    rw [he]
  · exact shown_flush _ _ _

/-- What is left after the merged entries have been dealt with. -/
theorem wp_mergeRest_clean {merged clean : Entries} (h : Layered sz db d ts)
    (hne : ∀ t ∈ ts, t.1 ≠ db.nextSstId) (hclean : (merged.filter fun _ e ↦ !e.tombstone) = clean)
    (hopen : SSTable.Openable sz clean) :
    (DB.mergeRest sz merged).wp reliable .blind
      (fun _ db' d' ↦ db'.sstables = tables sz [(db.nextSstId, clean)] ∧
        Stored sz d' [(db.nextSstId, clean)] ∧ db'.memtable = db.memtable ∧
        ∀ t ∈ ts, d'[sstPath t.1]? = none) (fun _ _ _ ↦ False) db d := by
  refine DB.wp_mergeRest throwing_none h.tables hclean rfl rfl rfl trivial fun _ ↦ ?_
  refine ⟨hopen, fun _ _ _ _ _ ↦ trivial, fun _ _ _ _ _ ↦ trivial, fun _ _ _ ↦ trivial,
    fun _ _ _ ↦ trivial, fun _ _ _ _ _ _ _ ↦ trivial, id, fun _ ↦ id, fun _ _ _ hf ↦ ?_, rfl,
    DB.Stored.replaced hne hopen d _, rfl, fun t ht ↦ ?_⟩
  · exact absurd hf (by rintro (hf | ⟨_, hf⟩ | hf) <;> exact hf)
  · rw [getElem?_eraseAll, if_pos (List.mem_map_of_mem ht)]

/-- What the scans of built tables return. -/
theorem Scans.prefixes {ess : List (List SSTEntry)} (hts : Stored sz d ts)
    (hshort : ∀ t ∈ ts, t.2.IsShort) (h : Scans F db d (tables sz ts) ess) :
    List.Forall₂ (fun t es ↦ es <+: t.2.scanned ∧ (¬TableFails F t → es = t.2.scanned)) ts ess := by
  induction ts generalizing ess with
  | nil =>
    cases h
    exact .nil
  | cons t ts ih =>
    rw [List.forall_mem_cons] at hshort
    obtain ⟨⟨hopen, hfile⟩, hts⟩ := List.forall_mem_cons.1 hts
    cases h with
    | cons hscan hs =>
      obtain ⟨tr, hx⟩ := hscan
      have hwp :=
        SSTable.wp_scanAll_failing (E := fun _ _ _ ↦ True) F db (hopen.fits hshort.1) hfile
      obtain ⟨-, -, hes⟩ := (hx.of_wp (fun _ _ ↦ trivial) hwp).2
      exact .cons hes (ih hts hshort.2 hs)

/-- All tables that can fail to be read may be read as empty. -/
theorem exists_scans (F : Faults Mark) (db : DB) (hts : Stored sz d ts)
    (hshort : ∀ t ∈ ts, t.2.IsShort) : ∃ ess, Scans F db d (tables sz ts) ess ∧
      List.Forall₂ (fun t es ↦ TableFails F t → es = []) ts ess := by
  induction ts with
  | nil => exact ⟨[], .nil, .nil⟩
  | cons t ts ih =>
    rw [List.forall_mem_cons] at hshort
    obtain ⟨⟨hopen, hfile⟩, hts⟩ := List.forall_mem_cons.1 hts
    obtain ⟨ess, hs, hnil⟩ := ih hts hshort.2
    by_cases hf : TableFails F t
    · obtain ⟨x, hx, -⟩ := Option.map_eq_some_iff.1 hfile
      have hscan := SSTable.exec_scanAll_failing (t := .loaded sz (sstPath t.1) t.2) db hf
        (Option.ne_none_iff_exists'.2 ⟨x, hx⟩)
      exact ⟨[] :: ess, .cons hscan hs, .cons (fun _ ↦ rfl) hnil⟩
    · have hscan := SSTable.exec_scanAll F db (hopen.fits hshort.1) hfile
      exact ⟨_ :: ess, .cons hscan hs, .cons (fun hf' ↦ absurd hf' hf) hnil⟩

/-- Entries of the tables that are read, merged. -/
theorem size_foldl_mergeInto_le (ess : List (List SSTEntry)) (merged : Entries) :
    (ess.foldl DB.mergeInto merged).size ≤ merged.size + (ess.map List.length).sum := by
  have hinto : ∀ (es : List SSTEntry) (merged : Entries),
      (DB.mergeInto merged es).size ≤ merged.size + es.length := by
    intro es
    induction es with
    | nil => exact fun _ ↦ Nat.le_refl _
    | cons e es ih =>
      intro merged
      have hone : (merged.insert e.key ⟨e.value, e.tombstone⟩).size ≤ merged.size + 1 :=
        ExtTreeMap.size_insert_le
      have hrest := ih (merged.insert e.key ⟨e.value, e.tombstone⟩)
      rw [List.length_cons]
      exact hrest.trans (by omega)
  induction ess generalizing merged with
  | nil => exact Nat.le_refl _
  | cons es ess ih =>
    rw [List.foldl_cons, List.map_cons, List.sum_cons]
    exact (ih _).trans (by have := hinto es merged; omega)

/-- No more is read than there is. -/
theorem sum_length_le {ess : List (List SSTEntry)}
    (h : List.Forall₂ (fun t es ↦ es <+: Entries.scanned t.2) ts ess) :
    (ess.map List.length).sum ≤ (ts.map (·.2.size)).sum := by
  induction h with
  | nil => exact Nat.le_refl _
  | @cons t es ts ess hpre _ ih =>
    have hlen := hpre.length_le
    rw [Entries.scanned, List.length_map, ExtTreeMap.length_toList] at hlen
    simp only [List.map_cons, List.sum_cons]
    omega

theorem isShort_foldl_mergeInto {ess : List (List SSTEntry)} {merged : Entries}
    (hm : merged.IsShort) (hshort : ∀ t ∈ ts, t.2.IsShort)
    (h : List.Forall₂ (fun t es ↦ es <+: Entries.scanned t.2) ts ess) :
    (ess.foldl DB.mergeInto merged).IsShort := by
  induction h generalizing merged with
  | nil => exact hm
  | @cons t es ts ess hpre _ ih =>
    rw [List.forall_mem_cons] at hshort
    refine ih (DB.isShort_mergeInto hm fun e he ↦ ?_) hshort.2
    obtain ⟨⟨key, m⟩, hmem, rfl⟩ := List.mem_map.1 (hpre.subset he)
    exact hshort.1 key m (ExtTreeMap.mem_toList_iff_getElem?_eq_some.1 hmem)

/-- The merge of everything. -/
theorem foldl_mergeInto_eq_mergeAll (sz : Sizing) {ess : List (List SSTEntry)}
    (hshort : ∀ t ∈ ts, t.2.IsShort) (h : TookPart ts ess) :
    ess.foldl DB.mergeInto ∅ = DB.mergeAll sz ts := by
  have hread : (ts.reverse.map fun t ↦ t.2.scanned) = ts.reverse.map fun t ↦ t.2.readBack sz := by
    refine List.map_congr_left fun t ht ↦ ?_
    have hshort' := hshort t (List.mem_reverse.1 ht)
    exact (Entries.readBack_eq sz fun e he ↦
      hshort' e.1 e.2 (ExtTreeMap.mem_toList_iff_getElem?_eq_some.1 he)).symm
  rw [h, hread, DB.mergeAll, List.foldl_map]

/-- The Bloom filter of a table with at most the entries of the given ones fits. -/
def BloomsFit (sz : Sizing) (ts : List (ℕ × Entries)) : Prop :=
  ∀ n ≤ (ts.map (·.2.size)).sum, sz.ceilBits n ≤ 2 ^ 31

/-- Whatever is read, a table of it can be built and opened. -/
theorem openable_of_prefixes {ess : List (List SSTEntry)} (hbloom : BloomsFit sz ts)
    (hshort : ∀ t ∈ ts, t.2.IsShort)
    (h : List.Forall₂ (fun t es ↦ es <+: Entries.scanned t.2) ts.reverse ess) :
    SSTable.Openable sz ((ess.foldl DB.mergeInto ∅).filter fun _ e ↦ !e.tombstone) := by
  have hmerged := isShort_foldl_mergeInto Entries.isShort_empty
    (fun t ht ↦ hshort t (List.mem_reverse.1 ht)) h
  refine (SSTable.Fits.mk (hmerged.filter _) (hbloom _ ?_)).openable
  have hread := sum_length_le h
  rw [List.map_reverse, List.sum_reverse] at hread
  refine ExtTreeMap.size_filter_le_size.trans ((size_foldl_mergeInto_le ess ∅).trans ?_)
  rwa [ExtTreeMap.size_empty, Nat.zero_add]

theorem Layered.reverse_eq (h : Layered sz db d ts) :
    db.sstables.reverse = DB.tables sz ts.reverse := by
  rw [h.tables, DB.tables, DB.tables, List.map_reverse]

/-- The flush of a compaction under such bounds. -/
theorem wp_flush_of_bloomsFit (h : Layered sz db d ts)
    (hfree : ∀ t ∈ ts, t.1 ≠ db.nextSstId ∧
      (db.memtable.empty = false → t.1 ≠ u64 (db.nextSstId + 1)))
    (hbloom : BloomsFit sz (inputs db ts)) : (DB.flushMemtableLocked sz).wp reliable .blind
      (fun _ db₁ d₁ ↦ Layered sz db₁ d₁ (inputs db ts) ∧ db₁.memtable.empty = true ∧
        ∀ t ∈ inputs db ts, t.1 ≠ db₁.nextSstId) (fun _ _ _ ↦ False) db d := by
  refine wp_flush_inputs (A := fun _ ↦ True) h hfree fun he _ ↦ hbloom _ ?_
  rw [inputs, he]
  simp

/-- **What cannot be read is lost.** -/
theorem eq_empty_of_compactsSafely (h : Layered sz db d ts) (hlen : 2 ≤ ts.length)
    (hfree : ∀ t ∈ ts, t.1 ≠ db.nextSstId ∧
      (db.memtable.empty = false → t.1 ≠ u64 (db.nextSstId + 1)))
    (hbloom : BloomsFit sz (inputs db ts)) (hsafe : CompactsSafely F sz db d ts)
    {t : ℕ × Entries} (ht : t ∈ inputs db ts) (hf : TableFails F t) : t.2 = ∅ := by
  obtain ⟨tr, _, db₁, d₁, hx, -, h₁, -, hne⟩ := Exec.exists_ok (device_total .none)
    (fun _ ↦ trivial) (wp_flush_of_bloomsFit h hfree hbloom)
  have hstored : Stored sz d₁ (inputs db ts).reverse :=
    fun t ht ↦ h₁.stored t (List.mem_reverse.1 ht)
  have hshort : ∀ t ∈ (inputs db ts).reverse, t.2.IsShort := fun t ht ↦
    h₁.short t (List.mem_reverse.1 ht)
  obtain ⟨ess, hs, hnil⟩ := exists_scans F db₁ hstored hshort
  have hopen :=
    openable_of_prefixes hbloom h₁.short ((hs.prefixes hstored hshort).imp fun _ _ h ↦ h.1)
  obtain ⟨tr', _, db', d', hx', -, -, -, -, hgone⟩ := Exec.exists_ok (device_total .none)
    (fun _ ↦ trivial) (wp_mergeRest_clean h₁ hne rfl hopen)
  have hmany : ¬db.sstables.length < 2 := by
    rw [h.tables, DB.length_tables]
    exact hlen.not_gt
  obtain ⟨htook | ⟨-, hfiles⟩, -⟩ := hsafe ess db₁ d₁ db' d'
    ⟨hmany, ⟨tr, hx⟩, h₁.reverse_eq ▸ hs, ⟨tr', hx'⟩⟩
  · -- the table was read as empty, and all its entries were read
    rw [htook, List.forall₂_map_right_iff, List.forall₂_same] at hnil
    have hscanned := hnil t (List.mem_reverse.2 ht) hf
    rwa [Entries.scanned, List.map_eq_nil_iff, ExtTreeMap.toList_eq_nil_iff] at hscanned
  · -- its file is gone
    have hfile := (h₁.stored t ht).2
    rw [← hfiles t ht, hgone t ht] at hfile
    cases hfile

/-- **When compacting unreadable tables destroys data.**  A compaction is safe if and only if no
table with entries in it can fail to be read. -/
theorem compactsSafely_iff (F : Faults Mark) (h : Layered sz db d ts) (hlen : 2 ≤ ts.length)
    (hfree : ∀ t ∈ ts, t.1 ≠ db.nextSstId ∧
      (db.memtable.empty = false → t.1 ≠ u64 (db.nextSstId + 1)))
    (hbloom : BloomsFit sz (inputs db ts)) :
    CompactsSafely F sz db d ts ↔ ∀ t ∈ inputs db ts, TableFails F t → t.2 = ∅ := by
  refine ⟨fun hsafe t ht hf ↦ eq_empty_of_compactsSafely h hlen hfree hbloom hsafe ht hf, ?_⟩
  rintro hall ess db₁ d₁ db' d' ⟨-, ⟨tr, hx⟩, hs, tr', hx'⟩
  obtain ⟨h₁, he, hne⟩ := (hx.of_wp (fun _ _ ↦ trivial) (wp_flush_of_bloomsFit h hfree hbloom)).2
  rw [h₁.reverse_eq] at hs
  have hpre := hs.prefixes (fun t ht ↦ h₁.stored t (List.mem_reverse.1 ht))
    fun t ht ↦ h₁.short t (List.mem_reverse.1 ht)
  have htook : TookPart (inputs db ts) ess := by
    have hboth := (List.forall₂_and_left _ _).2 ⟨fun t ht ↦ hall t (List.mem_reverse.1 ht), hpre⟩
    have heq : List.Forall₂ (· = ·) ((inputs db ts).reverse.map fun t ↦ t.2.scanned) ess := by
      refine List.forall₂_map_left_iff.2 (hboth.imp fun t es ⟨hempty, hes, hread⟩ ↦ ?_)
      by_cases hf : TableFails F t
      · have hscanned : t.2.scanned = [] := by
          rw [Entries.scanned, hempty hf, List.map_eq_nil_iff, ExtTreeMap.toList_eq_nil_iff]
        rw [hscanned, List.prefix_nil] at hes
        exact hscanned.trans hes.symm
      · exact (hread hf).symm
    rw [List.forall₂_eq_eq_eq] at heq
    exact heq.symm
  refine ⟨.inl htook, DB.shown db.memtable.data ts, answers_shown h.tables h.stored h.short, ?_⟩
  have hopen := openable_of_prefixes hbloom h₁.short (hpre.imp fun _ _ h ↦ h.1)
  rw [foldl_mergeInto_eq_mergeAll sz h₁.short htook] at hx' hopen
  obtain ⟨hdb, hstored, hmem, -⟩ := (hx'.of_wp (fun _ _ ↦ trivial)
    (wp_mergeRest_clean h₁ hne (show _ = DB.cleanOf sz (inputs db ts) from rfl) hopen)).2
  have hanswers := answers_shown hdb hstored
    (List.forall_mem_singleton.2 (DB.isShort_cleanOf sz (inputs db ts)))
  rw [MemTable.empty, ExtTreeMap.isEmpty_iff] at he
  rwa [hmem, he, shown_merge sz _ _ h₁.short, shown_inputs] at hanswers

end Compact

theorem bloomsFit_twoTables {newer : Entries} (h : newer.size ≤ 1) :
    BloomsFit .onePercent (inputs (twoStore newer) (twoTables newer)) := by
  intro n hn
  have hsingle : SSTable.single.size = 1 := rfl
  have htwo : n ≤ newer.size + (SSTable.single.size + 0) := hn
  show (9585058378 * n + 999999999) / 1000000000 ≤ 2 ^ 31
  omega

theorem free_twoTables (newer : Entries) : ∀ t ∈ twoTables newer, t.1 ≠ (twoStore newer).nextSstId ∧
    ((twoStore newer).memtable.empty = false → t.1 ≠ u64 ((twoStore newer).nextSstId + 1)) := by
  simp [twoTables, twoStore, u64]

theorem fits_empty : SSTable.Fits .onePercent ∅ := ⟨Entries.isShort_empty, by decide⟩

/-- The table that cannot be opened has no entries. -/
theorem compactsSafely_newerFails : TableFails newerFails (1, ∅) ∧
    CompactsSafely newerFails .onePercent (twoStore ∅) (twoFiles ∅) (twoTables ∅) := by
  refine ⟨.inl rfl, (compactsSafely_iff newerFails (layered_twoTables fits_empty) (by decide)
    (free_twoTables ∅) (bloomsFit_twoTables (Nat.zero_le 1))).2 ?_⟩
  refine List.forall_mem_cons.2 ⟨fun _ ↦ rfl, List.forall_mem_singleton.2 fun hf ↦ ?_⟩
  exact absurd hf not_tableFails_older

/-- **A compaction destroys data** while the newer table cannot be opened. -/
theorem not_compactsSafely_newerFails : ¬CompactsSafely newerFails .onePercent
    (twoStore SSTable.single) (twoFiles SSTable.single) (twoTables SSTable.single) := by
  intro hsafe
  have hmem : (1, SSTable.single) ∈ inputs (twoStore SSTable.single) (twoTables SSTable.single) :=
    List.mem_cons_self
  have hempty := eq_empty_of_compactsSafely (layered_twoTables SSTable.fits_single) (by decide)
    (free_twoTables _) (bloomsFit_twoTables le_rfl) hsafe hmem (.inl rfl)
  exact ExtTreeMap.insert_ne_empty hempty

end KeyValStore
