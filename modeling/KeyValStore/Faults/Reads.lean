import KeyValStore.History.Newest

/-!
# Reads that fail

A table file may fail to open, or a read of it may come up short.  `lookup` answers in both cases as
if the key were not in the table, and `scan_all` returns the entries before the failure.  So a `get`
goes on to an older table; `getsNewest_iff` says when its answer is right all the same.
-/

set_option autoImplicit false

namespace KeyValStore

open Crash Std
open DB (sstPath tables Stored)

/-! ## A file that ends too early -/

namespace SSTable

theorem readEntry_append {s t : Bytes} {e : Bytes × UInt8 × Bytes} (h : readEntry s = some (e, t))
    (u : Bytes) : readEntry (s ++ u) = some (e, t ++ u) :=
  entryCodec.run_append h u

theorem scanFor_of_none {off pos : ℕ} {key s : Bytes} (h : readEntry s = none) :
    scanFor off key pos s = .notFound := by
  rw [scanFor]
  split
  · split
    · rfl
    · rename_i hsome
      rw [h] at hsome
      simp at hsome
  · rfl

/-- **A lookup in the beginning of a file** finds what it finds in the file, or nothing. -/
theorem scanFor_prefix (off : ℕ) (key s u : Bytes) (pos : ℕ) :
    scanFor off key pos s = scanFor off key pos (s ++ u) ∨ scanFor off key pos s = .notFound := by
  induction hn : s.length using Nat.strong_induction_on generalizing s pos with
  | _ n ih =>
    by_cases hpos : pos < off
    · cases hr : readEntry s with
      | none => exact .inr (scanFor_of_none hr)
      | some p =>
        obtain ⟨⟨k, flags, v⟩, t⟩ := p
        have hstep : (s ++ u).length - (t ++ u).length = s.length - t.length := by
          rw [List.length_append, List.length_append, Nat.add_sub_add_right]
        rw [scanFor_of_some hpos hr, scanFor_of_some hpos (readEntry_append hr u), hstep]
        split
        · exact .inl rfl
        split
        · exact .inl rfl
        · exact ih _ (hn ▸ readEntry_consumes hr) t _ rfl
    · rw [scanFor_of_ge s (Nat.le_of_not_lt hpos)]
      exact .inr rfl

/-- **A scan of the beginning of a file** returns the first entries. -/
theorem scanEntries_prefix (off : ℕ) (s u : Bytes) (pos : ℕ) :
    scanEntries off pos s <+: scanEntries off pos (s ++ u) := by
  induction hn : s.length using Nat.strong_induction_on generalizing s pos with
  | _ n ih =>
    by_cases hpos : pos < off
    · cases hr : readEntry s with
      | none =>
        rw [scanEntries_of_none hr]
        exact List.nil_prefix
      | some p =>
        obtain ⟨⟨k, flags, v⟩, t⟩ := p
        have hstep : (s ++ u).length - (t ++ u).length = s.length - t.length := by
          rw [List.length_append, List.length_append, Nat.add_sub_add_right]
        rw [scanEntries_of_some hpos hr, scanEntries_of_some hpos (readEntry_append hr u), hstep]
        exact List.cons_prefix_cons.2 ⟨rfl, ih _ (hn ▸ readEntry_consumes hr) t _ rfl⟩
    · rw [scanEntries_of_ge s (Nat.le_of_not_lt hpos)]
      exact List.nil_prefix

end SSTable

/-! ## Lookups -/

/-- Reading the file can go wrong. -/
def CanFail (F : Faults Mark) (path : Name) : Prop :=
  F.refuse (.readFile path) ∨ F.short (.readFile path)

namespace SSTable

section Lookup

variable {F : Faults Mark} {μ : Type} {W : Watch (Call Mark) μ Disk} {E : Error → μ → Disk → Prop}
  {m : μ} {d : Disk} {sz : Sizing} {path : Name} {entries : Entries} {key : Bytes}

/-- **A lookup that may fail** answers what the map says, or that the key is not there. -/
theorem wp_lookup_failing {Q : LookupResult → μ → Disk → Prop} (h : Fits sz entries)
    (hd : (d[path]?).map File.content = some (image sz entries))
    (hw : W.always ⟨.readFile path, m, d⟩) (hok : Q (entries.answer key) m d)
    (hfail : CanFail F path → Q .notFound m d) :
    ((tableOf sz path entries).lookup key : Io μ _).wp (device F) W Q E m d := by
  rw [lookup, wp_ite]
  split
  · rename_i hb
    rw [Bool.not_eq_true'] at hb
    rw [answer_of_not_mayContain hb] at hok
    exact hok
  rw [wp_ite]
  split
  · rename_i hi
    rw [answer_of_index_isEmpty hi] at hok
    exact hok
  cases hsp : (tableOf sz path entries).seekPoint key with
  | none =>
    rw [answer_of_seekPoint_eq_none hsp] at hok
    exact hok
  | some ip =>
    obtain ⟨hoff, hscan⟩ := h.scanFor_seekPoint hsp
    refine (wp_bind _ _).2 ⟨hw, fun _ r d' hs ↦ ?_⟩
    obtain ⟨rfl, rfl | ⟨hf, rfl⟩ | ⟨hf, x, bs, hx, hbs, rfl⟩⟩ := hs
    · rw [show (tableOf sz path entries).path = path from rfl, hd]
      simp only [hoff, if_true]
      rw [← hscan] at hok
      exact hok
    · exact hfail (.inl hf)
    · have hx' : d'[path]? = some x := hx
      rw [hx', Option.map_some, Option.some_inj] at hd
      simp only [hoff, if_true]
      obtain ⟨u, hu⟩ := hbs.drop ip.offset
      have hread : Q (scanFor (bloomStart entries) key ip.offset (bs.drop ip.offset)) m d' := by
        rcases scanFor_prefix (bloomStart entries) key (bs.drop ip.offset) u
          ip.offset with heq | hnot
        · rw [hu, hd, hscan] at heq
          rwa [heq]
        · rw [hnot]
          exact hfail (.inr hf)
      exact hread

/-- A lookup can go well. -/
theorem exec_lookup (F : Faults Mark) (key : Bytes) (h : Fits sz entries)
    (hd : (d[path]?).map File.content = some (image sz entries)) :
    ∃ tr, Exec (device F) ((tableOf sz path entries).lookup key : Io μ _) m d tr
      (.ok (entries.answer key) m d) := by
  have hwp : ((tableOf sz path entries).lookup key : Io μ _).wp reliable .blind
      (fun r m' d' ↦ r = entries.answer key ∧ m' = m ∧ d' = d) (fun _ _ _ ↦ False) m d :=
    wp_lookup h hd (fun hf ↦ hf) (fun hf ↦ hf) trivial ⟨rfl, rfl, rfl⟩
  obtain ⟨tr, _, _, _, hx, -, rfl, rfl, rfl⟩ :=
    Exec.exists_ok (device_total .none) (fun _ ↦ trivial) hwp
  exact ⟨tr, hx.mono fun _ _ _ _ ↦ step_of_none F⟩

/-- **A lookup can miss a key** that is in the table. -/
theorem exec_lookup_failing (hF : CanFail F path)
    (hd : (d[path]?).map File.content = some (image sz entries)) {e : MemEntry}
    (hkey : entries[key]? = some e) :
    ∃ tr, Exec (device F) ((tableOf sz path entries).lookup key : Io μ _) m d tr
      (.ok .notFound m d) := by
  have hknown : entries.answer key ≠ .notFound := by
    rw [Entries.answer, hkey]
    cases ht : e.tombstone <;> simp [LookupResult.ofEntry, ht]
  have hbloom : (tableOf sz path entries).bloom.mayContain key = true := by
    by_contra hb
    exact hknown (answer_of_not_mayContain (Bool.eq_false_iff.2 hb))
  have hindex : (tableOf sz path entries).index.isEmpty = false := by
    by_contra hi
    exact hknown (answer_of_index_isEmpty (Bool.not_eq_false _ ▸ hi))
  obtain ⟨ip, hip⟩ : ∃ ip, (tableOf sz path entries).seekPoint key = some ip := by
    cases hsp : (tableOf sz path entries).seekPoint key with
    | none => exact absurd (answer_of_seekPoint_eq_none hsp) hknown
    | some ip => exact ⟨ip, rfl⟩
  rw [lookup, hbloom, hindex, hip]
  obtain ⟨x, hx, -⟩ := Option.map_eq_some_iff.1 hd
  rcases hF with hf | hf
  · exact ⟨[_], .call (r := none) ⟨rfl, .inr (.inl ⟨hf, rfl⟩)⟩ .pure⟩
  · refine ⟨[_], .call (r := some []) ⟨rfl, .inr (.inr ⟨hf, x, [], hx, List.nil_prefix, rfl⟩)⟩ ?_⟩
    have hnil : ∀ pos, scanFor (tableOf sz path entries).bloomOffset key pos
        (([] : Bytes).drop pos) = .notFound := fun pos ↦ by
      rw [List.drop_nil]
      exact scanFor_of_none rfl
    show Exec (device F) (Prog.pure (scanFor _ key _ _)) m d [] _
    rw [hnil]
    exact .pure

end Lookup

end SSTable

/-! ## A get over tables that may fail -/

/-- **The failures do no harm**: of the tables that know the key, from the newest on, each says `v`
that is asked because those before it may fail, and if all may fail, `v` is that there is no
value. -/
def Unharmed (fails : ℕ × Entries → Prop) (key : Bytes) (v : Option Bytes) :
    List (ℕ × Entries) → Prop
  | [] => v = none
  | t :: ts =>
    match t.2[key]? with
    | none => Unharmed fails key v ts
    | some e => e.says = v ∧ (fails t → Unharmed fails key v ts)

/-- The file of the table can fail to be read. -/
def TableFails (F : Faults Mark) (t : ℕ × Entries) : Prop := CanFail F (sstPath t.1)

/-- **What a `get` should do** when reads may fail: it answers what the newest entry says, or
throws. -/
def GetsNewest (F : Faults Mark) (db : DB) (d : Disk) (ts : List (ℕ × Entries))
    (key : Bytes) : Prop :=
  ∀ tr r db' d', Exec (device F) (DB.get key) db d tr (.ok r db' d') →
    r = (newestEntry db.memtable.data ts key).bind MemEntry.says

section Get

variable {F : Faults Mark} {db : DB} {d : Disk} {sz : Sizing}
  {ts : List (ℕ × Entries)} {key : Bytes}

theorem wp_getFrom_failing {v : Option Bytes} (hts : Stored sz d ts)
    (hshort : ∀ t ∈ ts, t.2.IsShort) (h : Unharmed (TableFails F) key v ts) :
    (DB.getFrom key (tables sz ts)).wp (device F) .blind (fun r _ _ ↦ r = v) (fun _ _ _ ↦ True)
      db d := by
  induction ts with
  | nil => exact h.symm
  | cons t ts ih =>
    rw [List.forall_mem_cons] at hshort
    obtain ⟨⟨hopen, hfile⟩, hts⟩ := List.forall_mem_cons.1 hts
    have hfits := hopen.fits hshort.1
    rw [DB.tables_cons, DB.getFrom, wp_bind, hfits.loaded_eq]
    rw [Unharmed] at h
    have hanswer : t.2.answer key = match t.2[key]? with
      | none => .notFound
      | some e => .ofEntry e := rfl
    refine SSTable.wp_lookup_failing hfits hfile trivial ?_ fun hf ↦ ?_
    · rw [hanswer]
      cases hkey : t.2[key]? with
      | none =>
        rw [hkey] at h
        exact ih hts hshort.2 h
      | some e =>
        rw [hkey] at h
        obtain ⟨rfl, -⟩ := h
        cases ht : e.tombstone <;> simp [LookupResult.ofEntry, MemEntry.says, ht]
    · refine ih hts hshort.2 ?_
      cases hkey : t.2[key]? with
      | none => rwa [hkey] at h
      | some e =>
        rw [hkey] at h
        exact h.2 hf

/-- **A failure that does harm can happen.** -/
theorem unharmed_of_exec (db : DB) {v : Option Bytes} (hts : Stored sz d ts)
    (hshort : ∀ t ∈ ts, t.2.IsShort)
    (h : ∀ tr r db' d', Exec (device F) (DB.getFrom key (tables sz ts)) db d tr (.ok r db' d') →
      r = v) :
    Unharmed (TableFails F) key v ts := by
  induction ts with
  | nil => exact (h _ _ _ _ .pure).symm
  | cons t ts ih =>
    rw [List.forall_mem_cons] at hshort
    obtain ⟨⟨hopen, hfile⟩, hts⟩ := List.forall_mem_cons.1 hts
    have hfits := hopen.fits hshort.1
    rw [DB.tables_cons, DB.getFrom, hfits.loaded_eq] at h
    -- when the lookup finds nothing, the older tables are asked
    have hnext :
        (∃ tr, Exec (device F) ((SSTable.tableOf sz (sstPath t.1) t.2).lookup key : Io DB _) db d
        tr (.ok .notFound db d)) → Unharmed (TableFails F) key v ts := by
      rintro ⟨tr, hx⟩
      exact ih hts hshort.2 fun tr' r db' d' hx' ↦ h _ r db' d' (hx.bind hx')
    obtain ⟨tr, hx⟩ := SSTable.exec_lookup (m := db) F key hfits hfile
    rw [Unharmed]
    cases hkey : t.2[key]? with
    | none =>
      rw [Entries.answer, hkey] at hx
      exact hnext ⟨tr, hx⟩
    | some e =>
      refine ⟨?_, fun hf ↦ hnext (SSTable.exec_lookup_failing hf hfile hkey)⟩
      rw [Entries.answer, hkey] at hx
      refine h (tr ++ []) _ db d (hx.bind ?_)
      obtain ⟨value, tombstone⟩ := e
      cases tombstone <;> exact .pure

theorem wp_get_of_some {e : MemEntry} (hmem : db.memtable.data[key]? = some e) :
    (DB.get key).wp (device F) .blind (fun r _ _ ↦ r = e.says) (fun _ _ _ ↦ True) db d := by
  rw [DB.get, wp_bind, Crash.wp_get, MemTable.raw, hmem]
  rfl

theorem wp_get_of_none {W : Watch (Call Mark) DB Disk} {Q : Option Bytes → DB → Disk → Prop}
    {E : Error → DB → Disk → Prop} (hmem : db.memtable.data[key]? = none)
    (h : (DB.getFrom key db.sstables).wp (device F) W Q E db d) :
    (DB.get key).wp (device F) W Q E db d := by
  rw [DB.get, wp_bind, Crash.wp_get, MemTable.raw, hmem]
  exact h

theorem exec_get_of_none (hmem : db.memtable.data[key]? = none) {tr : Trace}
    {o : Outcome DB Error (Option Bytes) Disk}
    (hx : Exec (device F) (DB.getFrom key db.sstables) db d tr o) :
    Exec (device F) (DB.get key) db d tr o := by
  have hraw : db.memtable.raw key = none := hmem
  refine .get ?_
  rw [Prog.bind, hraw]
  exact hx

/-- **When a failed read is answered with stale data.**  A `get` answers what the newest entry says
if and only if the MemTable knows the key or the failures do no harm. -/
theorem getsNewest_iff (F : Faults Mark) (h : Layered sz db d ts) (key : Bytes) :
    GetsNewest F db d ts key ↔ db.memtable.data[key]? ≠ none ∨
      Unharmed (TableFails F) key ((ts.findSome? fun t ↦ t.2[key]?).bind MemEntry.says) ts := by
  rw [GetsNewest, newestEntry]
  cases hmem : db.memtable.data[key]? with
  | some e =>
    refine ⟨fun _ ↦ .inl (Option.some_ne_none e), fun _ tr r db' d' hx ↦ ?_⟩
    exact (hx.of_wp (fun _ _ ↦ trivial) (wp_get_of_some hmem)).2
  | none =>
    rw [Option.none_or]
    constructor
    · intro hnewest
      refine .inr (unharmed_of_exec db h.stored h.short fun tr r db' d' hx ↦ ?_)
      rw [← h.tables] at hx
      exact hnewest tr r db' d' (exec_get_of_none hmem hx)
    · rintro (hne | hun) tr r db' d' hx
      · exact absurd rfl hne
      have hwp := wp_get_of_none hmem (h.tables ▸ wp_getFrom_failing h.stored h.short hun)
      exact (hx.of_wp (fun _ _ ↦ trivial) hwp).2

end Get

/-- The newer table cannot be opened. -/
def newerFails : Faults Mark := ⟨fun c ↦ c = .readFile (sstPath 1), fun _ ↦ False⟩

theorem not_tableFails_older {entries : Entries} : ¬TableFails newerFails (0, entries) := by
  rintro (hf | hf)
  · exact absurd (DB.sstPath_inj.1 (Call.readFile.inj hf)) Nat.zero_ne_one
  · exact hf

/-- The older table says the same as the one that cannot be opened. -/
theorem getsNewest_newerFails : TableFails newerFails (1, SSTable.single) ∧
    GetsNewest newerFails (twoStore SSTable.single) (twoFiles SSTable.single)
      (twoTables SSTable.single) [107] := by
  refine ⟨.inl rfl,
    (getsNewest_iff newerFails (layered_twoTables SSTable.fits_single) [107]).2 (.inr ?_)⟩
  have hkey : SSTable.single[([107] : Bytes)]? = some ⟨[118], false⟩ :=
    ExtTreeMap.getElem?_insert_self
  rw [twoTables, List.findSome?_cons, hkey, Unharmed, hkey]
  refine ⟨rfl, fun _ ↦ ?_⟩
  rw [Unharmed, hkey]
  exact ⟨rfl, fun hf ↦ absurd hf not_tableFails_older⟩

/-- **A deleted value comes back** while the table with the deletion cannot be opened. -/
theorem not_getsNewest_newerFails :
    ¬GetsNewest newerFails (twoStore deleted) (twoFiles deleted) (twoTables deleted) [107] := by
  have hlayered := layered_twoTables fits_deleted
  have hnone : (twoStore deleted).memtable.data[([107] : Bytes)]? = none :=
    ExtTreeMap.getElem?_empty
  have hkey : deleted[([107] : Bytes)]? = some Snapshot.deletion.entry := by
    rw [deleted, getElem?_applyRecord, if_pos (by rfl)]
  have hold : SSTable.single[([107] : Bytes)]? = some ⟨[118], false⟩ :=
    ExtTreeMap.getElem?_insert_self
  intro h
  have hun : Unharmed (TableFails newerFails) [107] none (twoTables deleted) := by
    refine unharmed_of_exec (twoStore deleted) hlayered.stored hlayered.short
      fun tr r db' d' hx ↦ ?_
    rw [← hlayered.tables] at hx
    rw [h tr r db' d' (exec_get_of_none hnone hx), newestEntry, hnone, Option.none_or, twoTables,
      List.findSome?_cons, hkey]
    rfl
  rw [twoTables, Unharmed, hkey] at hun
  have hrest := hun.2 (.inl rfl)
  rw [Unharmed, hold] at hrest
  exact absurd hrest.1 (by decide)

end KeyValStore
