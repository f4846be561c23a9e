import KeyValStore.SSTable.Lookup
import KeyValStore.Store.Names
import KeyValStore.Overlay.Layers

/-!
# The tables of an open store

The list `sstables_` of a `DB` object is described by the numbers and the contents of its tables;
`Stored` says that the files are there.  When all strings are short, a `get` sees the MemTable over
the tables, newest first (`wp_get`), and the merge of a compaction collects what is seen through the
tables alone (`wp_mergeTables`, `layer_mergeAll`).
-/

set_option autoImplicit false

namespace KeyValStore

open Crash Std Overlay

/-! ## Entries as a layer -/

/-- What an entry says: a value, or that the key is deleted. -/
def MemEntry.says (e : MemEntry) : Option Bytes := if e.tombstone then none else some e.value

/-- The layer an ordered map of entries is. -/
def Entries.layer (entries : Entries) : Layer Bytes Bytes := fun k ↦ (entries[k]?).map MemEntry.says

/-- All strings are short. -/
def Entries.IsShort (entries : Entries) : Prop :=
  ∀ (key : Bytes) (e : MemEntry), entries[key]? = some e → Short key ∧ Short e.value

theorem Entries.isShort_empty : Entries.IsShort ∅ := by
  intro key e h
  simp at h

theorem Entries.IsShort.insert {entries : Entries} (h : entries.IsShort)
    {key : Bytes} {e : MemEntry} (hk : Short key) (he : Short e.value) :
    Entries.IsShort (entries.insert key e) := by
  intro key' e' h'
  rw [ExtTreeMap.getElem?_insert] at h'
  split at h'
  · rename_i hc
    obtain rfl := LawfulEqCmp.eq_of_compare hc
    obtain rfl := Option.some.inj h'
    exact ⟨hk, he⟩
  · exact h key' e' h'

theorem Entries.IsShort.filter {entries : Entries} (h : entries.IsShort)
    (p : Bytes → MemEntry → Bool) : Entries.IsShort (entries.filter p) := by
  intro key e he
  rw [ExtTreeMap.getElem?_filter'] at he
  exact h key e (Option.eq_some_of_filter_eq_some he)

theorem SSTable.Openable.fits {sz : Sizing} {entries : Entries} (h : SSTable.Openable sz entries)
    (hs : entries.IsShort) : SSTable.Fits sz entries := ⟨hs, h.bloom⟩

@[simp] theorem layer_empty : Entries.layer ∅ = blank := by
  funext k
  simp [Entries.layer, blank]

theorem layer_insert (entries : Entries) (key : Bytes) (e : MemEntry) :
    Entries.layer (entries.insert key e) = write entries.layer (key, e.says) := by
  funext k
  by_cases h : k = key
  · subst h
    simp [Entries.layer, write]
  · have hne : compare key k ≠ .eq := fun hc ↦ h (LawfulEqCmp.eq_of_compare hc).symm
    rw [Entries.layer, ExtTreeMap.getElem?_insert, if_neg hne, write, Function.update_of_ne h]
    rfl

/-- A lookup in a table answers what its layer says. -/
theorem answer_eq_layer (entries : Entries) (key : Bytes) : entries.answer key =
    match entries.layer key with
    | none => .notFound
    | some none => .tombstone
    | some (some v) => .found v := by
  rw [Entries.answer, Entries.layer]
  cases entries[key]? with
  | none => rfl
  | some e => cases h : e.tombstone <;> simp [LookupResult.ofEntry, MemEntry.says, h]

namespace DB

/-! ## The list of tables -/

/-- The open tables with the given numbers and contents. -/
def tables (sz : Sizing) (ts : List (ℕ × Entries)) : List SSTable :=
  ts.map fun t ↦ .loaded sz (sstPath t.1) t.2

/-- The files of the tables hold their images, and can be opened. -/
def Stored (sz : Sizing) (d : Disk) (ts : List (ℕ × Entries)) : Prop :=
  ∀ t ∈ ts, SSTable.Openable sz t.2 ∧
    (d[sstPath t.1]?).map File.content = some (SSTable.image sz t.2)

/-- What is seen through the tables, newest first. -/
def tableLayer (ts : List (ℕ × Entries)) : Layer Bytes Bytes := stack (ts.map (·.2.layer))

/-- **What a reader sees**: the MemTable over the tables. -/
def shown (mem : Entries) (ts : List (ℕ × Entries)) : Bytes → Option Bytes :=
  visible (above mem.layer (tableLayer ts))

@[simp] theorem tables_cons (sz : Sizing) (t : ℕ × Entries) (ts : List (ℕ × Entries)) :
    tables sz (t :: ts) = .loaded sz (sstPath t.1) t.2 :: tables sz ts := rfl

@[simp] theorem length_tables (sz : Sizing) (ts : List (ℕ × Entries)) :
    (tables sz ts).length = ts.length :=
  List.length_map _

theorem map_path_tables (sz : Sizing) (ts : List (ℕ × Entries)) :
    (tables sz ts).map (·.path) = ts.map (sstPath ·.1) := by
  simp [tables, SSTable.loaded]

section Stored

variable {sz : Sizing} {d : Disk} {ts : List (ℕ × Entries)}

/-- A new table joins the others. -/
theorem Stored.built (h : Stored sz d ts) {n : ℕ} {entries : Entries} (hne : ∀ t ∈ ts, t.1 ≠ n)
    (hopen : SSTable.Openable sz entries) :
    Stored sz (d.insert (sstPath n) (.saved (SSTable.image sz entries))) ((n, entries) :: ts) := by
  refine List.forall_mem_cons.2 ⟨⟨hopen, SSTable.content_insert_image _ _ _ _⟩, fun t ht ↦ ?_⟩
  have hpath : sstPath t.1 ≠ sstPath n := fun heq ↦ hne t ht (sstPath_inj.1 heq)
  rw [Disk.getElem?_insert_ne hpath]
  exact h t ht

theorem Stored.congr (h : Stored sz d ts) {d' : Disk}
    (hd : ∀ t ∈ ts, d'[sstPath t.1]? = d[sstPath t.1]?) : Stored sz d' ts := fun t ht ↦ by
  rw [hd t ht]
  exact h t ht

end Stored

@[simp] theorem tableLayer_nil : tableLayer [] = blank := rfl

@[simp] theorem tableLayer_cons (t : ℕ × Entries) (ts : List (ℕ × Entries)) :
    tableLayer (t :: ts) = above t.2.layer (tableLayer ts) := rfl

section Reading

variable {F : Faults Mark} {W : Watch (Call Mark) DB Disk} {E : Error → DB → Disk → Prop}
  {db : DB} {d : Disk} {sz : Sizing} {ts : List (ℕ × Entries)}

theorem wp_getFrom {key : Bytes} {Q : Option Bytes → DB → Disk → Prop} (hF : Throwing F)
    (hread : ∀ t ∈ ts, ¬F.refuse (.readFile (sstPath t.1))) (hts : Stored sz d ts)
    (hshort : ∀ t ∈ ts, t.2.IsShort) (hw : Allows W (· = d))
    (h : Q (visible (tableLayer ts) key) db d) :
    (getFrom key (tables sz ts)).wp (device F) W Q E db d := by
  induction ts with
  | nil => exact h
  | cons t ts ih =>
    rw [List.forall_mem_cons] at hread hshort
    obtain ⟨⟨hopen, hfile⟩, hts⟩ := List.forall_mem_cons.1 hts
    have hfits := hopen.fits hshort.1
    rw [tables_cons, getFrom, wp_bind, hfits.loaded_eq]
    refine SSTable.wp_lookup hfits hfile hF.short_readFile hread.1 (hw _ _ _ rfl rfl) ?_
    rw [tableLayer_cons, visible_above] at h
    rw [answer_eq_layer]
    cases hl : t.2.layer key with
    | none =>
      rw [hl] at h
      exact ih hread.2 hts hshort.2 h
    | some w =>
      rw [hl] at h
      cases w <;> exact h

/-- **What `DB::get` answers.** -/
theorem wp_get {key : Bytes} {Q : Option Bytes → DB → Disk → Prop} (hF : Throwing F)
    (hread : ∀ t ∈ ts, ¬F.refuse (.readFile (sstPath t.1))) (hdb : db.sstables = tables sz ts)
    (hts : Stored sz d ts) (hshort : ∀ t ∈ ts, t.2.IsShort) (hw : Allows W (· = d))
    (h : Q (shown db.memtable.data ts key) db d) :
    (get key).wp (device F) W Q E db d := by
  rw [get, wp_bind, Crash.wp_get]
  rw [shown, visible_above, Entries.layer] at h
  rw [MemTable.raw]
  cases hm : db.memtable.data[key]? with
  | none =>
    rw [hm] at h
    rw [hdb]
    exact wp_getFrom hF hread hts hshort hw h
  | some e =>
    rw [hm] at h
    exact h

end Reading

/-! ## Merging -/

theorem getElem?_mergeInto (es : List SSTEntry) (merged : Entries) (key : Bytes)
    (hes : es.Pairwise fun a b ↦ a.key ≠ b.key) : (mergeInto merged es)[key]? =
      ((es.find? fun e ↦ e.key = key).map fun e ↦ ⟨e.value, e.tombstone⟩).or merged[key]? := by
  induction es generalizing merged with
  | nil => rfl
  | cons e es ih =>
    rw [List.pairwise_cons] at hes
    have hstep : mergeInto merged (e :: es)
      = mergeInto (merged.insert e.key ⟨e.value, e.tombstone⟩) es := rfl
    rw [hstep, ih _ hes.2]
    by_cases hk : e.key = key
    · have hnone : es.find? (fun e ↦ e.key = key) = none := by
        rw [List.find?_eq_none]
        intro e' he' hk'
        exact hes.1 e' he' (hk.trans (of_decide_eq_true hk').symm)
      rw [hnone, List.find?_cons_of_pos (by simpa using hk), ← hk, ExtTreeMap.getElem?_insert_self]
      rfl
    · have hne : compare e.key key ≠ .eq := fun hc ↦ hk (LawfulEqCmp.eq_of_compare hc)
      rw [ExtTreeMap.getElem?_insert, if_neg hne, List.find?_cons_of_neg (by simpa using hk)]

/-- Merging the entries of a table puts it on top. -/
theorem getElem?_mergeInto_scanned (entries merged : Entries) (key : Bytes) :
    (mergeInto merged entries.scanned)[key]? = (entries[key]?).or merged[key]? := by
  have hdistinct : entries.scanned.Pairwise fun a b ↦ a.key ≠ b.key := by
    rw [Entries.scanned, List.pairwise_map]
    exact (SSTable.sorted_toList entries).imp SSTable.ne_of_compare_lt
  rw [getElem?_mergeInto _ _ _ hdistinct, SSTable.getElem?_eq_find? entries, Entries.scanned,
    List.find?_map, Option.map_map]
  rfl

/-- The merge of all tables, oldest first. -/
def mergeAll (sz : Sizing) (ts : List (ℕ × Entries)) : Entries :=
  ts.reverse.foldl (fun merged t ↦ mergeInto merged (t.2.readBack sz)) ∅

/-- The merged table: what is left without the tombstones. -/
def cleanOf (sz : Sizing) (ts : List (ℕ × Entries)) : Entries :=
  (mergeAll sz ts).filter fun _ e ↦ !e.tombstone

theorem mergeAll_cons (sz : Sizing) (t : ℕ × Entries) (ts : List (ℕ × Entries)) :
    mergeAll sz (t :: ts) = mergeInto (mergeAll sz ts) (t.2.readBack sz) := by
  rw [mergeAll, List.reverse_cons, List.foldl_append]
  rfl

theorem isShort_mergeInto {es : List SSTEntry} {merged : Entries} (hm : merged.IsShort)
    (hes : ∀ e ∈ es, Short e.key ∧ Short e.value) : (mergeInto merged es).IsShort := by
  induction es generalizing merged with
  | nil => exact hm
  | cons e es ih =>
    rw [List.forall_mem_cons] at hes
    exact ih (hm.insert hes.1.1 hes.1.2) hes.2

/-- What is read back is short. -/
theorem isShort_cleanOf (sz : Sizing) (ts : List (ℕ × Entries)) : (cleanOf sz ts).IsShort := by
  refine Entries.IsShort.filter ?_ _
  induction ts with
  | nil => exact Entries.isShort_empty
  | cons t ts ih =>
    rw [mergeAll_cons]
    exact isShort_mergeInto ih fun e he ↦ Entries.short_readBack he

/-- **The merge is what is seen through the tables.** -/
theorem layer_mergeAll (sz : Sizing) {ts : List (ℕ × Entries)} (h : ∀ t ∈ ts, t.2.IsShort) :
    (mergeAll sz ts).layer = tableLayer ts := by
  induction ts with
  | nil => exact layer_empty
  | cons t ts ih =>
    rw [List.forall_mem_cons] at h
    have hshort : ∀ e ∈ t.2.toList, SSTable.ShortEntry e := fun e he ↦
      h.1 e.1 e.2 (ExtTreeMap.mem_toList_iff_getElem?_eq_some.1 he)
    rw [mergeAll_cons, tableLayer_cons, ← ih h.2, Entries.readBack_eq sz hshort]
    funext k
    rw [Entries.layer, getElem?_mergeInto_scanned, above, Entries.layer, Entries.layer]
    cases t.2[k]? <;> rfl

/-- **The merged table holds the live entries.** -/
theorem layer_cleanOf (sz : Sizing) {ts : List (ℕ × Entries)} (h : ∀ t ∈ ts, t.2.IsShort) :
    (cleanOf sz ts).layer = live (tableLayer ts) := by
  rw [← layer_mergeAll sz h]
  funext k
  rw [Entries.layer, cleanOf, ExtTreeMap.getElem?_filter', live, Entries.layer]
  cases (mergeAll sz ts)[k]? with
  | none => rfl
  | some e => cases h : e.tombstone <;> simp [h, MemEntry.says]

theorem wp_mergeTables {F : Faults Mark} {W : Watch (Call Mark) DB Disk}
    {E : Error → DB → Disk → Prop} {db : DB} {d : Disk} {sz : Sizing} {ts : List (ℕ × Entries)}
    {merged : Entries} {Q : Entries → DB → Disk → Prop} (hF : Throwing F)
    (hread : ∀ t ∈ ts, W.assume ⟨.readFile (sstPath t.1), db, d⟩ →
      ¬F.refuse (.readFile (sstPath t.1)))
    (hts : Stored sz d ts)
    (hw : Allows W (· = d))
    (h : Q (ts.foldl (fun merged t ↦ mergeInto merged (t.2.readBack sz)) merged) db d) :
    (mergeTables (tables sz ts) merged).wp (device F) W Q E db d := by
  induction ts generalizing merged with
  | nil => exact h
  | cons t ts ih =>
    rw [List.forall_mem_cons] at hread
    obtain ⟨⟨-, hfile⟩, hts⟩ := List.forall_mem_cons.1 hts
    rw [tables_cons, mergeTables, wp_bind]
    refine SSTable.wp_scanAll rfl rfl hfile hF.short_readFile hread.1 (hw _ _ _ rfl rfl) ?_
    exact ih hread.2 hts h

end DB

end KeyValStore
