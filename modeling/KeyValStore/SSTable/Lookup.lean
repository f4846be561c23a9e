import KeyValStore.SSTable.Open

/-!
# Reading a built table

A lookup in an open table over an image answers what the map says (`wp_lookup`), and a scan returns
the entries of the map in order (`wp_scanAll`).  The three fast paths are accounted for one by one:
the Bloom filter denies no key of the map, the binary search finds the last index point that is not
above the key, and the scan from there may stop at the first greater key because the entries are
sorted.

`lookup_build` and `scanAll_build_iff` put these together with `SSTable::build` and the opening of
the file.
-/

set_option autoImplicit false

namespace KeyValStore

open Crash Std

/-- The result of a lookup that has come to an entry. -/
def LookupResult.ofEntry (e : MemEntry) : LookupResult :=
  if e.tombstone then .tombstone else .found e.value

/-- **What a lookup has to answer.** -/
def Entries.answer (entries : Entries) (key : Bytes) : LookupResult :=
  match entries[key]? with
  | none => .notFound
  | some e => .ofEntry e

/-- **What a scan has to return.** -/
def Entries.scanned (entries : Entries) : List SSTEntry :=
  entries.toList.map fun e ↦ ⟨e.1, e.2.value, e.2.tombstone⟩

namespace SSTable

/-! ## Scanning entries -/

/-- The order of the entries of a table. -/
def Sorted (es : List (Bytes × MemEntry)) : Prop := es.Pairwise fun a b ↦ compare a.1 b.1 = .lt

theorem sorted_toList (entries : Entries) : Sorted entries.toList := ExtTreeMap.ordered_keys_toList

theorem scanEntries_of_none {off pos : ℕ} {s : Bytes} (h : readEntry s = none) :
    scanEntries off pos s = [] := by
  rw [scanEntries]
  split
  · split
    · rfl
    · rename_i hsome
      rw [h] at hsome
      simp at hsome
  · rfl

theorem scanEntries_of_some {off pos : ℕ} {s t k v : Bytes} {fl : UInt8}
    (hpos : pos < off) (h : readEntry s = some ((k, fl, v), t)) : scanEntries off pos s =
      ⟨k, v, isTombstone fl⟩ :: scanEntries off (pos + (s.length - t.length)) t := by
  rw [scanEntries, if_pos hpos]
  split
  · rename_i hnone
    rw [h] at hnone
    simp at hnone
  · rename_i hsome
    rw [h, Option.some_inj, Prod.mk.injEq, Prod.mk.injEq, Prod.mk.injEq] at hsome
    obtain ⟨⟨rfl, rfl, rfl⟩, rfl⟩ := hsome
    rfl

theorem scanEntries_of_ge {off pos : ℕ} (s : Bytes) (hpos : off ≤ pos) :
    scanEntries off pos s = [] := by
  rw [scanEntries, if_neg (by omega)]

/-- How far one entry takes a scan. -/
theorem scan_step (pos : ℕ) (e : Bytes × MemEntry) (es : List (Bytes × MemEntry)) (s : Bytes) :
    pos < pos + (dataBytes (e :: es)).length ∧
    dataBytes (e :: es) ++ s = entryBytes e ++ (dataBytes es ++ s) ∧
    pos + ((entryBytes e ++ (dataBytes es ++ s)).length - (dataBytes es ++ s).length) =
      pos + (entryBytes e).length ∧
    pos + (dataBytes (e :: es)).length =
      pos + (entryBytes e).length + (dataBytes es).length := by
  have hlen := length_entryBytes e
  rw [dataBytes_cons, List.append_assoc, List.length_append, List.length_append,
    Nat.add_sub_cancel]
  exact ⟨by omega, rfl, rfl, (Nat.add_assoc _ _ _).symm⟩

/-- **A scan of the data section** returns its entries. -/
theorem scanEntries_dataBytes {es : List (Bytes × MemEntry)} (h : ∀ e ∈ es, ShortEntry e)
    (pos : ℕ) (s : Bytes) : scanEntries (pos + (dataBytes es).length) pos (dataBytes es ++ s) =
      es.map fun e ↦ ⟨e.1, e.2.value, e.2.tombstone⟩ := by
  induction es generalizing pos with
  | nil => exact scanEntries_of_ge _ le_rfl
  | cons e es ih =>
    rw [List.forall_mem_cons] at h
    obtain ⟨hlt, hsplit, hstep, hend⟩ := scan_step pos e es s
    rw [hsplit, scanEntries_of_some hlt (readEntry_entryBytes h.1 _), hstep, hend, ih h.2,
      List.map_cons, isTombstone_flagsOf]

/-- A scan returns short strings only. -/
theorem short_of_mem_scanEntries {off pos : ℕ} {s : Bytes} {e : SSTEntry}
    (h : e ∈ scanEntries off pos s) : Short e.key ∧ Short e.value := by
  induction pos, s using scanEntries.induct off with
  | case1 pos s hpos hnone =>
    rw [scanEntries_of_none hnone] at h
    simp at h
  | case2 pos s hpos key flags value t hsome ih =>
    rw [scanEntries_of_some hpos hsome] at h
    rcases List.mem_cons.1 h with rfl | h
    · exact (entryCodec.enc_of_run hsome).1
    · exact ih h
  | case3 pos s hpos =>
    rw [scanEntries_of_ge s (by omega)] at h
    simp at h

/-! ## Looking for a key -/

/-- The entry for a key among the given ones. -/
def findKey (es : List (Bytes × MemEntry)) (key : Bytes) : LookupResult :=
  match es.find? fun e ↦ e.1 = key with
  | none => .notFound
  | some e => .ofEntry e.2

theorem findKey_eq_notFound {es : List (Bytes × MemEntry)} {key : Bytes}
    (h : ∀ e ∈ es, e.1 ≠ key) : findKey es key = .notFound := by
  have hnone : es.find? (fun e ↦ e.1 = key) = none := by
    rw [List.find?_eq_none]
    exact fun e he ↦ by simpa using h e he
  rw [findKey, hnone]

theorem findKey_append {as bs : List (Bytes × MemEntry)} {key : Bytes} (h : ∀ e ∈ as, e.1 ≠ key) :
    findKey (as ++ bs) key = findKey bs key := by
  have hnone : as.find? (fun e ↦ e.1 = key) = none := by
    rw [List.find?_eq_none]
    exact fun e he ↦ by simpa using h e he
  rw [findKey, findKey, List.find?_append, hnone, Option.none_or]

/-- The entry of a map for a key is the one its list of entries has. -/
theorem getElem?_eq_find? (entries : Entries) (key : Bytes) :
    entries[key]? = (entries.toList.find? fun e ↦ e.1 = key).map (·.2) := by
  cases hf : entries.toList.find? fun e ↦ e.1 = key with
  | none =>
    cases hk : entries[key]? with
    | none => rfl
    | some e =>
      rw [List.find?_eq_none] at hf
      exact absurd (decide_eq_true rfl) (hf _ (ExtTreeMap.mem_toList_iff_getElem?_eq_some.2 hk))
  | some e =>
    have hk := List.find?_some hf
    rw [decide_eq_true_eq] at hk
    rw [← hk, ExtTreeMap.mem_toList_iff_getElem?_eq_some.1 (List.mem_of_find?_eq_some hf)]
    rfl

/-- **The map's answer** is that of its entries in order. -/
theorem findKey_toList (entries : Entries) (key : Bytes) :
    findKey entries.toList key = entries.answer key := by
  rw [Entries.answer, findKey, getElem?_eq_find?]
  cases entries.toList.find? fun e ↦ e.1 = key <;> rfl

theorem ne_of_compare_lt {a b : Bytes} (h : compare a b = .lt) : a ≠ b := by
  rintro rfl
  simp [ReflCmp.compare_self] at h

theorem scanFor_of_ge {off pos : ℕ} {key : Bytes} (s : Bytes) (hpos : off ≤ pos) :
    scanFor off key pos s = .notFound := by
  rw [scanFor, if_neg (by omega)]

theorem scanFor_of_some {off pos : ℕ} {key s t k v : Bytes} {fl : UInt8}
    (hpos : pos < off) (h : readEntry s = some ((k, fl, v), t)) : scanFor off key pos s =
      if k = key then if isTombstone fl then .tombstone else .found v
      else if compare k key = .gt then .notFound
      else scanFor off key (pos + (s.length - t.length)) t := by
  rw [scanFor, if_pos hpos]
  split
  · rename_i hnone
    rw [h] at hnone
    simp at hnone
  · rename_i hsome
    rw [h, Option.some_inj, Prod.mk.injEq, Prod.mk.injEq, Prod.mk.injEq] at hsome
    obtain ⟨⟨rfl, rfl, rfl⟩, rfl⟩ := hsome
    rfl

/-- **The forward scan** finds the entry for the key. -/
theorem scanFor_dataBytes {es : List (Bytes × MemEntry)} (h : ∀ e ∈ es, ShortEntry e)
    (hs : Sorted es) (key : Bytes) (pos : ℕ) (s : Bytes) :
    scanFor (pos + (dataBytes es).length) key pos (dataBytes es ++ s) = findKey es key := by
  induction es generalizing pos with
  | nil => exact scanFor_of_ge _ le_rfl
  | cons e es ih =>
    rw [List.forall_mem_cons] at h
    rw [Sorted, List.pairwise_cons] at hs
    obtain ⟨hlt, hsplit, hstep, hend⟩ := scan_step pos e es s
    rw [hsplit, scanFor_of_some hlt (readEntry_entryBytes h.1 _), hstep, hend, ih h.2 hs.2,
      isTombstone_flagsOf]
    by_cases hk : e.1 = key
    · rw [if_pos hk, findKey, List.find?_cons_of_pos (by simpa using hk)]
      rfl
    rw [if_neg hk]
    by_cases hgt : compare e.1 key = .gt
    · -- the scan has overshot: everything from here on is above the key
      have hlt : compare key e.1 = .lt := OrientedCmp.lt_of_gt hgt
      rw [if_pos hgt]
      refine (findKey_eq_notFound (List.forall_mem_cons.2 ⟨hk, fun e' he' ↦ ?_⟩)).symm
      exact (ne_of_compare_lt (TransCmp.lt_trans hlt (hs.1 e' he'))).symm
    · have hne : ∀ e' ∈ [e], e'.1 ≠ key := by simpa using hk
      rw [if_neg hgt]
      exact (findKey_append hne).symm

/-! ## The sparse index -/

theorem map_key_sparseFrom_sublist (es : List (Bytes × MemEntry)) (off n : ℕ) :
    ((sparseFrom off n es).map (·.key)).Sublist (es.map (·.1)) := by
  induction es generalizing off n with
  | nil => exact List.Sublist.slnil
  | cons e es ih =>
    rw [sparseFrom, List.map_append, List.map_cons]
    split
    · exact (ih _ _).cons_cons e.1
    · exact (ih _ _).cons e.1

theorem sorted_sparseOf (entries : Entries) :
    (sparseOf entries).Pairwise fun a b ↦ compare a.key b.key = .lt := by
  have h : (entries.toList.map (·.1)).Pairwise fun a b ↦ compare a b = .lt :=
    List.pairwise_map.2 (sorted_toList entries)
  exact List.pairwise_map.1 (h.sublist (map_key_sparseFrom_sublist _ 0 0))

/-- The first entry of a table has an index point. -/
theorem sparseOf_cons {entries : Entries} {e : Bytes × MemEntry} {es : List (Bytes × MemEntry)}
    (h : entries.toList = e :: es) : ∃ sparse, sparseOf entries = ⟨e.1, 0⟩ :: sparse := by
  rw [sparseOf, h, sparseFrom, Nat.zero_mod, if_pos rfl]
  exact ⟨_, rfl⟩

section SeekPoint

variable {t : SSTable} {key : Bytes}

/-- The search for an index point looks at keys that only grow. -/
theorem seek_mono (ht : t.index.Pairwise fun a b ↦ compare a.key b.key = .lt) (i j : ℕ)
    (hij : i ≤ j) (hj : j < t.index.length) (hi : compare key (t.index.getD i {}).key = .lt) :
    compare key (t.index.getD j {}).key = .lt := by
  rcases Nat.eq_or_lt_of_le hij with rfl | hlt
  · exact hi
  · rw [List.getD_eq_getElem _ _ (by omega)] at hi ⊢
    exact TransCmp.lt_trans hi (List.pairwise_iff_getElem.1 ht i j _ _ hlt)

/-- Where the search ends: below it the keys of the index are not above `key`, from it on they
are. -/
theorem seek_spec (ht : t.index.Pairwise fun a b ↦ compare a.key b.key = .lt) :
    let it := Search.upperBound (fun i ↦ compare key (t.index.getD i {}).key = .lt) 0 t.index.length
    (∀ i < it, compare key (t.index.getD i {}).key ≠ .lt) ∧
      ∀ i, it ≤ i → i < t.index.length → compare key (t.index.getD i {}).key = .lt := by
  obtain ⟨hlo, hhi⟩ := @Search.upperBound_spec
    (fun i ↦ compare key (t.index.getD i {}).key = .lt) 0 t.index.length fun i j _ hij hj hi ↦
      decide_eq_true (seek_mono ht i j hij (by omega) (of_decide_eq_true hi))
  exact ⟨fun i hi ↦ of_decide_eq_false (hlo i (Nat.zero_le _) hi),
    fun i hi hlen ↦ of_decide_eq_true (hhi i hi (by omega))⟩

theorem seekPoint_eq_none (ht : t.index.Pairwise fun a b ↦ compare a.key b.key = .lt)
    (h : t.seekPoint key = none) : ∀ ip ∈ t.index, compare key ip.key = .lt := by
  have hspec := (@seek_spec t key ht).2
  simp only [seekPoint, ite_eq_left_iff, reduceCtorEq, imp_false, not_not] at h
  intro ip hip
  obtain ⟨i, hi, rfl⟩ := List.getElem_of_mem hip
  have := hspec i (by omega) hi
  rwa [List.getD_eq_getElem _ _ hi] at this

theorem seekPoint_eq_some (ht : t.index.Pairwise fun a b ↦ compare a.key b.key = .lt)
    {ip : IndexPoint} (h : t.seekPoint key = some ip) :
    ip ∈ t.index ∧ compare key ip.key ≠ .lt := by
  have hspec := (@seek_spec t key ht).1
  have hle := (Search.upperBound_mem (fun i ↦ compare key (t.index.getD i {}).key = .lt) 0
    t.index.length).2
  simp only [seekPoint] at h
  split at h
  · simp at h
  · rename_i hne
    rw [Option.some_inj] at h
    have hp := hspec _ (Nat.sub_one_lt hne)
    rw [h] at hp
    refine ⟨?_, hp⟩
    rw [← h, List.getD_eq_getElem _ _ (by omega)]
    exact List.getElem_mem _

end SeekPoint

/-! ## The three fast paths -/

section FastPaths

variable {sz : Sizing} {entries : Entries} {key : Bytes}

theorem answer_eq_notFound (h : ∀ e ∈ entries.toList, e.1 ≠ key) :
    entries.answer key = .notFound := by
  rw [← findKey_toList, findKey_eq_notFound h]

/-- What the Bloom filter denies is not in the map. -/
theorem answer_of_not_mayContain (h : (bloomOf sz entries).mayContain key = false) :
    entries.answer key = .notFound := by
  refine answer_eq_notFound fun e he hk ↦ ?_
  have hmem : key ∈ entries.keys := by
    rw [← ExtTreeMap.map_fst_toList_eq_keys]
    exact List.mem_map.2 ⟨e, he, hk⟩
  rw [bloomOf, BloomFilter.mayContain_addAll (BloomFilter.sound_sized sz _) hmem] at h
  simp at h

/-- A table without an index point is empty. -/
theorem answer_of_index_isEmpty (h : (sparseOf entries).isEmpty = true) :
    entries.answer key = .notFound := by
  cases hl : entries.toList with
  | nil => exact answer_eq_notFound (by simp [hl])
  | cons e es =>
    obtain ⟨sparse, hs⟩ := sparseOf_cons hl
    rw [hs] at h
    simp at h

/-- A key below the first index point is below every key of the table. -/
theorem answer_of_seekPoint_eq_none {path : Name}
    (h : (tableOf sz path entries).seekPoint key = none) : entries.answer key = .notFound := by
  have hlt := seekPoint_eq_none (t := tableOf sz path entries) (sorted_sparseOf entries) h
  cases hl : entries.toList with
  | nil => exact answer_eq_notFound (by simp [hl])
  | cons e es =>
    obtain ⟨sparse, hs⟩ := sparseOf_cons hl
    have hsorted := sorted_toList entries
    rw [hl, Sorted, List.pairwise_cons] at hsorted
    have hfirst : compare key e.1 = .lt := hlt ⟨e.1, 0⟩ (by simp [tableOf, hs])
    refine answer_eq_notFound ?_
    rw [hl]
    refine List.forall_mem_cons.2 ⟨(ne_of_compare_lt hfirst).symm, fun e' he' ↦ ?_⟩
    exact (ne_of_compare_lt (TransCmp.lt_trans hfirst (hsorted.1 e' he'))).symm

/-- From the index point that is found, the scan finds what the map holds: every entry before it is
below the key. -/
theorem Fits.scanFor_seekPoint (h : Fits sz entries) {path : Name} {ip : IndexPoint}
    (hip : (tableOf sz path entries).seekPoint key = some ip) : seekable ip.offset = true ∧
      scanFor (bloomStart entries) key ip.offset ((image sz entries).drop ip.offset)
        = entries.answer key := by
  obtain ⟨hmem, hge⟩ := seekPoint_eq_some (t := tableOf sz path entries) (sorted_sparseOf entries)
    hip
  obtain ⟨-, hoff⟩ := h.short_sparse hmem
  have hlen := h.length_image_lt
  rw [length_image, indexStart] at hlen
  refine ⟨seekable_of_lt (by omega), ?_⟩
  obtain ⟨as, e, bs, hes, hkey, hip⟩ := mem_sparseFrom hmem
  rw [Nat.zero_add] at hip
  have hsorted := sorted_toList entries
  rw [hes, Sorted, List.pairwise_append] at hsorted
  obtain ⟨-, hbs, hlt⟩ := hsorted
  have hshort : ∀ e' ∈ e :: bs, ShortEntry e' := fun e' he' ↦ h.shortEntry e' (by
    rw [hes]
    exact List.mem_append_right as he')
  have hne : ∀ e' ∈ as, e'.1 ≠ key := by
    rintro e' he' rfl
    exact hge (hkey ▸ hlt e' he' e List.mem_cons_self)
  have hdrop : (image sz entries).drop ip.offset = dataBytes (e :: bs) ++
      (bloomBytes (bloomOf sz entries) ++ (indexBytes (sparseOf entries) ++
        (Codec.le 8 (bloomStart entries) ++ Codec.le 8 (indexStart sz entries)))) := by
    rw [image, hes, dataBytes_append]
    simp only [List.append_assoc]
    rw [List.drop_left' hip.symm]
  have hend : bloomStart entries = ip.offset + (dataBytes (e :: bs)).length := by
    rw [bloomStart, hes, dataBytes_append, List.length_append, hip]
  rw [hdrop, hend, scanFor_dataBytes hshort hbs, ← findKey_toList, hes, findKey_append hne]

end FastPaths

/-! ## Reading everything back -/

end SSTable

/-- What a scan of the built table returns. -/
def Entries.readBack (sz : Sizing) (entries : Entries) : List SSTEntry :=
  SSTable.scanEntries (SSTable.bloomStart entries) 0 (SSTable.image sz entries)

theorem Entries.short_readBack {sz : Sizing} {entries : Entries} {e : SSTEntry}
    (h : e ∈ entries.readBack sz) : Short e.key ∧ Short e.value :=
  SSTable.short_of_mem_scanEntries h

/-- **A scan returns the entries of the map**, when their strings are short. -/
theorem Entries.readBack_eq (sz : Sizing) {entries : Entries}
    (h : ∀ e ∈ entries.toList, SSTable.ShortEntry e) : entries.readBack sz = entries.scanned := by
  have hscan := SSTable.scanEntries_dataBytes h 0
    (SSTable.bloomBytes (SSTable.bloomOf sz entries) ++
    (SSTable.indexBytes (SSTable.sparseOf entries) ++ (Codec.le 8 (SSTable.bloomStart entries) ++
      Codec.le 8 (SSTable.indexStart sz entries))))
  rw [Nat.zero_add] at hscan
  rw [Entries.readBack, SSTable.image]
  simp only [List.append_assoc, SSTable.bloomStart] at hscan ⊢
  rw [hscan]
  rfl

namespace SSTable

/-! ## The programs -/

section Programs

variable {F : Faults Mark} {μ : Type} {W : Watch (Call Mark) μ Disk} {E : Error → μ → Disk → Prop}
  {m : μ} {d : Disk} {sz : Sizing} {path : Name} {entries : Entries}

/-- **Opening a table.**  It throws when the file cannot be read. -/
theorem wp_open {Q : SSTable → μ → Disk → Prop} (h : Openable sz entries)
    (hd : (d[path]?).map File.content = some (image sz entries))
    (hs : ¬F.short (.readFile path)) (hw : W.always ⟨.readFile path, m, d⟩)
    (hthrew : W.assume ⟨.readFile path, m, d⟩ → F.refuse (.readFile path) → E (.sstOpen path) m d)
    (hok : W.assume ⟨.readFile path, m, d⟩ → Q (loaded sz path entries) m d) :
    (SSTable.open path : Io μ _).wp (device F) W Q E m d := by
  rw [SSTable.open, wp_bind]
  refine wp_readFile hs hw hthrew fun hA ↦ ?_
  rw [hd]
  simp only [wp_ofExcept, h.loadMeta_image path]
  refine ⟨?_, by simp⟩
  rintro t ⟨⟩
  exact hok hA

/-- **A lookup answers what the map says.** -/
theorem wp_lookup {Q : LookupResult → μ → Disk → Prop} {key : Bytes} (h : Fits sz entries)
    (hd : (d[path]?).map File.content = some (image sz entries))
    (hs : ¬F.short (.readFile path)) (hr : ¬F.refuse (.readFile path))
    (hw : W.always ⟨.readFile path, m, d⟩) (hok : Q (entries.answer key) m d) :
    ((tableOf sz path entries).lookup key : Io μ _).wp (device F) W Q E m d := by
  rw [lookup, wp_ite]
  split
  · rename_i hb
    rw [Bool.not_eq_true'] at hb
    rw [answer_of_not_mayContain hb] at hok
    exact hok
  rw [wp_ite]
  split
  · rename_i hi
    rw [answer_of_index_isEmpty hi] at hok
    exact hok
  cases hsp : (tableOf sz path entries).seekPoint key with
  | none =>
    rw [answer_of_seekPoint_eq_none hsp] at hok
    exact hok
  | some ip =>
    obtain ⟨hoff, hscan⟩ := h.scanFor_seekPoint hsp
    refine (wp_bind _ _).2 (wp_readFile hs hw (fun _ hf ↦ absurd hf hr) fun _ ↦ ?_)
    rw [show (tableOf sz path entries).path = path from rfl, hd]
    simp only [hoff, if_true]
    rw [← hscan] at hok
    exact hok

/-- What a scan of a built table returns. -/
theorem wp_scanAll {Q : List SSTEntry → μ → Disk → Prop} {t : SSTable} (hpath : t.path = path)
    (hoff : t.bloomOffset = bloomStart entries)
    (hd : (d[path]?).map File.content = some (image sz entries))
    (hs : ¬F.short (.readFile path))
    (hr : W.assume ⟨.readFile path, m, d⟩ → ¬F.refuse (.readFile path))
    (hw : W.always ⟨.readFile path, m, d⟩) (hok : Q (entries.readBack sz) m d) :
    (t.scanAll : Io μ _).wp (device F) W Q E m d := by
  subst hpath
  refine (wp_bind _ _).2 (wp_readFile hs hw (fun hA hf ↦ absurd hf (hr hA)) fun _ ↦ ?_)
  rw [hd, hoff]
  exact hok

end Programs

/-! ## Build, open, read -/

section Exact

variable {μ : Type}

/-- Build a table, open it and look a key up. -/
def buildAndLookup (sz : Sizing) (path : Name) (entries : Entries) (key : Bytes) :
    Io μ LookupResult := do
  SSTable.build sz path entries
  let t ← SSTable.open path
  t.lookup key

/-- Build a table, open it and read all its entries. -/
def buildAndScan (sz : Sizing) (path : Name) (entries : Entries) : Io μ (List SSTEntry) := do
  SSTable.build sz path entries
  let t ← SSTable.open path
  t.scanAll

/-- The file `build` leaves under `path`. -/
theorem content_insert_image (d : Disk) (path : Name) (sz : Sizing) (entries : Entries) :
    ((d.insert path (.saved (image sz entries)))[path]?).map File.content
      = some (image sz entries) := by
  rw [ExtTreeMap.getElem?_insert_self, Option.map_some, File.content_saved]

/-- **Point lookup is exact**: neither the Bloom filter nor the sparse index nor the forward scan
changes the answer. -/
theorem lookup_exact {sz : Sizing} {entries : Entries} (h : Fits sz entries) (path : Name)
    (key : Bytes) (m : μ) (d : Disk) :
    (buildAndLookup sz path entries key).Returns reliable m d fun r _ _ ↦
      r = entries.answer key := by
  refine Prog.returns_of_wp ?_
  rw [buildAndLookup, wp_bind]
  refine wp_build throwing_none (fun _ ↦ id) trivial fun _ ↦
    ⟨fun _ _ _ _ _ ↦ trivial, fun hf ↦ hf.elim, ?_⟩
  have hd := content_insert_image d path sz entries
  rw [wp_bind]
  refine wp_open h.openable hd (fun hf ↦ hf.elim) trivial (fun _ hf ↦ hf.elim) fun _ ↦ ?_
  rw [h.loaded_eq]
  exact wp_lookup h hd (fun hf ↦ hf.elim) (fun hf ↦ hf.elim) trivial rfl

/-- A map with one live entry. -/
def single : Entries := (∅ : Entries).insert [107] ⟨[118], false⟩

theorem fits_single : Fits .onePercent single := by
  refine ⟨fun key e h ↦ ?_, ?_⟩
  · rw [single, ExtTreeMap.getElem?_insert] at h
    split at h
    · rename_i hk
      obtain rfl := LawfulEqCmp.eq_of_compare hk
      obtain rfl := Option.some.inj h
      exact ⟨by simp [Short], by simp [Short]⟩
    · simp at h
  · have hsize : single.size = 1 := by simp [single, ExtTreeMap.size_insert]
    rw [hsize]
    decide

/-- A map with twenty keys, every fourth of them deleted. -/
def twenty : Entries :=
  (List.range 20).foldl (fun entries n ↦ entries.insert [107, n.toUInt8]
    (if n % 4 = 3 then ⟨[], true⟩ else ⟨[n.toUInt8], false⟩)) ∅

theorem fits_twenty : Fits .onePercent twenty := by
  refine ⟨fun key e h ↦ ?_, by decide +kernel⟩
  have hall : ∀ e ∈ twenty.toList, ShortEntry e := by
    simp only [ShortEntry, Short]
    decide +kernel
  exact hall (key, e) (ExtTreeMap.mem_toList_iff_getElem?_eq_some.2 h)

/-- A live key and a deleted one of the second block, and one between two keys. -/
theorem lookup_exact_twenty :
    (buildAndLookup .onePercent [116] twenty [107, 17]).Returns reliable () ∅ (fun r _ _ ↦
      r = .found [17]) ∧
    (buildAndLookup .onePercent [116] twenty [107, 19]).Returns reliable () ∅ (fun r _ _ ↦
      r = .tombstone) ∧
    (buildAndLookup .onePercent [116] twenty [107, 17, 0]).Returns reliable () ∅ fun r _ _ ↦
      r = .notFound := by
  have hlive : twenty.answer [107, 17] = .found [17] := by decide +kernel
  have hdeleted : twenty.answer [107, 19] = .tombstone := by decide +kernel
  have habsent : twenty.answer [107, 17, 0] = .notFound := by decide +kernel
  rw [← hlive, ← hdeleted, ← habsent]
  exact ⟨lookup_exact fits_twenty [116] _ () ∅, lookup_exact fits_twenty [116] _ () ∅,
    lookup_exact fits_twenty [116] _ () ∅⟩

/-- What a scan returns is short, whatever is in the file. -/
theorem wp_scanAll_short {Q : List SSTEntry → μ → Disk → Prop} {m : μ} {d : Disk} (t : SSTable)
    (hok : ∀ es : List SSTEntry, (∀ e ∈ es, Short e.key ∧ Short e.value) → Q es m d) :
    (t.scanAll : Io μ _).wp reliable .blind Q (fun _ _ _ ↦ True) m d := by
  refine (wp_bind _ _).2 (wp_readFile (fun hf ↦ hf.elim) trivial (fun _ hf ↦ hf.elim) fun _ ↦ ?_)
  cases (d[t.path]?).map File.content with
  | none => exact hok [] (by simp)
  | some bs => exact hok _ fun _ ↦ short_of_mem_scanEntries

/-- Opening the table just built: it depends on the Bloom filter alone whether that works. -/
theorem loadMeta_image_cases (sz : Sizing) (path : Name) (entries : Entries)
    (h : (image sz entries).length < 2 ^ 63) :
    ((BloomFilter.sized sz entries.size).m.toNat < 2 ^ 32 ∧ ∃ t,
      loadMeta path (image sz entries) = .ok t ∧ t.path = path ∧
        t.bloomOffset = bloomStart entries) ∨
    (2 ^ 32 ≤ (BloomFilter.sized sz entries.size).m.toNat ∧
      loadMeta path (image sz entries) = .error .bloomTruncated) := by
  obtain ⟨s, hs⟩ := loadMeta_image sz path entries h
  rcases Nat.lt_or_ge (BloomFilter.sized sz entries.size).m.toNat (2 ^ 32) with hm | hm
  · refine .inl ⟨hm, ?_⟩
    rw [hs, readBloom_bloomBytes hm]
    exact ⟨_, rfl, rfl, rfl⟩
  · refine .inr ⟨hm, ?_⟩
    rw [hs, readBloom_of_large hm]
    rfl

/-- **When a scan is exact.**  For a table that a file can hold, a scan of the table just built
returns its entries if and only if all strings are short and the Bloom filter stays below `2 ^ 32`
bits. -/
theorem buildAndScan_iff {sz : Sizing} {entries : Entries}
    (h : (image sz entries).length < 2 ^ 63) (path : Name) (m : μ) (d : Disk) :
    (buildAndScan sz path entries).Returns reliable m d (fun es _ _ ↦ es = entries.scanned) ↔
      (∀ e ∈ entries.toList, ShortEntry e) ∧
        (BloomFilter.sized sz entries.size).m.toNat < 2 ^ 32 := by
  have hd := content_insert_image d path sz entries
  constructor
  · intro hret
    rcases loadMeta_image_cases sz path entries h with ⟨hm, t, ht, -⟩ | ⟨-, herr⟩
    · -- the table opens; whatever the scan returns is short
      have hwp : (buildAndScan sz path entries : Io μ _).wp reliable .blind
          (fun es _ _ ↦ ∀ e ∈ es, Short e.key ∧ Short e.value) (fun _ _ _ ↦ True) m d := by
        rw [buildAndScan, wp_bind]
        refine wp_build throwing_none (fun _ ↦ id) trivial fun _ ↦
          ⟨fun _ _ _ _ _ ↦ trivial, fun _ ↦ trivial, ?_⟩
        rw [SSTable.open, wp_bind, wp_bind]
        refine wp_readFile (fun hf ↦ hf.elim) trivial (fun _ hf ↦ hf.elim) fun _ ↦ ?_
        simp only [hd, wp_ofExcept, ht]
        exact ⟨fun t _ ↦ wp_scanAll_short t fun es hes ↦ hes, fun _ _ ↦ trivial⟩
      obtain ⟨es, -, -, rfl, hes⟩ := hret.exists_ok (device_total _) hwp
      refine ⟨fun e he ↦ ?_, hm⟩
      exact hes ⟨e.1, e.2.value, e.2.tombstone⟩ (List.mem_map.2 ⟨e, he, rfl⟩)
    · -- the table does not open
      have hwp : (buildAndScan sz path entries : Io μ _).wp reliable .blind
          (fun _ _ _ ↦ False) (fun _ _ _ ↦ True) m d := by
        rw [buildAndScan, wp_bind]
        refine wp_build throwing_none (fun _ ↦ id) trivial fun _ ↦
          ⟨fun _ _ _ _ _ ↦ trivial, fun _ ↦ trivial, ?_⟩
        rw [SSTable.open, wp_bind, wp_bind]
        refine wp_readFile (fun hf ↦ hf.elim) trivial (fun _ hf ↦ hf.elim) fun _ ↦ ?_
        simp only [hd, wp_ofExcept, herr]
        exact ⟨by simp, fun _ _ ↦ trivial⟩
      obtain ⟨-, -, -, -, hf⟩ := hret.exists_ok (device_total _) hwp
      exact hf.elim
  · rintro ⟨hshort, hm⟩
    rcases loadMeta_image_cases sz path entries h with ⟨-, t, ht, hp, hoff⟩ | ⟨hge, -⟩
    · refine Prog.returns_of_wp ?_
      rw [buildAndScan, wp_bind]
      refine wp_build throwing_none (fun _ ↦ id) trivial fun _ ↦
        ⟨fun _ _ _ _ _ ↦ trivial, fun hf ↦ hf.elim, ?_⟩
      rw [SSTable.open, wp_bind, wp_bind]
      refine wp_readFile (fun hf ↦ hf.elim) trivial (fun _ hf ↦ hf.elim) fun _ ↦ ?_
      simp only [hd, wp_ofExcept, ht]
      refine ⟨?_, by simp⟩
      rintro _ ⟨⟩
      exact wp_scanAll hp hoff hd (fun hf ↦ hf.elim) (fun _ hf ↦ hf.elim) trivial
        (Entries.readBack_eq sz hshort)
    · omega

end Exact

end SSTable

end KeyValStore
