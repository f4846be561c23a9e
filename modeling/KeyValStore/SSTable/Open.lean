import KeyValStore.SSTable.Image
import KeyValStore.Bloom.Filter

/-!
# Opening a built table

`SSTable.Fits` says that a map of entries can be written and read back: its strings are short and
its Bloom filter stays below `2 ^ 32` bits.  For such a map the three offsets of the footer are
exact, and `load_meta` on the image gives back the filter and the sparse index that were built
(`Fits.loaded_eq`).

A table can be opened under the weaker condition `Openable`, which does not look at the strings;
then the sparse index is whatever can be read back of it (`loaded`).
-/

set_option autoImplicit false

namespace KeyValStore

open Crash Std

namespace SSTable

/-- A map of entries whose table can be read back: all strings are short, and the Bloom filter,
whose size is rounded up to a power of two, stays below `2 ^ 32` bits. -/
structure Fits (sz : Sizing) (entries : Entries) : Prop where
  /-- All strings are short. -/
  short : ∀ (key : Bytes) (e : MemEntry), entries[key]? = some e → Short key ∧ Short e.value
  /-- The Bloom filter has at most `2 ^ 31` bits. -/
  bloom : sz.ceilBits entries.size ≤ 2 ^ 31

theorem Fits.shortEntry {sz : Sizing} {entries : Entries} (h : Fits sz entries) :
    ∀ e ∈ entries.toList, ShortEntry e :=
  fun e he ↦ h.short e.1 e.2 (ExtTreeMap.mem_toList_iff_getElem?_eq_some.1 he)

/-- A map of entries whose table can be opened again: a file can hold it, and its Bloom filter stays
below `2 ^ 32` bits. -/
structure Openable (sz : Sizing) (entries : Entries) : Prop where
  /-- The image has a length a file can have. -/
  file : (image sz entries).length < 2 ^ 63
  /-- The Bloom filter has at most `2 ^ 31` bits. -/
  bloom : sz.ceilBits entries.size ≤ 2 ^ 31

/-- The open table over an image, with what is read back of the sparse index. -/
def loaded (sz : Sizing) (path : Name) (entries : Entries) : SSTable where
  path
  index := readIndex ((sparseOf entries).length % 2 ^ 32)
    ((sparseOf entries).flatMap pointBytes ++ (Codec.le 8 (bloomStart entries) ++
      Codec.le 8 (indexStart sz entries)))
  bloomOffset := bloomStart entries
  indexOffset := indexStart sz entries
  bloom := bloomOf sz entries

/-- The open table over an image whose strings are short. -/
def tableOf (sz : Sizing) (path : Name) (entries : Entries) : SSTable where
  path
  index := sparseOf entries
  bloomOffset := bloomStart entries
  indexOffset := indexStart sz entries
  bloom := bloomOf sz entries

/-! ## The Bloom section -/

theorem m_bloomOf (sz : Sizing) (entries : Entries) :
    (bloomOf sz entries).m = (BloomFilter.sized sz entries.size).m :=
  BloomFilter.m_addAll _ _

theorem sound_bloomOf (sz : Sizing) (entries : Entries) : (bloomOf sz entries).Sound :=
  BloomFilter.sound_addAll (BloomFilter.sound_sized sz _) _

/-- A filter of less than `2 ^ 32` bits is read back as it was written, whatever follows it. -/
theorem readBloom_of_small {f : BloomFilter} (hf : f.Sound) {k : ℕ} (h3 : 3 ≤ k) (hk : k ≤ 31)
    (hm : f.m.toNat = 2 ^ k) (s : Bytes) : readBloom (bloomBytes f ++ s) = .ok (f, s) := by
  obtain ⟨hlen, hraw⟩ := BloomFilter.ofRaw_bits hf hk hm h3
  have hnum : f.numBits % 256 ^ 4 = f.numBits := Nat.mod_mod _ _
  rw [readBloom, bloomBytes, List.append_assoc, ru32, Codec.readLE_le_append, hnum]
  simp only [hlen]
  rw [if_pos (by simp), List.take_left, hraw, List.drop_left]
  rfl

/-- A filter of `2 ^ 32` bits or more cannot be read back. -/
theorem readBloom_of_huge {f : BloomFilter} {k : ℕ} (hk : 32 ≤ k)
    (hm : f.m.toNat = 2 ^ k) (s : Bytes) :
    readBloom (bloomBytes f ++ s) = .error .bloomTruncated := by
  obtain ⟨hnum, hraw⟩ := BloomFilter.ofRaw_of_large hk hm []
  rw [readBloom, bloomBytes, List.append_assoc, ru32, Codec.readLE_le_append, hnum]
  simp only [Nat.zero_mod, Nat.zero_add, if_true, Nat.zero_le, List.take_zero,
    show 7 % 2 ^ 32 / 8 = 0 from rfl]
  rw [hnum] at hraw
  exact congrArg (· >>= _) hraw

/-- The filter is read back from its section with its size and its bits, whatever follows it. -/
def BloomSurvives (f : BloomFilter) : Prop :=
  ∀ s, ∃ g, readBloom (bloomBytes f ++ s) = .ok (g, s) ∧ g.m = f.m ∧ g.bits = f.bits ∧
    ∀ key, g.mayContain key = f.mayContain key

/-- **When a Bloom filter survives the file.**  The target of the sizing constructor must not be
above `2 ^ 31`, unless it is so large that rounding it up overflows. -/
theorem bloomSurvives_iff (target : UInt64) (keys : List Bytes) :
    BloomSurvives (keys.foldl BloomFilter.add (.ofTarget target)) ↔
      target.toNat ≤ 2 ^ 31 ∨ 2 ^ 63 < target.toNat := by
  obtain ⟨k, h6, -, hm, h31⟩ := BloomFilter.exists_ofTarget_m target
  have hsound := BloomFilter.sound_addAll (BloomFilter.sound_ofTarget target) keys
  rw [← BloomFilter.m_addAll _ keys] at hm
  rw [← h31]
  constructor
  · intro h
    by_contra hk
    obtain ⟨g, hg, -⟩ := h []
    rw [readBloom_of_huge (by omega) hm] at hg
    simp at hg
  · exact fun hk s ↦ ⟨_, readBloom_of_small hsound (by omega) hk hm s, rfl, rfl, fun _ ↦ rfl⟩

/-- One bit more, and the size is cut to zero when it is written. -/
theorem not_bloomSurvives_large :
    ¬BloomSurvives ([[107]].foldl BloomFilter.add (.ofTarget 2147483649)) := by
  obtain ⟨k, -, -, hm, h31⟩ := BloomFilter.exists_ofTarget_m 2147483649
  have hlarge : ¬((2147483649 : UInt64).toNat ≤ 2 ^ 31 ∨ 2 ^ 63 < (2147483649 : UInt64).toNat) := by
    decide
  have hk : 32 ≤ k := by
    by_contra h
    exact hlarge (h31.1 (by omega))
  rw [← BloomFilter.m_addAll _ [[107]]] at hm
  intro h
  obtain ⟨g, hg, -⟩ := h []
  rw [readBloom_of_huge hk hm] at hg
  simp at hg

theorem readBloom_bloomBytes {sz : Sizing} {entries : Entries}
    (h : (BloomFilter.sized sz entries.size).m.toNat < 2 ^ 32) (s : Bytes) :
    readBloom (bloomBytes (bloomOf sz entries) ++ s) = .ok (bloomOf sz entries, s) := by
  obtain ⟨k, h6, -, hm, -⟩ := BloomFilter.exists_sized_m sz entries.size
  have hk : k ≤ 31 := by
    rw [hm] at h
    have := (Nat.pow_lt_pow_iff_right (a := 2) (by omega)).1 h
    omega
  rw [← m_bloomOf] at hm
  exact readBloom_of_small (sound_bloomOf sz entries) (by omega) hk hm s

theorem readBloom_of_large {sz : Sizing} {entries : Entries}
    (h : 2 ^ 32 ≤ (BloomFilter.sized sz entries.size).m.toNat) (s : Bytes) :
    readBloom (bloomBytes (bloomOf sz entries) ++ s) = .error .bloomTruncated := by
  obtain ⟨k, -, -, hm, -⟩ := BloomFilter.exists_sized_m sz entries.size
  have hk : 32 ≤ k := by
    rw [hm] at h
    exact (Nat.pow_le_pow_iff_right (a := 2) (by omega)).1 h
  rw [← m_bloomOf] at hm
  exact readBloom_of_huge hk hm s

/-! ## The index section -/

theorem readIndex_points {sparse : List IndexPoint}
    (h : ∀ ip ∈ sparse, Short ip.key ∧ ip.offset < 2 ^ 64) (s : Bytes) :
    readIndex sparse.length (sparse.flatMap pointBytes ++ s) = sparse := by
  induction sparse with
  | nil => rfl
  | cons ip sparse ih =>
    rw [List.forall_mem_cons] at h
    obtain ⟨⟨hk, ho⟩, h⟩ := h
    have hoff : ip.offset % 256 ^ 8 = ip.offset := Nat.mod_eq_of_lt ho
    rw [List.length_cons, List.flatMap_cons, List.append_assoc, pointBytes, List.append_assoc,
      readIndex, rstr_strBytes hk]
    simp only [ru64, Codec.readLE_le_append, hoff]
    rw [ih h]

/-- **The points of the sparse index**: each is the key of an entry, with the position at which that
entry starts. -/
theorem mem_sparseFrom {es : List (Bytes × MemEntry)} {off n : ℕ} {ip : IndexPoint}
    (h : ip ∈ sparseFrom off n es) : ∃ as e bs, es = as ++ e :: bs ∧ ip.key = e.1 ∧
      ip.offset = off + (dataBytes as).length := by
  induction es generalizing off n with
  | nil => simp [sparseFrom] at h
  | cons e es ih =>
    rw [sparseFrom, List.mem_append] at h
    rcases h with h | h
    · split at h
      · rw [List.mem_singleton.1 h]
        exact ⟨[], e, es, rfl, rfl, rfl⟩
      · simp at h
    · obtain ⟨as, e', bs, rfl, hk, ho⟩ := ih h
      refine ⟨e :: as, e', bs, rfl, hk, ?_⟩
      rw [ho, dataBytes_cons, List.length_append, Nat.add_assoc]

theorem length_sparseFrom_le (es : List (Bytes × MemEntry)) (off n : ℕ) :
    (sparseFrom off n es).length ≤ es.length := by
  induction es generalizing off n with
  | nil => rfl
  | cons e es ih =>
    rw [sparseFrom, List.length_append, List.length_cons]
    have := ih (off + (entryBytes e).length) (n + 1)
    split <;> simp only [List.length_singleton, List.length_nil] <;> omega

/-! ## Sizes -/

theorem length_dataBytes_le {es : List (Bytes × MemEntry)} (h : ∀ e ∈ es, ShortEntry e) :
    (dataBytes es).length ≤ es.length * 2 ^ 34 := by
  induction es with
  | nil => simp
  | cons e es ih =>
    rw [List.forall_mem_cons] at h
    have hk : e.1.length < 2 ^ 32 := h.1.1
    have hv : e.2.value.length < 2 ^ 32 := h.1.2
    have := ih h.2
    rw [dataBytes_cons, List.length_append, length_entryBytes, List.length_cons]
    omega

theorem length_points_le {sparse : List IndexPoint} (h : ∀ ip ∈ sparse, Short ip.key) :
    (sparse.flatMap pointBytes).length ≤ sparse.length * 2 ^ 33 := by
  induction sparse with
  | nil => simp
  | cons ip sparse ih =>
    rw [List.forall_mem_cons] at h
    have hk : ip.key.length < 2 ^ 32 := h.1
    have := ih h.2
    rw [List.flatMap_cons, List.length_append, pointBytes, List.length_append, length_strBytes,
      Codec.length_le, List.length_cons]
    omega

theorem length_bloomBytes_lt (sz : Sizing) (entries : Entries)
    (h : sz.ceilBits entries.size ≤ 2 ^ 31) :
    (bloomBytes (bloomOf sz entries)).length < 2 ^ 30 := by
  obtain ⟨k, -, -, hm, hk⟩ := BloomFilter.exists_sized_m sz entries.size
  have : 2 ^ k ≤ 2 ^ 31 := Nat.pow_le_pow_right (by omega) (hk h)
  rw [bloomBytes, List.length_append, Codec.length_le, (sound_bloomOf sz entries).2, m_bloomOf, hm]
  omega

section Sizes

variable {sz : Sizing} {entries : Entries}

theorem Fits.short_sparse (h : Fits sz entries) {ip : IndexPoint} (hip : ip ∈ sparseOf entries) :
    Short ip.key ∧ ip.offset ≤ bloomStart entries := by
  obtain ⟨as, e, bs, hes, hk, ho⟩ := mem_sparseFrom hip
  refine ⟨hk ▸ (h.shortEntry e (by simp [hes])).1, ?_⟩
  rw [ho, bloomStart, hes, dataBytes_append, List.length_append]
  omega

theorem length_image (sz : Sizing) (entries : Entries) : (image sz entries).length =
    indexStart sz entries + (indexBytes (sparseOf entries)).length + 16 := by
  simp only [image, List.length_append, Codec.length_le, indexStart, bloomStart]

theorem Fits.length_image_lt (h : Fits sz entries) : (image sz entries).length < 2 ^ 63 := by
  have hn := (sz.nine_mul_le entries.size).trans h.bloom
  have hdata := length_dataBytes_le h.shortEntry
  have hbloom := length_bloomBytes_lt sz entries h.bloom
  have hsparse := length_sparseFrom_le entries.toList 0 0
  have hpoints := length_points_le fun ip hip ↦ (h.short_sparse hip).1
  rw [ExtTreeMap.length_toList] at hdata hsparse
  rw [sparseOf] at hpoints
  rw [length_image, indexStart, bloomStart, indexBytes, List.length_append, Codec.length_le,
    sparseOf]
  omega

theorem Fits.length_sparse_lt (h : Fits sz entries) : (sparseOf entries).length < 2 ^ 32 := by
  have hn := (sz.nine_mul_le entries.size).trans h.bloom
  have hsparse := length_sparseFrom_le entries.toList 0 0
  rw [ExtTreeMap.length_toList] at hsparse
  rw [sparseOf]
  omega

theorem Fits.openable (h : Fits sz entries) : Openable sz entries := ⟨h.length_image_lt, h.bloom⟩

theorem Openable.m_lt (h : Openable sz entries) :
    (BloomFilter.sized sz entries.size).m.toNat < 2 ^ 32 := by
  obtain ⟨k, -, -, hm, hk⟩ := BloomFilter.exists_sized_m sz entries.size
  have : 2 ^ k ≤ 2 ^ 31 := Nat.pow_le_pow_right (by omega) (hk h.bloom)
  omega

end Sizes

/-! ## The footer -/

theorem seekable_of_lt {off : ℕ} (h : off < 2 ^ 63) : seekable off = true := decide_eq_true h

/-- `load_meta` on an image that a file can hold: the offsets are exact, and the rest depends on
what can be read back of the Bloom section. -/
theorem loadMeta_image (sz : Sizing) (path : Name) (entries : Entries)
    (h : (image sz entries).length < 2 ^ 63) : ∃ s,
    loadMeta path (image sz entries) = (do
      let (bloom, _) ← readBloom (bloomBytes (bloomOf sz entries) ++ s)
      return {
        path, bloom
        bloomOffset := bloomStart entries
        indexOffset := indexStart sz entries
        index := readIndex ((sparseOf entries).length % 2 ^ 32)
          ((sparseOf entries).flatMap pointBytes ++ (Codec.le 8 (bloomStart entries) ++
            Codec.le 8 (indexStart sz entries))) }) := by
  have hlen := length_image sz entries
  have hbi : bloomStart entries ≤ indexStart sz entries := Nat.le_add_right _ _
  have hb : bloomStart entries % 256 ^ 8 = bloomStart entries := Nat.mod_eq_of_lt (by omega)
  have hi : indexStart sz entries % 256 ^ 8 = indexStart sz entries := Nat.mod_eq_of_lt (by omega)
  have hfoot : footer (image sz entries) =
      Codec.le 8 (bloomStart entries) ++ (Codec.le 8 (indexStart sz entries) ++ []) := by
    rw [footer, if_pos (by omega), hlen, Nat.add_sub_cancel, image, List.append_assoc,
        List.drop_left' (by
      simp [indexStart, bloomStart, Nat.add_assoc]), List.append_nil]
  have hbloom : (image sz entries).drop (bloomStart entries) =
      bloomBytes (bloomOf sz entries) ++ (indexBytes (sparseOf entries) ++
        (Codec.le 8 (bloomStart entries) ++ Codec.le 8 (indexStart sz entries))) := by
    rw [image, List.append_assoc, List.append_assoc, List.append_assoc, bloomStart,
      List.drop_left' rfl]
  have hindex : (image sz entries).drop (indexStart sz entries) =
      Codec.le 4 (sparseOf entries).length ++ ((sparseOf entries).flatMap pointBytes ++
        (Codec.le 8 (bloomStart entries) ++ Codec.le 8 (indexStart sz entries))) := by
    rw [image, List.append_assoc, List.append_assoc, List.drop_left' (by
      rw [List.length_append]; rfl), indexBytes, List.append_assoc]
  refine ⟨indexBytes (sparseOf entries) ++ (Codec.le 8 (bloomStart entries) ++
    Codec.le 8 (indexStart sz entries)), ?_⟩
  rw [loadMeta, hfoot, ru64, Codec.readLE_le_append, hb]
  simp only [ru64, Codec.readLE_le_append, hi]
  simp only [seek, seekable_of_lt (show bloomStart entries < 2 ^ 63 by omega),
    seekable_of_lt (show indexStart sz entries < 2 ^ 63 by omega), if_true, hbloom, hindex, ru32,
    Codec.readLE_le_append]
  rfl

/-- **Opening an image.** -/
theorem Openable.loadMeta_image {sz : Sizing} {entries : Entries} (h : Openable sz entries)
    (path : Name) : loadMeta path (image sz entries) = .ok (loaded sz path entries) := by
  obtain ⟨s, hs⟩ := SSTable.loadMeta_image sz path entries h.file
  rw [hs, readBloom_bloomBytes h.m_lt]
  rfl

/-- **Opening an image gives back what was built**, when all strings are short. -/
theorem Fits.loaded_eq {sz : Sizing} {entries : Entries} (h : Fits sz entries) (path : Name) :
    loaded sz path entries = tableOf sz path entries := by
  have hlen := h.length_image_lt
  have hpoints : ∀ ip ∈ sparseOf entries, Short ip.key ∧ ip.offset < 2 ^ 64 := fun ip hip ↦ by
    obtain ⟨hk, ho⟩ := h.short_sparse hip
    have hle : bloomStart entries ≤ indexStart sz entries := Nat.le_add_right _ _
    rw [length_image] at hlen
    exact ⟨hk, by omega⟩
  rw [loaded, Nat.mod_eq_of_lt h.length_sparse_lt, readIndex_points hpoints]
  rfl

end SSTable

end KeyValStore
