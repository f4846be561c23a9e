import KeyValStore.SSTable.Lookup

/-!
# What a scan reads

`scanReads` lists the stretches of the file that the loop of `scan_all` reads: the scan depends on
nothing else of the file (`scanEntries_congr`).  In a table that was built they end where the data
section ends, and the scan returns exactly the entries of the map (`scan_exact`).

The second half is about files that hold anything, and file systems that refuse to seek to any
offsets they like.  Whatever `load_meta` accepts has a filter whose bit array is long enough for its
size and an index that is searched within its bounds (`Safe`), and a scan returns at most one entry
for nine bytes of the file (`readsSafely`).
-/

set_option autoImplicit false

namespace KeyValStore

open Crash Std

namespace SSTable

/-! ## The stretches a scan reads -/

/-- The bytes of a stretch of a file. -/
def stretch (bs : Bytes) (r : ℕ × ℕ) : Bytes := (bs.drop r.1).take (r.2 - r.1)

/-- A stretch that goes on to the end of a file, and finds out that it is the end, is the end of
every file that agrees on it. -/
theorem drop_of_stretch {bs bs' : Bytes} {pos : ℕ}
    (h : stretch bs' (pos, pos + (bs.drop pos).length + 1) =
      stretch bs (pos, pos + (bs.drop pos).length + 1)) : bs'.drop pos = bs.drop pos := by
  rw [stretch, stretch, Nat.add_assoc, Nat.add_sub_cancel_left,
    List.take_of_length_le (Nat.le_succ (bs.drop pos).length)] at h
  have hlen := congrArg List.length h
  rw [List.length_take] at hlen
  rwa [List.take_of_length_le (by omega)] at h

/-- An entry that is read from a stretch is read from every file that agrees on it. -/
theorem readEntry_of_stretch {bs bs' t : Bytes} {pos : ℕ} {e : Bytes × UInt8 × Bytes}
    (hr : readEntry (bs.drop pos) = some (e, t)) {n : ℕ} (hn : (bs.drop pos).length - t.length = n)
    (h : stretch bs' (pos, pos + n) = stretch bs (pos, pos + n)) :
    t = bs.drop (pos + n) ∧ readEntry (bs'.drop pos) = some (e, bs'.drop (pos + n)) ∧
      (bs'.drop pos).length - (bs'.drop (pos + n)).length = n := by
  obtain ⟨hvalid, hs⟩ := entryCodec.enc_of_run hr
  have hlen : (entryCodec.enc e).length = n := by
    rw [← hn, hs, List.length_append, Nat.add_sub_cancel]
  rw [stretch, stretch, Nat.add_sub_cancel_left, hs, List.take_left' hlen] at h
  have hs' : bs'.drop pos = entryCodec.enc e ++ bs'.drop (pos + n) := by
    rw [← List.drop_drop, ← h, List.take_append_drop]
  refine ⟨?_, ?_, ?_⟩
  · rw [← List.drop_drop, hs, List.drop_left' hlen]
  · rw [hs']
    exact entryCodec.run_enc _ hvalid
  · rw [hs', List.length_append, Nat.add_sub_cancel, hlen]

/-- The stretches of the file that `scanEntries` reads, one for each turn of the loop: where it
starts and where it ends.  A turn that finds no entry reads all that is left, and finds out that
this is all. -/
def scanReads (bloomOffset pos : ℕ) (s : Bytes) : List (ℕ × ℕ) :=
  if pos < bloomOffset then
    match _h : readEntry s with
    | none => [(pos, pos + s.length + 1)]
    | some (_, t) => (pos, pos + (s.length - t.length)) ::
      scanReads bloomOffset (pos + (s.length - t.length)) t
  else []
termination_by s.length
decreasing_by exact readEntry_consumes _h

theorem scanReads_of_ge {off pos : ℕ} (s : Bytes) (hpos : off ≤ pos) :
    scanReads off pos s = [] := by
  rw [scanReads, if_neg (by omega)]

theorem scanReads_of_none {off pos : ℕ} {s : Bytes} (hpos : pos < off) (h : readEntry s = none) :
    scanReads off pos s = [(pos, pos + s.length + 1)] := by
  rw [scanReads, if_pos hpos]
  split
  · rfl
  · rename_i hsome
    rw [h] at hsome
    simp at hsome

theorem scanReads_of_some {off pos : ℕ} {s t : Bytes} {e : Bytes × UInt8 × Bytes} (hpos : pos < off)
    (h : readEntry s = some (e, t)) : scanReads off pos s =
      (pos, pos + (s.length - t.length)) :: scanReads off (pos + (s.length - t.length)) t := by
  rw [scanReads, if_pos hpos]
  split
  · rename_i hnone
    rw [h] at hnone
    simp at hnone
  · rename_i hsome
    rw [h, Option.some_inj, Prod.mk.injEq] at hsome
    obtain ⟨rfl, rfl⟩ := hsome
    rfl

/-- **The scan depends on what it reads.** -/
theorem scanEntries_congr {off pos : ℕ} {bs bs' : Bytes}
    (h : ∀ r ∈ scanReads off pos (bs.drop pos), stretch bs' r = stretch bs r) :
    scanEntries off pos (bs'.drop pos) = scanEntries off pos (bs.drop pos) := by
  induction hn : (bs.drop pos).length using Nat.strong_induction_on generalizing pos with
  | _ n ih =>
    by_cases hpos : pos < off
    · cases hr : readEntry (bs.drop pos) with
      | none =>
        rw [scanReads_of_none hpos hr, List.forall_mem_singleton] at h
        rw [drop_of_stretch h]
      | some p =>
        obtain ⟨⟨k, fl, v⟩, t⟩ := p
        rw [scanReads_of_some hpos hr, List.forall_mem_cons] at h
        obtain ⟨ht, hr', hstep⟩ := readEntry_of_stretch hr rfl h.1
        have hlt := readEntry_consumes hr
        have hrest := h.2
        rw [scanEntries_of_some hpos hr, scanEntries_of_some hpos hr', hstep]
        generalize (bs.drop pos).length - t.length = step at ht hrest
        subst ht
        rw [ih _ (hn ▸ hlt) hrest rfl]
    · rw [scanEntries_of_ge _ (Nat.le_of_not_lt hpos), scanEntries_of_ge _ (Nat.le_of_not_lt hpos)]

/-- A scan of the data section reads nothing behind it. -/
theorem scanReads_dataBytes {es : List (Bytes × MemEntry)} (h : ∀ e ∈ es, ShortEntry e) (pos : ℕ)
    (s : Bytes) : ∀ r ∈ scanReads (pos + (dataBytes es).length) pos (dataBytes es ++ s),
      r.2 ≤ pos + (dataBytes es).length := by
  induction es generalizing pos with
  | nil =>
    rw [dataBytes_nil, List.length_nil, scanReads_of_ge _ (Nat.add_zero pos).le]
    simp
  | cons e es ih =>
    rw [List.forall_mem_cons] at h
    obtain ⟨hlt, hsplit, hstep, hend⟩ := scan_step pos e es s
    rw [hsplit, scanReads_of_some hlt (readEntry_entryBytes h.1 _), hstep, hend,
      List.forall_mem_cons]
    exact ⟨Nat.le_add_right _ _, ih h.2 _⟩

/-! ## An exact scan -/

section Exact

variable {μ : Type}

/-- An entry is scanned exactly if the map has it. -/
theorem mem_scanned {entries : Entries} {e : SSTEntry} :
    e ∈ entries.scanned ↔ entries[e.key]? = some ⟨e.value, e.tombstone⟩ := by
  rw [← ExtTreeMap.mem_toList_iff_getElem?_eq_some, Entries.scanned, List.mem_map]
  constructor
  · rintro ⟨e', he, rfl⟩
    exact he
  · exact fun he ↦ ⟨_, he, rfl⟩

theorem sorted_scanned (entries : Entries) :
    entries.scanned.Pairwise fun a b ↦ compare a.key b.key = .lt :=
  List.pairwise_map.2 (sorted_toList entries)

/-- A scan gives the same over every file that agrees on what it reads. -/
theorem returns_scanAll_agreeing {t : SSTable} {bs bs' : Bytes} {m : μ} {d : Disk}
    (hd : (d[t.path]?).map File.content = some bs')
    (h : ∀ r ∈ scanReads t.bloomOffset 0 bs, stretch bs' r = stretch bs r) :
    (t.scanAll : Io μ _).Returns reliable m d fun es m' d' ↦
      es = scanEntries t.bloomOffset 0 bs ∧ m' = m ∧ d' = d := by
  refine Prog.returns_of_wp ?_
  refine (wp_bind _ _).2 (wp_readFile (fun hf ↦ hf.elim) trivial (fun _ hf ↦ hf.elim) fun _ ↦ ?_)
  rw [hd]
  exact ⟨@scanEntries_congr _ 0 _ _ h, rfl, rfl⟩

/-- **Build, then scan**: all entries of the map, each once and in the order of the keys.  The scan
does not read into the sections behind the data: what it reads lies in the data section, and it
returns the same over every file that agrees with the table there. -/
theorem scan_exact {sz : Sizing} {entries : Entries} (h : Fits sz entries) (path : Name) (m : μ)
    (d : Disk) :
    (buildAndScan sz path entries).Returns reliable m d (fun es _ _ ↦
      (∀ e, e ∈ es ↔ entries[e.key]? = some ⟨e.value, e.tombstone⟩) ∧
        es.Pairwise fun a b ↦ compare a.key b.key = .lt) ∧
    ∃ t, loadMeta path (image sz entries) = .ok t ∧
      (∀ r ∈ scanReads t.bloomOffset 0 (image sz entries), r.2 ≤ bloomStart entries) ∧
      ∀ (bs : Bytes) (d' : Disk), (d'[path]?).map File.content = some bs →
        (∀ r ∈ scanReads t.bloomOffset 0 (image sz entries),
          stretch bs r = stretch (image sz entries) r) →
        (t.scanAll : Io μ _).Returns reliable m d' fun es m' d'' ↦
          es = entries.scanned ∧ m' = m ∧ d'' = d' := by
  have hret := (buildAndScan_iff h.length_image_lt path m d).2 ⟨h.shortEntry, h.openable.m_lt⟩
  refine ⟨fun tr o hx ↦ ?_, _, h.openable.loadMeta_image path, ?_, fun bs d' hd hbs ↦ ?_⟩
  · rcases hret tr o hx with hcut | ⟨es, m', d', rfl, rfl⟩
    · exact .inl hcut
    · exact .inr ⟨_, _, _, rfl, fun _ ↦ mem_scanned, sorted_scanned entries⟩
  · have hreads := scanReads_dataBytes h.shortEntry 0 (bloomBytes (bloomOf sz entries) ++
      (indexBytes (sparseOf entries) ++ (Codec.le 8 (bloomStart entries) ++
        Codec.le 8 (indexStart sz entries))))
    rw [Nat.zero_add] at hreads
    rw [image]
    simp only [List.append_assoc]
    exact hreads
  · have hscan := returns_scanAll_agreeing (m := m) (t := loaded sz path entries) hd hbs
    rwa [show scanEntries (loaded sz path entries).bloomOffset 0 (image sz entries) =
      entries.scanned from Entries.readBack_eq sz h.shortEntry] at hscan

theorem scan_exact_twenty :
    (buildAndScan .onePercent [116] twenty).Returns reliable () ∅ (fun es _ _ ↦
      (∀ e, e ∈ es ↔ twenty[e.key]? = some ⟨e.value, e.tombstone⟩) ∧
        es.Pairwise fun a b ↦ compare a.key b.key = .lt) ∧
    ∃ t, loadMeta [116] (image .onePercent twenty) = .ok t ∧
      (∀ r ∈ scanReads t.bloomOffset 0 (image .onePercent twenty), r.2 ≤ bloomStart twenty) ∧
      ∀ (bs : Bytes) (d' : Disk), (d'[([116] : Name)]?).map File.content = some bs →
        (∀ r ∈ scanReads t.bloomOffset 0 (image .onePercent twenty),
          stretch bs r = stretch (image .onePercent twenty) r) →
        (t.scanAll : Io Unit _).Returns reliable () d' fun es m' d'' ↦
          es = twenty.scanned ∧ m' = () ∧ d'' = d' :=
  scan_exact fits_twenty [116] () ∅

end Exact

/-! ## An arbitrary file -/

/-- **The search for an index point** asks only about points that are there, whatever a `p` says of
others. -/
theorem seekPoint_congr (t : SSTable) {key : Bytes} {p : ℕ → Bool}
    (h : ∀ i, ∀ hi : i < t.index.length, p i = decide (compare key t.index[i].key = .lt)) :
    t.seekPoint key = if Search.upperBound p 0 t.index.length = 0 then none
      else t.index[Search.upperBound p 0 t.index.length - 1]? := by
  have hit : Search.upperBound (fun i ↦ decide (compare key (t.index.getD i {}).key = .lt)) 0
      t.index.length = Search.upperBound p 0 t.index.length := by
    refine Search.upperBound_congr fun i _ hi ↦ ?_
    rw [Nat.zero_add] at hi
    rw [h i hi, List.getD_eq_getElem _ _ hi]
  have hle := (Search.upperBound_mem p 0 t.index.length).2
  simp only [seekPoint, hit]
  split
  · rfl
  · rename_i hne
    have hlt : Search.upperBound p 0 t.index.length - 1 < t.index.length := by omega
    rw [List.getElem?_eq_getElem hlt, List.getD_eq_getElem _ _ hlt]

/-- The point that is found is one of the index. -/
theorem seekPoint_mem (t : SSTable) (key : Bytes) : t.seekPoint key = none ∨
    ∃ i, ∃ h : i < t.index.length, t.seekPoint key = some t.index[i] := by
  have hle := (Search.upperBound_mem (fun i ↦ compare key (t.index.getD i {}).key = .lt) 0
    t.index.length).2
  simp only [seekPoint]
  split
  · exact .inl rfl
  · have hlt : Search.upperBound (fun i ↦ compare key (t.index.getD i {}).key = .lt) 0
        t.index.length - 1 < t.index.length := by omega
    exact .inr ⟨_, hlt, by rw [List.getD_eq_getElem _ _ hlt]⟩

/-- An open table that can be read without leaving its bit array or its index. -/
structure Safe (t : SSTable) : Prop where
  /-- Every probe position has a bit. -/
  bits : ∀ key, ∀ i ∈ t.bloom.probePositions key,
    i.toNat < t.bloom.m.toNat ∧ (i >>> 3).toNat < t.bloom.bits.length
  /-- The filter answers from bits below its size. -/
  tested : ∀ (key : Bytes) (g : BloomFilter), g.m = t.bloom.m →
    (∀ i : UInt64, i.toNat < t.bloom.m.toNat → g.getBit i = t.bloom.getBit i) →
    g.mayContain key = t.bloom.mayContain key
  /-- What `lookup` starts from is a point of the index, -/
  found : ∀ key, t.seekPoint key = none ∨
    ∃ i, ∃ h : i < t.index.length, t.seekPoint key = some t.index[i]
  /-- and only points that are there are looked at to find it. -/
  searched : ∀ (key : Bytes) (p : ℕ → Bool),
    (∀ i, ∀ hi : i < t.index.length, p i = decide (compare key t.index[i].key = .lt)) →
    t.seekPoint key = if Search.upperBound p 0 t.index.length = 0 then none
      else t.index[Search.upperBound p 0 t.index.length - 1]?

theorem Safe.of_sound {t : SSTable} (h : t.bloom.Sound) : t.Safe where
  bits _ _ hi := ⟨BloomFilter.lt_of_mem_probePositions h.1 hi,
    BloomFilter.inRange_of_mem_probePositions h hi⟩
  tested key _ hm hg := BloomFilter.mayContain_congr h.1 hm hg key
  found := t.seekPoint_mem
  searched _ _ := t.seekPoint_congr

/-- A filter that can be read back from bytes has a bit for every position, whatever they are. -/
theorem sound_ofRaw {data : Bytes} {numBits : ℕ} {f : BloomFilter} (hn : numBits < 2 ^ 32)
    (h : BloomFilter.ofRaw data data.length numBits = .ok f) : f.Sound := by
  have hm : 1 ≤ (nextPow2 (UInt64.ofNat numBits)).toNat ∧
      (nextPow2 (UInt64.ofNat numBits)).toNat ≤ 2 ^ 32 := by
    by_cases h0 : UInt64.ofNat numBits = 0
    · rw [h0]
      decide
    have hv : (UInt64.ofNat numBits).toNat = numBits := by
      rw [UInt64.toNat_ofNat', Nat.mod_eq_of_lt (by omega)]
    have hle : 2 ^ (numBits - 1).size ≤ 2 ^ 32 :=
      Nat.pow_le_pow_right (by omega) (Nat.size_le.2 (by omega))
    rw [toNat_nextPow2 h0, hv, Nat.mod_eq_of_lt (by omega)]
    exact ⟨Nat.one_le_two_pow, hle⟩
  have hlen := BloomFilter.toNat_byteLen (m := nextPow2 (UInt64.ofNat numBits)) (by omega)
  rw [BloomFilter.ofRaw] at h
  split at h
  · simp at h
  · rename_i hge
    obtain rfl := Except.ok.inj h
    refine ⟨fun h0 ↦ ?_, ?_⟩
    · have hzero : nextPow2 (UInt64.ofNat numBits) = 0 := h0
      rw [hzero] at hm
      simp at hm
    · show (data.take _).length = _
      rw [List.length_take, ← hlen]
      omega

theorem sound_empty : BloomFilter.empty.Sound := ⟨by decide, rfl⟩

theorem sound_readBloom {s t : Bytes} {f : BloomFilter} (h : readBloom s = .ok (f, t)) :
    f.Sound := by
  rw [readBloom] at h
  split at h
  · obtain ⟨rfl, -⟩ := Prod.mk.inj (Except.ok.inj h)
    exact sound_empty
  · rename_i numBits s' hru
    have hn : numBits < 2 ^ 32 := (Codec.readLE_eq_some hru).1
    dsimp only at h
    generalize (numBits + 7) % 2 ^ 32 / 8 = byteLen at h
    split at h
    · rename_i hle
      have hlen : (s'.take byteLen).length = byteLen := by
        rw [List.length_take, Nat.min_eq_left hle]
      cases hraw : BloomFilter.ofRaw (s'.take byteLen) byteLen numBits with
      | error e =>
        rw [hraw] at h
        cases h
      | ok g =>
        rw [hraw] at h
        obtain ⟨rfl, -⟩ := Prod.mk.inj (Except.ok.inj h)
        have hraw' : BloomFilter.ofRaw (s'.take byteLen) (s'.take byteLen).length numBits =
            .ok g := by
          rw [hlen, hraw]
        exact sound_ofRaw hn hraw'
    · obtain ⟨rfl, -⟩ := Prod.mk.inj (Except.ok.inj h)
      exact sound_empty

/-- Whatever is opened has a filter that can be searched. -/
theorem loadMeta_eq_ok {path : Name} {bs : Bytes} {ok : ℕ → Bool} {t : SSTable}
    (h : loadMeta path bs ok = .ok t) : t.path = path ∧ t.bloom.Sound := by
  rw [loadMeta] at h
  split at h
  · obtain rfl := Except.ok.inj h
    exact ⟨rfl, sound_empty⟩
  · rename_i bloomOffset s₁ hru₁
    split at h
    · obtain rfl := Except.ok.inj h
      exact ⟨rfl, sound_empty⟩
    · rename_i indexOffset s₂ hru₂
      cases hbloom : readBloom (seek ok bs s₂ bloomOffset) with
      | error e =>
        rw [hbloom] at h
        cases h
      | ok r =>
        obtain ⟨f, s₃⟩ := r
        have hsound := sound_readBloom hbloom
        rw [hbloom] at h
        simp only [bind, Except.bind] at h
        split at h <;> obtain rfl := Except.ok.inj h <;> exact ⟨rfl, hsound⟩

/-- An entry takes nine bytes or more. -/
theorem length_scanEntries_le (off pos : ℕ) (s : Bytes) :
    9 * (scanEntries off pos s).length ≤ s.length := by
  induction pos, s using scanEntries.induct off with
  | case1 pos s hpos hnone =>
    rw [scanEntries_of_none hnone]
    simp
  | case2 pos s hpos key flags value t hsome ih =>
    obtain ⟨-, hs⟩ := entryCodec.enc_of_run hsome
    have hlen : s.length = 9 + key.length + value.length + t.length := by
      rw [hs]
      show (strBytes key ++ [flags] ++ strBytes value ++ t).length = _
      simp only [List.length_append, length_strBytes, List.length_singleton]
      omega
    rw [scanEntries_of_some hpos hsome, List.length_cons]
    omega
  | case3 pos s hpos =>
    rw [scanEntries_of_ge s (by omega)]
    simp

section Programs

variable {μ : Type} {m : μ} {d : Disk} {ok : ℕ → Bool}

/-- A lookup in an open table comes to an end, whatever the table is. -/
theorem returns_lookup (t : SSTable) (key : Bytes) :
    (t.lookup key ok : Io μ _).Returns reliable m d fun _ _ d' ↦ d' = d := by
  refine Prog.returns_of_wp ?_
  rw [lookup, wp_ite]
  split
  · rfl
  rw [wp_ite]
  split
  · rfl
  cases t.seekPoint key with
  | none => rfl
  | some ip =>
    refine (wp_bind _ _).2 (wp_readFile (fun hf ↦ hf.elim) trivial (fun _ hf ↦ hf.elim) fun _ ↦ ?_)
    cases (d[t.path]?).map File.content <;> rfl

/-- A scan returns at most one entry for nine bytes of the file. -/
theorem returns_scanAll {t : SSTable} {bs : Bytes} (hd : (d[t.path]?).map File.content = some bs) :
    (t.scanAll : Io μ _).Returns reliable m d fun es _ d' ↦ 9 * es.length ≤ bs.length ∧ d' = d := by
  refine Prog.returns_of_wp ?_
  refine (wp_bind _ _).2 (wp_readFile (fun hf ↦ hf.elim) trivial (fun _ hf ↦ hf.elim) fun _ ↦ ?_)
  rw [hd]
  exact ⟨length_scanEntries_le _ _ _, rfl⟩

/-- Opening the file `path`, which holds `bs`, throws or gives a table whose lookups and scans come
to an end, stay within the bit array and the index, and return at most one entry for nine bytes.
The file system seeks to the offsets that are `ok`. -/
def ReadsSafely (ok : ℕ → Bool) (path : Name) (bs : Bytes) (m : μ) (d : Disk) : Prop :=
  ∀ tr o, Exec reliable (SSTable.open path ok) m d tr o →
    (∃ d', o = .cut d') ∨ (∃ e m' d', o = .threw e m' d') ∨ ∃ t, o = .ok t m d ∧ t.Safe ∧
      (∀ key, (t.lookup key ok : Io μ _).Returns reliable m d fun _ _ d' ↦ d' = d) ∧
      (t.scanAll : Io μ _).Returns reliable m d fun es _ d' ↦ 9 * es.length ≤ bs.length ∧ d' = d

/-- **Opening and reading an arbitrary file is safe**, whatever it holds. -/
theorem readsSafely {path : Name} {bs : Bytes} (hd : (d[path]?).map File.content = some bs) :
    ReadsSafely ok path bs m d := by
  intro tr o hx
  have hwp : (SSTable.open path ok : Io μ _).wp reliable .blind
      (fun t m' d' ↦ loadMeta path bs ok = .ok t ∧ m' = m ∧ d' = d) (fun _ _ _ ↦ True) m d := by
    rw [SSTable.open, wp_bind]
    refine wp_readFile (fun hf ↦ hf.elim) trivial (fun _ hf ↦ hf.elim) fun _ ↦ ?_
    rw [hd]
    exact (wp_ofExcept _).2 ⟨fun t ht ↦ ⟨ht, rfl, rfl⟩, fun _ _ ↦ trivial⟩
  obtain ⟨-, ho⟩ := hx.of_wp (fun _ _ ↦ trivial) hwp
  cases o with
  | cut d' => exact .inl ⟨d', rfl⟩
  | threw e m' d' => exact .inr (.inl ⟨e, m', d', rfl⟩)
  | ok t m' d' =>
    obtain ⟨ht, rfl, rfl⟩ := ho
    obtain ⟨rfl, hsound⟩ := loadMeta_eq_ok ht
    exact .inr (.inr ⟨t, rfl, .of_sound hsound, returns_lookup t, returns_scanAll hd⟩)

/-- A file of sixteen bytes that are all ones. -/
theorem readsSafely_ones : ReadsSafely seekable [116] (List.replicate 16 255) ()
    ((∅ : Disk).insert [116] (.saved (List.replicate 16 255))) :=
  readsSafely (by rw [ExtTreeMap.getElem?_insert_self, Option.map_some, File.content_saved])

end Programs

end SSTable

end KeyValStore
