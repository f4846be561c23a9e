import KeyValStore.Records.Rules

/-!
# The file `SSTable::build` writes

`SSTable.image sz entries` is the content of the file a table of `entries` is built into, section by
section, and `wp_build` says that this is what the program `SSTable.build` leaves under its path: no
other file is touched, and whenever a call is issued on the way the directory differs from the one
the build started in at most at that path.
-/

set_option autoImplicit false

namespace KeyValStore

open Crash Std

namespace SSTable

/-! ## The sections -/

/-- The index points of the entries from the `n`-th on, the first of which starts at `off`. -/
def sparseFrom : ℕ → ℕ → List (Bytes × MemEntry) → List IndexPoint
  | _, _, [] => []
  | off, n, e :: es =>
    (if n % indexStride = 0 then [⟨e.1, off⟩] else []) ++
      sparseFrom (off + (entryBytes e).length) (n + 1) es

/-- The sparse index of a table. -/
def sparseOf (entries : Entries) : List IndexPoint := sparseFrom 0 0 entries.toList

/-- The Bloom filter of a table. -/
def bloomOf (sz : Sizing) (entries : Entries) : BloomFilter :=
  entries.keys.foldl BloomFilter.add (.sized sz entries.size)

/-- The Bloom section. -/
def bloomBytes (f : BloomFilter) : Bytes := Codec.le 4 f.numBits ++ f.bits

/-- The bytes of one index point. -/
def pointBytes (ip : IndexPoint) : Bytes := strBytes ip.key ++ Codec.le 8 ip.offset

/-- The index section. -/
def indexBytes (sparse : List IndexPoint) : Bytes :=
  Codec.le 4 sparse.length ++ sparse.flatMap pointBytes

/-- Where the Bloom section starts. -/
def bloomStart (entries : Entries) : ℕ := (dataBytes entries.toList).length

/-- Where the index section starts. -/
def indexStart (sz : Sizing) (entries : Entries) : ℕ :=
  bloomStart entries + (bloomBytes (bloomOf sz entries)).length

/-- **The file of a table.** -/
def image (sz : Sizing) (entries : Entries) : Bytes :=
  dataBytes entries.toList ++ bloomBytes (bloomOf sz entries) ++ indexBytes (sparseOf entries) ++
    Codec.le 8 (bloomStart entries) ++ Codec.le 8 (indexStart sz entries)

/-! ## What the program writes -/

section Build

variable {F : Faults Mark} {μ : Type} {W : Watch (Call Mark) μ Disk} {E : Error → μ → Disk → Prop}
  {m : μ} {d : Disk} {f : Name}

theorem wp_notePoint {Q : List IndexPoint → μ → Disk → Prop} (hw : Allows W (Disk.AgreeOff f d))
    {key p : Bytes} {n : ℕ} {sparse : List IndexPoint}
    (h : Q (sparse ++ if n % indexStride = 0 then [⟨key, p.length⟩] else []) m
      (d.insert f ⟨[], p⟩)) :
    (notePoint f key n sparse : Io μ _).wp (device F) W Q E m (d.insert f ⟨[], p⟩) := by
  rw [notePoint]
  split
  · rename_i hn
    rw [if_pos hn] at h
    rw [wp_bind]
    exact wp_tell_insert hw h
  · rename_i hn
    rwa [if_neg hn, List.append_nil] at h

theorem wp_writeEntries {Q : List IndexPoint → μ → Disk → Prop} (hs : ∀ bs, ¬F.short (.write f bs))
    (hw : Allows W (Disk.AgreeOff f d)) {es : List (Bytes × MemEntry)} {n : ℕ}
    {sparse : List IndexPoint} {p : Bytes}
    (h : Q (sparse ++ sparseFrom p.length n es) m (d.insert f ⟨[], p ++ dataBytes es⟩)) :
    (writeEntries f es n sparse : Io μ _).wp (device F) W Q E m (d.insert f ⟨[], p⟩) := by
  induction es generalizing n sparse p with
  | nil => simpa [writeEntries, sparseFrom, dataBytes] using h
  | cons e es ih =>
    obtain ⟨key, entry⟩ := e
    simp only [writeEntries, wp_bind]
    refine wp_notePoint hw (wp_wstr hs hw (wp_fwrite hs hw (wp_wstr hs hw (ih ?_))))
    have hp : p ++ strBytes key ++ [flagsOf entry] ++ strBytes entry.value
        = p ++ entryBytes (key, entry) := by
      simp [entryBytes]
    rw [hp, List.length_append]
    simpa [sparseFrom, dataBytes] using h

theorem wp_writeIndex {Q : PUnit → μ → Disk → Prop} (hs : ∀ bs, ¬F.short (.write f bs))
    (hw : Allows W (Disk.AgreeOff f d)) {sparse : List IndexPoint} {p : Bytes}
    (h : Q () m (d.insert f ⟨[], p ++ sparse.flatMap pointBytes⟩)) :
    (forM sparse fun ip ↦ do wstr f ip.key; wu64 f ip.offset : Io μ _).wp (device F) W Q E m
      (d.insert f ⟨[], p⟩) := by
  induction sparse generalizing p with
  | nil => simpa using h
  | cons ip sparse ih =>
    simp only [List.forM_cons, wp_bind]
    refine wp_wstr hs hw (wp_wu64 hs hw (ih ?_))
    simpa [pointBytes] using h

/-- **What `SSTable::build` does.**  It throws when the file cannot be opened; otherwise it leaves
the image of the table, durable, and nothing else has changed. -/
theorem wp_build {sz : Sizing} {entries : Entries} {Q : Unit → μ → Disk → Prop} (hF : Throwing F)
    (hs : ∀ bs, ¬F.short (.write f bs)) (hmark : W.always ⟨.mark (.build f entries), m, d⟩)
    (h : W.assume ⟨.mark (.build f entries), m, d⟩ → Allows W (Disk.AgreeOff f d) ∧
      (F.refuse (.openTrunc f) → E (.sstBuild f) m d) ∧
      Q () m (d.insert f (.saved (image sz entries)))) :
    (build sz f entries : Io μ Unit).wp (device F) W Q E m d := by
  rw [build, wp_bind, wp_call, wp_mark]
  refine ⟨hmark, fun hA ↦ ?_⟩
  obtain ⟨hw, hthrew, hok⟩ := h hA
  rw [wp_bind]
  refine wp_openTrunc (hw _ _ _ rfl (.refl f d)) (fun hf ↦ ?_) (fun _ ↦ ?_)
  · simpa using hthrew hf
  simp only [Bool.not_true, Bool.false_eq_true, if_false, wp_bind]
  refine wp_writeEntries hs hw (wp_tell_insert hw (wp_wu32 hs hw (wp_fwrite hs hw
    (wp_tell_insert hw (wp_wu32 hs hw (wp_writeIndex hs hw (wp_wu64 hs hw (wp_wu64 hs hw
    (wp_call_flush hF hw (wp_call_sync hF hw (wp_call_close hF hw ?_)))))))))))
  convert hok using 3
  simp [image, File.content, bloomBytes, indexBytes, sparseOf, bloomStart, indexStart, bloomOf]

end Build

end SSTable

end KeyValStore
