import KeyValStore.Model.Io
import KeyValStore.Model.Bloom
import KeyValStore.Search.UpperBound

/-!
# The sorted table file

`SSTable::build` writes data entries, Bloom section, index section and a 16-byte footer;
`load_meta` reads the last three back; `lookup` and `scan_all` read the data section.  A stream
that is read is what is left of the file, with the position where the code asks for it.
-/

set_option autoImplicit false

namespace KeyValStore

open Crash

/-- An entry as `scan_all` returns it. -/
structure SSTEntry where
  /-- The key. -/
  key : Bytes
  /-- The value. -/
  value : Bytes
  /-- Is the entry a tombstone? -/
  tombstone : Bool
  deriving DecidableEq, Repr

/-- A point of the sparse index. -/
structure IndexPoint where
  /-- The key of the entry the point is at. -/
  key : Bytes := []
  /-- Where that entry starts. -/
  offset : ℕ := 0
  deriving DecidableEq, Repr

/-- The result of a lookup in one table. -/
inductive LookupResult
  | notFound
  | tombstone
  | found (value : Bytes)
  deriving DecidableEq, Repr

/-- An open table. -/
structure SSTable where
  /-- `path_`. -/
  path : Name
  /-- `index_`. -/
  index : List IndexPoint := []
  /-- `bloom_offset_`. -/
  bloomOffset : ℕ := 0
  /-- `index_offset_`. -/
  indexOffset : ℕ := 0
  /-- `bloom_`. -/
  bloom : BloomFilter := .empty

namespace SSTable

variable {μ : Type}

/-- One index point for every so many entries. -/
def indexStride : ℕ := 16

/-! ## Building -/

/-- The byte that says whether an entry is a tombstone. -/
def flagsOf (entry : MemEntry) : UInt8 := if entry.tombstone then 1 else 0

/-- Note an index point at every `indexStride`-th entry. -/
def notePoint (f : Name) (key : Bytes) (n : ℕ) (sparse : List IndexPoint) :
    Io μ (List IndexPoint) :=
  if n % indexStride = 0 then do return sparse ++ [⟨key, ← tell f⟩] else return sparse

/-- The loop of `build` over the entries; `n` counts them, and `sparse` collects index points. -/
def writeEntries (f : Name) : List (Bytes × MemEntry) → ℕ → List IndexPoint →
    Io μ (List IndexPoint)
  | [], _, sparse => return sparse
  | (key, entry) :: rest, n, sparse => do
    let sparse ← notePoint f key n sparse
    wstr f key
    fwrite f [flagsOf entry]
    wstr f entry.value
    writeEntries f rest (n + 1) sparse

/-- `SSTable::build`. -/
def build (sz : Sizing) (path : Name) (entries : Entries) : Io μ Unit := do
  call (.mark (.build path entries))
  if !(← openTrunc path) then Prog.throw (.sstBuild path)
  let bloom := entries.keys.foldl BloomFilter.add (.sized sz entries.size)
  let sparse ← writeEntries path entries.toList 0 []
  let bloomOffset ← tell path
  wu32 path bloom.numBits
  fwrite path bloom.bits
  let indexOffset ← tell path
  wu32 path sparse.length
  forM sparse fun ip ↦ do
    wstr path ip.key
    wu64 path ip.offset
  wu64 path bloomOffset
  wu64 path indexOffset
  call (.flush path)
  call (.sync path)
  call (.close path)

/-! ## Opening -/

/-- The offsets that `fseek64` takes if the file system has no limit of its own: those that are not
negative as an `int64_t`. -/
def seekable (off : ℕ) : Bool := off < 2 ^ 63

/-- `fseek64(f, off, SEEK_SET)` on the file `bs`, with the stream at `cur`: where an offset is
refused the stream stays where it is. -/
def seek (ok : ℕ → Bool) (bs cur : Bytes) (off : ℕ) : Bytes := if ok off then bs.drop off else cur

/-- What a failed `rstr` leaves in its string: `resize`, then whatever `fread` could read. -/
def rstrLeft (s : Bytes) : Bytes :=
  match ru32 s with
  | none => []
  | some (len, s) => s ++ List.replicate (len - s.length) 0

/-- The loop of `load_meta` over `count` index points, which stops at the first it cannot read.  An
offset that is cut short is what there is of it. -/
def readIndex : ℕ → Bytes → List IndexPoint
  | 0, _ => []
  | count + 1, s =>
    match rstr s with
    | none => ⟨rstrLeft s, 0⟩ :: List.replicate count {}
    | some (key, s) =>
      match ru64 s with
      | none => ⟨key, Codec.ofLE s⟩ :: List.replicate count {}
      | some (offset, s) => ⟨key, offset⟩ :: readIndex count s

/-- The Bloom section of `load_meta`: the filter, and where the stream is afterwards. -/
def readBloom (s : Bytes) : Except Error (BloomFilter × Bytes) :=
  match ru32 s with
  | none => .ok (.empty, [])
  | some (numBits, s) =>
    let byteLen := (numBits + 7) % 2 ^ 32 / 8
    if byteLen ≤ s.length then do
      let bloom ← BloomFilter.ofRaw (s.take byteLen) byteLen numBits
      return (bloom, s.drop byteLen)
    else .ok (.empty, [])

/-- Where `load_meta` reads the footer: on a shorter file the seek to it fails, and the stream stays
at the start. -/
def footer (bs : Bytes) : Bytes := bs.drop (if 16 ≤ bs.length then bs.length - 16 else 0)

/-- `load_meta` on the content of the file.  A number that is cut short is what there is of it. -/
def loadMeta (path : Name) (bs : Bytes) (ok : ℕ → Bool := seekable) : Except Error SSTable :=
  match ru64 (footer bs) with
  | none => .ok { path, bloomOffset := Codec.ofLE (footer bs) }
  | some (bloomOffset, s) =>
    match ru64 s with
    | none => .ok { path, bloomOffset, indexOffset := Codec.ofLE s }
    | some (indexOffset, s) => do
      let (bloom, s) ← readBloom (seek ok bs s bloomOffset)
      match ru32 (seek ok bs s indexOffset) with
      | none => return { path, bloomOffset, indexOffset, bloom }
      | some (count, s) =>
        return { path, bloomOffset, indexOffset, bloom, index := readIndex count s }

/-- `SSTable::SSTable`. -/
def «open» (path : Name) (ok : ℕ → Bool := seekable) : Io μ SSTable := do
  match ← readFile path with
  | none => Prog.throw (.sstOpen path)
  | some bs => Prog.ofExcept (loadMeta path bs ok)

/-! ## Reading -/

/-- One turn of the loops of `lookup` and `scan_all`: key, flags and value of an entry. -/
def readEntry (s : Bytes) : Option ((Bytes × UInt8 × Bytes) × Bytes) := do
  let (key, s) ← rstr s
  match s with
  | [] => none
  | flags :: s => do
    let (value, s) ← rstr s
    some ((key, flags, value), s)

/-- Does the flag byte mark a tombstone? -/
def isTombstone (flags : UInt8) : Bool := flags &&& 1 ≠ 0

theorem readEntry_consumes {s t : Bytes} {e : Bytes × UInt8 × Bytes}
    (h : readEntry s = some (e, t)) : t.length < s.length := by
  have hr : ∀ {s t k : Bytes}, rstr s = some (k, t) → t.length ≤ s.length := by
    intro s t k h
    simp only [rstr, ru32, Option.bind_eq_bind, Option.bind_eq_some_iff] at h
    obtain ⟨⟨len, u⟩, hu, h⟩ := h
    have := Codec.readLE_length hu
    split at h
    · simp only [Option.some_inj, Prod.mk.injEq] at h
      rw [← h.2, List.length_drop]
      omega
    · simp at h
  simp only [readEntry, Option.bind_eq_bind, Option.bind_eq_some_iff] at h
  obtain ⟨⟨key, s1⟩, h1, h⟩ := h
  have hk := hr h1
  cases s1 with
  | nil => simp at h
  | cons flags s1 =>
    simp only [Option.bind_eq_some_iff] at h
    obtain ⟨⟨value, s2⟩, h2, h3⟩ := h
    have hv := hr h2
    simp only [Option.some_inj, Prod.mk.injEq] at h3
    simp only [List.length_cons] at hk
    rw [← h3.2]
    omega

/-- The loop of `lookup`, at position `pos` with `s` left of the file. -/
def scanFor (bloomOffset : ℕ) (key : Bytes) (pos : ℕ) (s : Bytes) : LookupResult :=
  if pos < bloomOffset then
    match _h : readEntry s with
    | none => .notFound
    | some ((k, flags, v), t) =>
      if k = key then if isTombstone flags then .tombstone else .found v
      else if compare k key = .gt then .notFound
      else scanFor bloomOffset key (pos + (s.length - t.length)) t
  else .notFound
termination_by s.length
decreasing_by exact readEntry_consumes _h

/-- The loop of `scan_all`. -/
def scanEntries (bloomOffset pos : ℕ) (s : Bytes) : List SSTEntry :=
  if pos < bloomOffset then
    match _h : readEntry s with
    | none => []
    | some ((key, flags, value), t) =>
      ⟨key, value, isTombstone flags⟩ :: scanEntries bloomOffset (pos + (s.length - t.length)) t
  else []
termination_by s.length
decreasing_by exact readEntry_consumes _h

/-- The index point `lookup` starts from: the last one whose key is not above `key`. -/
def seekPoint (t : SSTable) (key : Bytes) : Option IndexPoint :=
  let it := Search.upperBound (fun i ↦ compare key (t.index.getD i {}).key = .lt) 0 t.index.length
  if it = 0 then none else some (t.index.getD (it - 1) {})

/-- `SSTable::lookup`. -/
def lookup (t : SSTable) (key : Bytes) (ok : ℕ → Bool := seekable) : Io μ LookupResult := do
  if !t.bloom.mayContain key then return .notFound
  if t.index.isEmpty then return .notFound
  match t.seekPoint key with
  | none => return .notFound
  | some ip =>
    match ← readFile t.path with
    | none => return .notFound
    | some bs =>
      let pos := if ok ip.offset then ip.offset else 0
      return scanFor t.bloomOffset key pos (bs.drop pos)

/-- `SSTable::scan_all`. -/
def scanAll (t : SSTable) : Io μ (List SSTEntry) := do
  match ← readFile t.path with
  | none => return []
  | some bs => return scanEntries t.bloomOffset 0 bs

end SSTable

end KeyValStore
