import KeyValStore.Model.Text

/-!
# The Bloom filter

The two hash functions, the probe positions, and the two constructors.  The sizing constructor
computes its target bit count in floating point; that number is a parameter, `Sizing`.
-/

set_option autoImplicit false

namespace KeyValStore

open Crash

/-- The floating-point part of the sizing constructor: the value of `std::ceil(bits_exact)` for a
filter of `n` keys, where `bits_exact` is `-n · ln(FPR) / (ln 2)²`. -/
structure Sizing where
  /-- The target number of bits for `n` keys. -/
  ceilBits : ℕ → ℕ
  /-- No key, no bits. -/
  ceilBits_zero : ceilBits 0 = 0
  /-- At the false-positive rate of one percent a key takes 9.58 bits. -/
  nine_mul_le : ∀ n, 9 * n ≤ ceilBits n

/-- The target at nine decimals: a key takes 9.585058378 bits. -/
def Sizing.onePercent : Sizing where
  ceilBits n := (9585058378 * n + 999999999) / 1000000000
  ceilBits_zero := rfl
  nine_mul_le n := by omega

/-- `next_pow2`.  The loop runs while `i < 64`, doubling `i`. -/
def nextPow2 (v : UInt64) : UInt64 :=
  if v = 0 then 1
  else ([1, 2, 4, 8, 16, 32] : List UInt64).foldl (fun v i ↦ v ||| (v >>> i)) (v - 1) + 1

/-- `fnv1a_a`. -/
def fnv1aA (s : Bytes) : UInt64 :=
  s.foldl (fun h c ↦ (h ^^^ c.toUInt64) * 1099511628211) 14695981039346656037

/-- `fnv1a_b`. -/
def fnv1aB (s : Bytes) : UInt64 :=
  s.foldl (fun h c ↦ (h ^^^ c.toUInt64) * 0x00000100000001b3) 0xcbf29ce484222325 ||| 1

/-- A Bloom filter: the number of bits, and the packed bits. -/
structure BloomFilter where
  /-- `m_`. -/
  m : UInt64
  /-- `bits_`. -/
  bits : Bytes

namespace BloomFilter

/-- The number of probes for a key. -/
def K : ℕ := 7

/-- `probe_positions`. -/
def probePositions (f : BloomFilter) (key : Bytes) : List UInt64 :=
  (List.range K).map fun i ↦ (fnv1aA key + i.toUInt64 * fnv1aB key) &&& (f.m - 1)

/-- `set_bit`. -/
def setBit (f : BloomFilter) (i : UInt64) : BloomFilter :=
  ⟨f.m, f.bits.modify (i >>> 3).toNat (· ||| (1 <<< (i &&& 7).toUInt8))⟩

/-- `get_bit`. -/
def getBit (f : BloomFilter) (i : UInt64) : Bool :=
  ((f.bits.getD (i >>> 3).toNat 0) >>> (i &&& 7).toUInt8) &&& 1 = 1

/-- The sizing constructor. -/
def sized (sz : Sizing) (n : ℕ) : BloomFilter :=
  let m := nextPow2 (UInt64.ofNat (sz.ceilBits n))
  let m := if m < 64 then 64 else m
  ⟨m, List.replicate ((m + 7) / 8).toNat 0⟩

/-- The filter of a fresh `SSTable` object: what the sizing constructor makes for no keys. -/
def empty : BloomFilter := ⟨64, List.replicate 8 0⟩

/-- The constructor from the bytes of a file. -/
def ofRaw (data : Bytes) (byteLen numBits : ℕ) : Except Error BloomFilter :=
  let m := nextPow2 (UInt64.ofNat numBits)
  if byteLen < ((m + 7) / 8).toNat then .error .bloomTruncated
  else .ok ⟨m, data.take ((m + 7) / 8).toNat⟩

/-- `num_bits`: a cast to 32 bits. -/
def numBits (f : BloomFilter) : ℕ := f.m.toNat % 2 ^ 32

/-- `BloomFilter::add`. -/
def add (f : BloomFilter) (key : Bytes) : BloomFilter := (f.probePositions key).foldl setBit f

/-- `BloomFilter::may_contain`. -/
def mayContain (f : BloomFilter) (key : Bytes) : Bool := (f.probePositions key).all f.getBit

end BloomFilter

end KeyValStore
