import KeyValStore.Bloom.NextPow2

/-!
# The filter answers for the keys that were added

A filter is `Sound` when its size is positive and every position below it has a bit.  Adding keys
keeps that, never clears a bit, and sets the bits the key is looked up by, so a key that was added
is never denied (`mayContain_of_added`).  A filter of less than `2 ^ 32` bits is read back from the
bytes it was written as (`ofRaw_bits`).
-/

set_option autoImplicit false

namespace KeyValStore

open Crash

/-! ## Bits of a byte -/

theorem shiftRight_and_one (b s : UInt8) (hs : s.toNat < 8) :
    ((b >>> s) &&& 1 = 1) ↔ b.toNat.testBit s.toNat = true := by
  rw [← UInt8.toNat_inj, UInt8.toNat_and, UInt8.toNat_shiftRight, Nat.mod_eq_of_lt hs,
    UInt8.toNat_one, Nat.and_one_is_mod, Nat.shiftRight_eq_div_pow,
    Nat.testBit_eq_decide_div_mod_eq, decide_eq_true_eq]

theorem testBit_or_shiftLeft (b s : UInt8) (hs : s.toNat < 8) (i : ℕ) :
    (b ||| (1 <<< s)).toNat.testBit i = (b.toNat.testBit i || decide (i = s.toNat)) := by
  have hpow : 2 ^ s.toNat < 2 ^ 8 := Nat.pow_lt_pow_right (by omega) hs
  rw [UInt8.toNat_or, UInt8.toNat_shiftLeft, Nat.mod_eq_of_lt hs, UInt8.toNat_one,
    Nat.shiftLeft_eq, Nat.one_mul, Nat.mod_eq_of_lt hpow, Nat.testBit_or, Nat.testBit_two_pow]
  congr 1
  rw [decide_eq_decide]
  exact eq_comm

theorem toNat_bitOf (i : UInt64) : (i &&& 7).toUInt8.toNat < 8 := by
  rw [UInt64.toNat_toUInt8, UInt64.toNat_and]
  have : i.toNat &&& (7 : UInt64).toNat ≤ 7 := Nat.and_le_right
  omega

namespace BloomFilter

/-! ## Setting and testing bits -/

/-- The filter has a bit for every position below its size. -/
def Sound (f : BloomFilter) : Prop := f.m ≠ 0 ∧ f.bits.length = (f.m.toNat + 7) / 8

/-- The position is one of the filter's. -/
def InRange (f : BloomFilter) (i : UInt64) : Prop := (i >>> 3).toNat < f.bits.length

@[simp] theorem m_setBit (f : BloomFilter) (i : UInt64) : (f.setBit i).m = f.m := rfl

@[simp] theorem length_bits_setBit (f : BloomFilter) (i : UInt64) :
    (f.setBit i).bits.length = f.bits.length := by
  simp [setBit]

theorem getBit_iff (f : BloomFilter) (i : UInt64) : f.getBit i = true ↔
    (f.bits.getD (i >>> 3).toNat 0).toNat.testBit (i &&& 7).toUInt8.toNat = true := by
  rw [getBit, decide_eq_true_eq, shiftRight_and_one _ _ (toNat_bitOf i)]

/-- Setting a bit clears none. -/
theorem getBit_setBit_of_getBit {f : BloomFilter} {i j : UInt64} (h : f.getBit j = true) :
    (f.setBit i).getBit j = true := by
  rw [getBit_iff] at h ⊢
  simp only [setBit, List.getD_eq_getElem?_getD, List.getElem?_modify] at h ⊢
  cases hb : f.bits[(j >>> 3).toNat]? with
  | none =>
    rw [hb, Option.getD_none] at h
    simp at h
  | some b =>
    rw [hb, Option.getD_some] at h
    rw [Option.map_eq_map, Option.map_some, Option.getD_some]
    split
    · rw [testBit_or_shiftLeft _ _ (toNat_bitOf i), h, Bool.true_or]
    · exact h

theorem getBit_setBit_self {f : BloomFilter} {i : UInt64} (h : f.InRange i) :
    (f.setBit i).getBit i = true := by
  rw [getBit_iff]
  simp only [setBit, List.getD_eq_getElem?_getD, List.getElem?_modify]
  rw [List.getElem?_eq_getElem h, Option.map_eq_map, Option.map_some, Option.getD_some]
  simp only [if_true]
  rw [testBit_or_shiftLeft _ _ (toNat_bitOf i), decide_eq_true rfl, Bool.or_true]

theorem toNat_shiftRight_three (i : UInt64) : (i >>> 3).toNat = i.toNat / 8 := by
  rw [UInt64.toNat_shiftRight]
  exact Nat.shiftRight_eq_div_pow i.toNat 3

theorem toNat_and_seven (i : UInt64) : (i &&& 7).toUInt8.toNat = i.toNat % 8 := by
  have hmask : i.toNat &&& (7 : UInt64).toNat = i.toNat % 8 :=
    Nat.and_two_pow_sub_one_eq_mod i.toNat 3
  rw [UInt64.toNat_toUInt8, UInt64.toNat_and, hmask]
  omega

/-- Setting a bit changes no other. -/
theorem getBit_setBit_of_ne {f : BloomFilter} {i j : UInt64} (h : j ≠ i) :
    (f.setBit i).getBit j = f.getBit j := by
  have hne : ¬(i.toNat / 8 = j.toNat / 8 ∧ j.toNat % 8 = i.toNat % 8) := fun hsame ↦
    h (UInt64.toNat_inj.1 (by omega))
  rw [Bool.eq_iff_iff, getBit_iff, getBit_iff]
  simp only [setBit, List.getD_eq_getElem?_getD, List.getElem?_modify, toNat_shiftRight_three]
  cases hb : f.bits[j.toNat / 8]? with
  | none => rfl
  | some b =>
    rw [Option.map_eq_map, Option.map_some, Option.getD_some, Option.getD_some]
    split
    · rename_i hbyte
      rw [testBit_or_shiftLeft _ _ (toNat_bitOf i), toNat_and_seven, toNat_and_seven,
        decide_eq_false fun hbit ↦ hne ⟨hbyte, hbit⟩, Bool.or_false]
    · rfl

theorem sound_setBit {f : BloomFilter} (h : f.Sound) (i : UInt64) : (f.setBit i).Sound := by
  rwa [Sound, m_setBit, length_bits_setBit]

theorem m_foldl_setBit (f : BloomFilter) (l : List UInt64) : (l.foldl setBit f).m = f.m := by
  induction l generalizing f with
  | nil => rfl
  | cons i l ih => rw [List.foldl_cons, ih, m_setBit]

theorem sound_foldl_setBit {f : BloomFilter} (h : f.Sound) (l : List UInt64) :
    (l.foldl setBit f).Sound := by
  induction l generalizing f with
  | nil => exact h
  | cons i l ih => exact ih (sound_setBit h i)

theorem getBit_foldl_setBit_of_getBit {f : BloomFilter} {j : UInt64} (h : f.getBit j = true)
    (l : List UInt64) : (l.foldl setBit f).getBit j = true := by
  induction l generalizing f with
  | nil => exact h
  | cons i l ih => exact ih (getBit_setBit_of_getBit h)

theorem getBit_foldl_setBit_of_mem {f : BloomFilter} {j : UInt64} {l : List UInt64} (hj : j ∈ l)
    (hr : f.InRange j) : (l.foldl setBit f).getBit j = true := by
  induction l generalizing f with
  | nil => simp at hj
  | cons i l ih =>
    rcases List.mem_cons.1 hj with rfl | hj
    · exact getBit_foldl_setBit_of_getBit (getBit_setBit_self hr) l
    · exact ih hj (by rwa [InRange, length_bits_setBit])

theorem mem_of_getBit_foldl_setBit_ne {f : BloomFilter} {j : UInt64} {l : List UInt64}
    (h : (l.foldl setBit f).getBit j ≠ f.getBit j) : j ∈ l := by
  induction l generalizing f with
  | nil => exact absurd rfl h
  | cons i l ih =>
    by_cases hj : j = i
    · exact hj ▸ List.mem_cons_self
    · have hstep : (f.setBit i).getBit j = f.getBit j := getBit_setBit_of_ne hj
      rw [List.foldl_cons, ← hstep] at h
      exact List.mem_cons_of_mem i (ih h)

/-! ## Probe positions -/

/-- A probe position lies below the size of the filter. -/
theorem lt_of_mem_probePositions {f : BloomFilter} (h0 : f.m ≠ 0) {key : Bytes} {i : UInt64}
    (h : i ∈ f.probePositions key) : i.toNat < f.m.toNat := by
  rw [probePositions, List.mem_map] at h
  obtain ⟨k, -, rfl⟩ := h
  have hpos : 1 ≤ f.m.toNat := Nat.one_le_iff_ne_zero.2 fun h ↦ h0 (UInt64.toNat_inj.1 h)
  have hsub : (f.m - 1).toNat = f.m.toNat - 1 := by
    rw [UInt64.toNat_sub_of_le f.m 1 (UInt64.le_iff_toNat_le.2 hpos)]
    rfl
  rw [UInt64.toNat_and, hsub]
  have : ∀ a, a &&& (f.m.toNat - 1) ≤ f.m.toNat - 1 := fun a ↦ Nat.and_le_right
  exact lt_of_le_of_lt (this _) (by omega)

theorem inRange_of_mem_probePositions {f : BloomFilter} (hf : f.Sound) {key : Bytes} {i : UInt64}
    (h : i ∈ f.probePositions key) : f.InRange i := by
  have hi := lt_of_mem_probePositions hf.1 h
  rw [InRange, hf.2, UInt64.toNat_shiftRight]
  change i.toNat >>> 3 < _
  rw [Nat.shiftRight_eq_div_pow]
  omega

/-- The positions of a key depend on the size of the filter only. -/
theorem probePositions_congr {f g : BloomFilter} (h : f.m = g.m) (key : Bytes) :
    f.probePositions key = g.probePositions key := by
  rw [probePositions, probePositions, h]

/-- **A lookup tests** bits below the size of the filter only. -/
theorem mayContain_congr {f g : BloomFilter} (h0 : f.m ≠ 0) (hm : g.m = f.m)
    (h : ∀ i : UInt64, i.toNat < f.m.toNat → g.getBit i = f.getBit i) (key : Bytes) :
    g.mayContain key = f.mayContain key := by
  rw [mayContain, mayContain, probePositions_congr hm, Bool.eq_iff_iff, List.all_eq_true,
    List.all_eq_true]
  exact forall₂_congr fun i hi ↦ by rw [h i (lt_of_mem_probePositions h0 hi)]

/-! ## Adding keys -/

theorem sound_add {f : BloomFilter} (h : f.Sound) (key : Bytes) : (f.add key).Sound :=
  sound_foldl_setBit h _

@[simp] theorem m_add (f : BloomFilter) (key : Bytes) : (f.add key).m = f.m :=
  m_foldl_setBit f _

theorem mayContain_add {f : BloomFilter} (h : f.Sound) (key : Bytes) :
    (f.add key).mayContain key = true := by
  rw [mayContain, List.all_eq_true, probePositions_congr (m_add f key)]
  exact fun i hi ↦ getBit_foldl_setBit_of_mem hi (inRange_of_mem_probePositions h hi)

theorem mayContain_add_of_mayContain {f : BloomFilter} {key : Bytes} (h : f.mayContain key = true)
    (key' : Bytes) : (f.add key').mayContain key = true := by
  rw [mayContain, List.all_eq_true] at h ⊢
  rw [probePositions_congr (m_add f key')]
  exact fun i hi ↦ getBit_foldl_setBit_of_getBit (h i hi) _

theorem getBit_addAll_of_getBit {f : BloomFilter} {i : UInt64} (h : f.getBit i = true)
    (keys : List Bytes) : (keys.foldl add f).getBit i = true := by
  induction keys generalizing f with
  | nil => exact h
  | cons k keys ih => exact ih (getBit_foldl_setBit_of_getBit h _)

theorem m_addAll (f : BloomFilter) (keys : List Bytes) : (keys.foldl add f).m = f.m := by
  induction keys generalizing f with
  | nil => rfl
  | cons k keys ih => rw [List.foldl_cons, ih, m_add]

theorem sound_addAll {f : BloomFilter} (h : f.Sound) (keys : List Bytes) :
    (keys.foldl add f).Sound := by
  induction keys generalizing f with
  | nil => exact h
  | cons k keys ih => exact ih (sound_add h k)

theorem mayContain_addAll_of_mayContain {f : BloomFilter} {key : Bytes}
    (h : f.mayContain key = true) (keys : List Bytes) :
    (keys.foldl add f).mayContain key = true := by
  induction keys generalizing f with
  | nil => exact h
  | cons k keys ih => exact ih (mayContain_add_of_mayContain h k)

/-- A key that has been added is found. -/
theorem mayContain_addAll {f : BloomFilter} (h : f.Sound) {key : Bytes} {keys : List Bytes}
    (hk : key ∈ keys) : (keys.foldl add f).mayContain key = true := by
  induction keys generalizing f with
  | nil => simp at hk
  | cons k keys ih =>
    rcases List.mem_cons.1 hk with rfl | hk
    · exact mayContain_addAll_of_mayContain (mayContain_add h _) keys
    · exact ih (sound_add h k) hk

/-! ## Sizes -/

/-- The sizing constructor, from its target number of bits on. -/
def ofTarget (target : UInt64) : BloomFilter :=
  let m := nextPow2 target
  let m := if m < 64 then 64 else m
  ⟨m, List.replicate ((m + 7) / 8).toNat 0⟩

/-- **The size of a filter** is a power of two from 64 on, whatever the target.  It is below
`2 ^ 32` if the target is not above `2 ^ 31`, or so large that rounding it up overflows. -/
theorem exists_ofTarget_m (target : UInt64) : ∃ k, 6 ≤ k ∧ k ≤ 63 ∧
    (ofTarget target).m.toNat = 2 ^ k ∧
    (k ≤ 31 ↔ target.toNat ≤ 2 ^ 31 ∨ 2 ^ 63 < target.toNat) := by
  have hsmall : nextPow2 target < 64 → (ofTarget target).m.toNat = 2 ^ 6 := fun h ↦ by
    simp [ofTarget, h]
  by_cases h0 : target = 0
  · exact ⟨6, le_rfl, by omega, hsmall (by rw [h0]; decide), by simp [h0]⟩
  have hm := toNat_nextPow2 h0
  have hv : target.toNat < 2 ^ 64 := target.toNat_lt
  have hs64 : (target.toNat - 1).size ≤ 64 := Nat.size_le.2 (by omega)
  have hbits : ∀ k, (target.toNat - 1).size ≤ k ↔ target.toNat - 1 < 2 ^ k := fun k ↦ Nat.size_le
  have h31 := hbits 31
  have h63 := hbits 63
  by_cases hs : 6 ≤ (target.toNat - 1).size ∧ (target.toNat - 1).size ≤ 63
  · have hge : 2 ^ 6 ≤ 2 ^ (target.toNat - 1).size := Nat.pow_le_pow_right (by omega) hs.1
    have hle : 2 ^ (target.toNat - 1).size ≤ 2 ^ 63 := Nat.pow_le_pow_right (by omega) hs.2
    rw [Nat.mod_eq_of_lt (by omega)] at hm
    have hnot : ¬nextPow2 target < 64 := by
      rw [UInt64.lt_iff_toNat_lt, hm, not_lt]
      exact hge
    refine ⟨(target.toNat - 1).size, hs.1, hs.2, ?_, by omega⟩
    simp only [ofTarget, hnot, if_false, hm]
  · -- a small target is raised to 64 bits, and one that overflows has become 0
    have h6 := hbits 6
    refine ⟨6, le_rfl, by omega, hsmall ?_, by omega⟩
    rw [UInt64.lt_iff_toNat_lt, hm]
    change _ < 2 ^ 6
    rcases Nat.lt_or_ge (target.toNat - 1).size 6 with hlt | hge
    · exact (Nat.mod_le _ _).trans_lt (Nat.pow_lt_pow_right (by omega) hlt)
    · rw [show (target.toNat - 1).size = 64 by omega]
      omega

/-- The size of a filter made for a number of keys. -/
theorem exists_sized_m (sz : Sizing) (n : ℕ) : ∃ k, 6 ≤ k ∧ k ≤ 63 ∧
    (sized sz n).m.toNat = 2 ^ k ∧ (sz.ceilBits n ≤ 2 ^ 31 → k ≤ 31) := by
  obtain ⟨k, h6, h63, hm, h31⟩ := exists_ofTarget_m (UInt64.ofNat (sz.ceilBits n))
  refine ⟨k, h6, h63, hm, fun h ↦ h31.2 (.inl ?_)⟩
  rw [UInt64.toNat_ofNat']
  omega

/-- The bytes of a filter, as the code computes their number on `size_t`. -/
theorem toNat_byteLen {m : UInt64} (h : m.toNat ≤ 2 ^ 63) :
    ((m + 7) / 8).toNat = (m.toNat + 7) / 8 := by
  rw [UInt64.toNat_div, UInt64.toNat_add]
  change (m.toNat + 7) % 2 ^ 64 / 8 = _
  rw [Nat.mod_eq_of_lt (by omega)]

theorem sound_ofTarget (target : UInt64) : (ofTarget target).Sound := by
  obtain ⟨k, -, hk, hm, -⟩ := exists_ofTarget_m target
  have hle : 2 ^ k ≤ 2 ^ 63 := Nat.pow_le_pow_right (by omega) hk
  have hge : 1 ≤ 2 ^ k := Nat.one_le_two_pow
  refine ⟨fun h0 ↦ ?_, ?_⟩
  · rw [h0, UInt64.toNat_zero] at hm
    omega
  · rw [← toNat_byteLen (by omega)]
    simp [ofTarget]

theorem sound_sized (sz : Sizing) (n : ℕ) : (sized sz n).Sound := sound_ofTarget _

/-- **No false negatives**: for every target size and every sequence of keys that are added, each of
them is found afterwards; adding more keys clears no bit; and the bits that `add` sets and
`may_contain` tests are bits of the filter. -/
theorem mayContain_of_added (target : UInt64) (keys : List Bytes) :
    (∀ key ∈ keys, (keys.foldl add (ofTarget target)).mayContain key = true) ∧
    (∀ more i, (keys.foldl add (ofTarget target)).getBit i = true →
      ((keys ++ more).foldl add (ofTarget target)).getBit i = true) ∧
    (∀ key, ∀ i ∈ (keys.foldl add (ofTarget target)).probePositions key,
      i.toNat < (keys.foldl add (ofTarget target)).m.toNat ∧
        (i >>> 3).toNat < (keys.foldl add (ofTarget target)).bits.length) ∧
    (∀ key i, ((keys.foldl add (ofTarget target)).add key).getBit i ≠
        (keys.foldl add (ofTarget target)).getBit i →
      i.toNat < (keys.foldl add (ofTarget target)).m.toNat ∧
        (i >>> 3).toNat < (keys.foldl add (ofTarget target)).bits.length) ∧
    ∀ (key : Bytes) (g : BloomFilter), g.m = (keys.foldl add (ofTarget target)).m →
      (∀ i : UInt64, i.toNat < (keys.foldl add (ofTarget target)).m.toNat →
        g.getBit i = (keys.foldl add (ofTarget target)).getBit i) →
      g.mayContain key = (keys.foldl add (ofTarget target)).mayContain key := by
  have hsound : (keys.foldl add (ofTarget target)).Sound :=
    sound_addAll (sound_ofTarget target) keys
  have hinside : ∀ key, ∀ i ∈ (keys.foldl add (ofTarget target)).probePositions key,
      i.toNat < (keys.foldl add (ofTarget target)).m.toNat ∧
        (i >>> 3).toNat < (keys.foldl add (ofTarget target)).bits.length := fun key i hi ↦
    ⟨lt_of_mem_probePositions hsound.1 hi, inRange_of_mem_probePositions hsound hi⟩
  refine ⟨fun key hk ↦ mayContain_addAll (sound_ofTarget target) hk, fun more i hi ↦ ?_, hinside,
    fun key i hi ↦ hinside key i (mem_of_getBit_foldl_setBit_ne hi),
    fun key g hm hg ↦ mayContain_congr hsound.1 hm hg key⟩
  rw [List.foldl_append]
  exact getBit_addAll_of_getBit hi more

/-- **Reading a filter back.**  A filter whose size is a power of two below `2 ^ 32` is what its
bytes and its number of bits are read back as. -/
theorem ofRaw_bits {f : BloomFilter} (hf : f.Sound) {k : ℕ} (hk : k ≤ 31)
    (hm : f.m.toNat = 2 ^ k) (h3 : 3 ≤ k) :
    (f.numBits + 7) % 2 ^ 32 / 8 = f.bits.length ∧
      ofRaw f.bits f.bits.length f.numBits = .ok f := by
  have hle : 2 ^ k ≤ 2 ^ 31 := Nat.pow_le_pow_right (by omega) hk
  have hnum : f.numBits = 2 ^ k := by rw [numBits, hm, Nat.mod_eq_of_lt (by omega)]
  have hmid : UInt64.ofNat (2 ^ k) = f.m := by
    rw [← UInt64.toNat_inj, UInt64.toNat_ofNat', hm, Nat.mod_eq_of_lt (by omega)]
  have hlen := hf.2
  rw [hm] at hlen
  have hbl : ((f.m + 7) / 8).toNat = f.bits.length := by
    rw [toNat_byteLen (by omega), hm, hlen]
  refine ⟨by rw [hnum, hlen, Nat.mod_eq_of_lt (by omega)], ?_⟩
  rw [ofRaw, hnum, hmid, nextPow2_two_pow (by omega) hm]
  simp [hbl]

/-- A filter of `2 ^ 32` bits or more cannot be read back: its size is cut to zero bits. -/
theorem ofRaw_of_large {f : BloomFilter} {k : ℕ} (hk : 32 ≤ k)
    (hm : f.m.toNat = 2 ^ k) (s : Bytes) :
    f.numBits = 0 ∧ ofRaw s ((f.numBits + 7) % 2 ^ 32 / 8) f.numBits = .error .bloomTruncated := by
  have hnum : f.numBits = 0 := by
    rw [numBits, hm]
    exact Nat.mod_eq_zero_of_dvd (Nat.pow_dvd_pow 2 hk)
  refine ⟨hnum, ?_⟩
  rw [hnum]
  rfl

end BloomFilter

end KeyValStore
