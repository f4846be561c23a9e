import KeyValStore.Bloom.Filter

/-!
# The probe positions of a key

The `i`-th probe of a key goes to `h1 + i * h2`, modulo the size of the filter (`toNat_probe`).  The
second hash is odd and the size a power of two, so the probes visit every position of the filter
before one comes twice (`probe_bijOn`).

The two hash functions have the same constants: the second hash is the first with its lowest bit
set.  So the first position of a key determines the others (`probePositions_congr_head`).
-/

set_option autoImplicit false

namespace KeyValStore

open Crash

/-- Steps of a length prime to `n` visit every residue once. -/
theorem bijOn_add_mul_mod {n b : ℕ} (hn : 0 < n) (h : Nat.Coprime n b) (a : ℕ) :
    Set.BijOn (fun i ↦ (a + i * b) % n) (Set.Iio n) (Set.Iio n) := by
  have hmaps : Set.MapsTo (fun i ↦ (a + i * b) % n) (Set.Iio n) (Set.Iio n) :=
    fun i _ ↦ Nat.mod_lt _ hn
  refine ((Set.finite_Iio n).injOn_iff_bijOn_of_mapsTo hmaps).1 fun i hi j hj hij ↦ ?_
  have hmul : i * b ≡ j * b [MOD n] := Nat.ModEq.add_left_cancel' a hij
  exact (Nat.ModEq.cancel_right_of_coprime h hmul).eq_of_lt_of_lt hi hj

/-! ## The two hash functions -/

/-- **The second hash** is the first with its lowest bit set. -/
theorem fnv1aB_eq (key : Bytes) : fnv1aB key = fnv1aA key ||| 1 := rfl

theorem odd_fnv1aB (key : Bytes) : (fnv1aB key).toNat % 2 = 1 := by
  rw [fnv1aB_eq, UInt64.toNat_or, ← Nat.pow_one 2, Nat.or_mod_two_pow, UInt64.toNat_one]
  rcases Nat.mod_two_eq_zero_or_one (fnv1aA key).toNat with h | h <;> simp [h]

namespace BloomFilter

/-- The position of the `i`-th probe in a filter of `m` bits. -/
def probe (m : UInt64) (key : Bytes) (i : ℕ) : UInt64 :=
  (fnv1aA key + i.toUInt64 * fnv1aB key) &&& (m - 1)

theorem probePositions_eq (f : BloomFilter) (key : Bytes) :
    f.probePositions key = (List.range K).map (probe f.m key) := rfl

/-- The mask is a modulus, and the sums that overflow on the way do not matter for it. -/
theorem toNat_probe {m : UInt64} {k : ℕ} (hm : m.toNat = 2 ^ k) (key : Bytes) (i : ℕ) :
    (probe m key i).toNat = ((fnv1aA key).toNat + i * (fnv1aB key).toNat) % 2 ^ k := by
  have hk : k ≤ 64 := by
    have hlt : 2 ^ k < 2 ^ 64 := hm ▸ m.toNat_lt
    exact ((Nat.pow_lt_pow_iff_right (by omega)).1 hlt).le
  have hpos : 1 ≤ m.toNat := hm ▸ Nat.one_le_two_pow
  have hsub : (m - 1).toNat = 2 ^ k - 1 := by
    rw [UInt64.toNat_sub_of_le m 1 (UInt64.le_iff_toNat_le.2 hpos), hm]
    rfl
  have hdvd : 2 ^ k ∣ 2 ^ 64 := Nat.pow_dvd_pow 2 hk
  rw [probe, UInt64.toNat_and, hsub, Nat.and_two_pow_sub_one_eq_mod, UInt64.toNat_add,
    Nat.mod_mod_of_dvd _ hdvd, UInt64.toNat_mul]
  refine Nat.ModEq.add_left _ ((Nat.mod_mod_of_dvd _ hdvd).trans (Nat.ModEq.mul_right _ ?_))
  exact (congrArg (· % 2 ^ k) (UInt64.toNat_ofNat' (n := i))).trans (Nat.mod_mod_of_dvd i hdvd)

/-- **Probe sequences cover all slots.**  In a filter of `2 ^ k` bits the first `2 ^ k` probes of a
key are the positions of the filter, each once; the seven that are made are the first of them, so
they are distinct. -/
theorem probe_bijOn {f : BloomFilter} {k : ℕ} (h3 : 3 ≤ k) (hm : f.m.toNat = 2 ^ k) (key : Bytes) :
    Set.BijOn (fun i ↦ (probe f.m key i).toNat) (Set.Iio (2 ^ k)) (Set.Iio (2 ^ k)) ∧
      f.probePositions key = (List.range 7).map (probe f.m key) ∧
      (f.probePositions key).length = 7 ∧
      (∀ i, (probe f.m key i).toNat =
        ((fnv1aA key).toNat + i * (fnv1aB key).toNat) % 2 ^ 64 % f.m.toNat) ∧
      (f.probePositions key).Nodup ∧ ∀ p ∈ f.probePositions key, p.toNat < f.m.toNat := by
  have hcop : Nat.Coprime (2 ^ k) (fnv1aB key).toNat :=
    (Nat.coprime_two_left.2 (Nat.odd_iff.2 (odd_fnv1aB key))).pow_left k
  have hbij := bijOn_add_mul_mod (Nat.two_pow_pos k) hcop (fnv1aA key).toNat
  have heq : (fun i ↦ (probe f.m key i).toNat) =
      fun i ↦ ((fnv1aA key).toNat + i * (fnv1aB key).toNat) % 2 ^ k := funext (toNat_probe hm key)
  rw [← heq] at hbij
  have hK : K ≤ 2 ^ k := le_trans (by decide) (Nat.pow_le_pow_right (n := 2) (by omega) h3)
  have hdvd : f.m.toNat ∣ 2 ^ 64 := by
    have hlt : 2 ^ k < 2 ^ 64 := hm ▸ f.m.toNat_lt
    exact hm ▸ Nat.pow_dvd_pow 2 ((Nat.pow_lt_pow_iff_right (by omega)).1 hlt).le
  refine ⟨hbij, rfl, rfl, fun i ↦ ?_, ?_, fun p hp ↦ lt_of_mem_probePositions ?_ hp⟩
  · rw [toNat_probe hm, ← hm, Nat.mod_mod_of_dvd _ hdvd]
  · rw [probePositions_eq]
    refine List.Nodup.map_on (fun i hi j hj hij ↦ ?_) List.nodup_range
    rw [List.mem_range] at hi hj
    exact hbij.injOn (hi.trans_le hK) (hj.trans_le hK) (congrArg UInt64.toNat hij)
  · intro h0
    rw [h0, UInt64.toNat_zero] at hm
    exact absurd hm (Nat.two_pow_pos k).ne

theorem probe_bijOn_empty :
    Set.BijOn (fun i ↦ (probe 64 [107] i).toNat) (Set.Iio 64) (Set.Iio 64) ∧
      empty.probePositions [107] = (List.range 7).map (probe 64 [107]) ∧
      (empty.probePositions [107]).length = 7 ∧
      (∀ i, (probe 64 [107] i).toNat =
        ((fnv1aA [107]).toNat + i * (fnv1aB [107]).toNat) % 2 ^ 64 % 64) ∧
      (empty.probePositions [107]).Nodup ∧ ∀ p ∈ empty.probePositions [107], p.toNat < 64 :=
  probe_bijOn (f := empty) (k := 6) (by decide) rfl [107]

/-! ## What the second hash adds -/

/-- Two keys with the same first position and different sets of positions. -/
def Separates (f : BloomFilter) : Prop :=
  ∃ key key', (f.probePositions key).head? = (f.probePositions key').head? ∧
    ¬∀ p, p ∈ f.probePositions key ↔ p ∈ f.probePositions key'

/-- The first position of a key determines all of them. -/
theorem probePositions_congr_head {f : BloomFilter} {k : ℕ} (hm : f.m.toNat = 2 ^ k)
    {key key' : Bytes} (h : (f.probePositions key).head? = (f.probePositions key').head?) :
    f.probePositions key = f.probePositions key' := by
  have h0 : probe f.m key 0 = probe f.m key' 0 := Option.some.inj h
  have hA : (fnv1aA key).toNat ≡ (fnv1aA key').toNat [MOD 2 ^ k] := by
    have := congrArg UInt64.toNat h0
    rwa [toNat_probe hm, toNat_probe hm, Nat.zero_mul, Nat.zero_mul] at this
  have hB : (fnv1aB key).toNat ≡ (fnv1aB key').toNat [MOD 2 ^ k] := by
    rw [fnv1aB_eq, fnv1aB_eq, UInt64.toNat_or, UInt64.toNat_or, Nat.ModEq, Nat.or_mod_two_pow,
      Nat.or_mod_two_pow, hA]
  rw [probePositions_eq, probePositions_eq]
  refine List.map_congr_left fun i _ ↦ UInt64.toNat_inj.1 ?_
  rw [toNat_probe hm, toNat_probe hm]
  exact hA.add (hB.mul_left i)

/-- **The second hash adds nothing**, whatever the size of the filter. -/
theorem not_separates {f : BloomFilter} {k : ℕ} (hm : f.m.toNat = 2 ^ k) : ¬f.Separates := by
  rintro ⟨key, key', hhead, hne⟩
  exact hne fun p ↦ by rw [probePositions_congr_head hm hhead]

theorem not_separates_sized : ¬(sized .onePercent 100).Separates :=
  not_separates (k := 10) (by decide)

/-- The smallest filter a table can have. -/
theorem not_forall_separates :
    ¬∀ (f : BloomFilter) (k : ℕ), 6 ≤ k → f.m.toNat = 2 ^ k → f.Separates := by
  intro h
  obtain ⟨key, key', hhead, hne⟩ := h empty 6 le_rfl rfl
  exact hne fun p ↦ by rw [@probePositions_congr_head empty 6 rfl _ _ hhead]

end BloomFilter

end KeyValStore
