import KeyValStore.Model.Bloom

/-!
# Rounding up to a power of two

The loop of `next_pow2` copies every bit of `v - 1` to all the positions below it; what it returns
is `2 ^ (v - 1).size` (`toNat_nextPow2`): for a power of two that power itself (`nextPow2_two_pow`),
and up to `2 ^ 63` the least power of two that is not below `v` (`nextPow2_exact`).  The argument is
on natural numbers: after the steps `1, 2, …, 2 ^ i` a bit is set exactly if one of the
`2 ^ (i + 1)` bits from it upwards was (`Smeared`).
-/

set_option autoImplicit false

namespace KeyValStore

/-- Bit `i` of `w` says whether one of the `k` bits of `v` from `i` upwards is set. -/
def Smeared (v k w : ℕ) : Prop := ∀ i, w.testBit i = true ↔ ∃ j < k, v.testBit (i + j) = true

theorem smeared_one (v : ℕ) : Smeared v 1 v := fun i ↦ by
  simp

/-- One step of the loop doubles the reach. -/
theorem Smeared.step {v k w : ℕ} (h : Smeared v k w) : Smeared v (2 * k) (w ||| w >>> k) := by
  intro i
  rw [Nat.testBit_or, Nat.testBit_shiftRight, Bool.or_eq_true, h i, h (k + i)]
  constructor
  · rintro (⟨j, hj, hv⟩ | ⟨j, hj, hv⟩)
    · exact ⟨j, by omega, hv⟩
    · exact ⟨k + j, by omega, by rwa [show i + (k + j) = k + i + j by omega]⟩
  · rintro ⟨j, hj, hv⟩
    by_cases hk : j < k
    · exact .inl ⟨j, hk, hv⟩
    · exact .inr ⟨j - k, by omega, by rwa [show k + i + (j - k) = i + j by omega]⟩

/-- A number all of whose bits are copied downwards is one less than a power of two. -/
theorem Smeared.eq_two_pow_sub_one {v w : ℕ} (h : Smeared v 64 w) (hv : v < 2 ^ 64) :
    w = 2 ^ v.size - 1 := by
  refine Nat.eq_of_testBit_eq fun i ↦ ?_
  rw [Nat.testBit_two_pow_sub_one, Bool.eq_iff_iff, h i, decide_eq_true_eq, Nat.lt_size]
  constructor
  · rintro ⟨j, -, hj⟩
    exact (Nat.pow_le_pow_right (by omega) (by omega)).trans (Nat.ge_two_pow_of_testBit hj)
  · intro hi
    obtain ⟨j, hij, hj⟩ := Nat.exists_ge_and_testBit_of_ge_two_pow hi
    have : j < 64 := by
      by_contra hge
      exact absurd hv (not_lt.2 ((Nat.pow_le_pow_right (by omega) (by omega)).trans
        (Nat.ge_two_pow_of_testBit hj)))
    exact ⟨j - i, by omega, by rwa [show i + (j - i) = j by omega]⟩

/-- The loop of `next_pow2`. -/
theorem toNat_smear (v : UInt64) :
    (([1, 2, 4, 8, 16, 32] : List UInt64).foldl (fun v i ↦ v ||| (v >>> i)) v).toNat
      = 2 ^ v.toNat.size - 1 := by
  have hstep : ∀ {w s : UInt64} {k : ℕ}, s.toNat = k → k < 64 → Smeared v.toNat k w.toNat →
      Smeared v.toNat (2 * k) (w ||| (w >>> s)).toNat := by
    intro w s k hs hk h
    rw [UInt64.toNat_or, UInt64.toNat_shiftRight, hs, Nat.mod_eq_of_lt hk]
    exact h.step
  refine Smeared.eq_two_pow_sub_one ?_ v.toNat_lt
  simp only [List.foldl_cons, List.foldl_nil]
  exact hstep (k := 32) rfl (by omega)
    (hstep (k := 16) rfl (by omega) (hstep (k := 8) rfl (by omega)
    (hstep (k := 4) rfl (by omega) (hstep (k := 2) rfl (by omega) (hstep (k := 1) rfl (by omega)
    (smeared_one _))))))

/-- **`next_pow2` in closed form.**  The last increment can overflow. -/
theorem toNat_nextPow2 {v : UInt64} (h0 : v ≠ 0) :
    (nextPow2 v).toNat = 2 ^ (v.toNat - 1).size % 2 ^ 64 := by
  have hpos : 1 ≤ v.toNat := by
    rw [Nat.one_le_iff_ne_zero]
    exact fun h ↦ h0 (UInt64.toNat_inj.1 h)
  have hsub : (v - 1).toNat = v.toNat - 1 := by
    rw [UInt64.toNat_sub_of_le]
    · rfl
    · exact UInt64.le_iff_toNat_le.2 hpos
  have hge : 1 ≤ 2 ^ (v.toNat - 1).size := Nat.one_le_two_pow
  rw [nextPow2, if_neg h0, UInt64.toNat_add, toNat_smear, hsub, UInt64.toNat_one,
    Nat.sub_add_cancel hge]

theorem nextPow2_two_pow {v : UInt64} {k : ℕ} (hk : k ≤ 63) (hv : v.toNat = 2 ^ k) :
    nextPow2 v = v := by
  have hle : 2 ^ k ≤ 2 ^ 63 := Nat.pow_le_pow_right (by omega) hk
  have hge : 1 ≤ 2 ^ k := Nat.one_le_two_pow
  have h0 : v ≠ 0 := by
    rintro rfl
    rw [UInt64.toNat_zero] at hv
    omega
  have hsize : (2 ^ k - 1).size = k := by
    refine le_antisymm (Nat.size_le.2 (by omega)) ?_
    cases k with
    | zero => omega
    | succ k =>
      rw [Nat.succ_le_iff, Nat.lt_size, Nat.pow_succ]
      have : 1 ≤ 2 ^ k := Nat.one_le_two_pow
      omega
  rw [← UInt64.toNat_inj, toNat_nextPow2 h0, hv, hsize, Nat.mod_eq_of_lt (by omega)]

/-- **`next_pow2` is exact** up to `2 ^ 63`: it returns the least power of two that is not below its
argument, so a power of two stays as it is. -/
theorem nextPow2_exact {v : UInt64} (h1 : 1 ≤ v.toNat) (h63 : v.toNat ≤ 2 ^ 63) :
    IsLeast {p | ∃ k, p = 2 ^ k ∧ v.toNat ≤ p} (nextPow2 v).toNat ∧
      ∀ k, v.toNat = 2 ^ k → nextPow2 v = v := by
  have h0 : v ≠ 0 := by
    rintro rfl
    simp at h1
  have hsize : (v.toNat - 1).size ≤ 63 := Nat.size_le.2 (by omega)
  have hlt : v.toNat - 1 < 2 ^ (v.toNat - 1).size := Nat.lt_size_self _
  have hle : 2 ^ (v.toNat - 1).size ≤ 2 ^ 63 := Nat.pow_le_pow_right (by omega) hsize
  have hm := toNat_nextPow2 h0
  rw [Nat.mod_eq_of_lt (by omega)] at hm
  refine ⟨⟨⟨_, hm, by omega⟩, ?_⟩, fun k hk ↦ nextPow2_two_pow ?_ hk⟩
  · -- a power of two that is not below `v` has at least the bits of `v - 1`
    rintro p ⟨k, rfl, hk⟩
    rw [hm]
    exact Nat.pow_le_pow_right (by omega) (Nat.size_le.2 (by omega))
  · rw [hk] at h63
    exact (Nat.pow_le_pow_iff_right (by omega)).1 h63

theorem nextPow2_exact_five : IsLeast {p | ∃ k, p = 2 ^ k ∧ 5 ≤ p} 8 :=
  (nextPow2_exact (v := 5) (by decide) (by decide)).1

end KeyValStore
