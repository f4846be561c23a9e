import Mathlib

/-!
# Binary search for an upper bound

`upperBound p first len` searches the indices `first, …, first + len - 1` for the first at which
`p` holds, by halving: `std::upper_bound`, with `p i` for "the value compares less than element
`i`".  It looks at nothing outside that range (`upperBound_congr`), whatever `p` is, and if `p`
never turns false again it finds the boundary (`upperBound_spec`).
-/

set_option autoImplicit false

namespace Search

/-- The first of `len` indices from `first` on at which `p` holds, or the index after the last. -/
def upperBound (p : ℕ → Bool) (first len : ℕ) : ℕ :=
  if len = 0 then first
  else if p (first + len / 2) then upperBound p first (len / 2)
  else upperBound p (first + len / 2 + 1) (len - len / 2 - 1)
termination_by len

theorem upperBound_mem (p : ℕ → Bool) (first len : ℕ) :
    first ≤ upperBound p first len ∧ upperBound p first len ≤ first + len := by
  induction first, len using upperBound.induct p with
  | case1 first => simp [upperBound]
  | case2 first len hlen hp ih =>
    rw [upperBound, if_neg hlen, if_pos hp]
    omega
  | case3 first len hlen hp ih =>
    rw [upperBound, if_neg hlen, if_neg hp]
    omega

theorem upperBound_of_pos {p : ℕ → Bool} {first len : ℕ} (hlen : len ≠ 0)
    (hp : p (first + len / 2) = true) : upperBound p first len = upperBound p first (len / 2) := by
  rw [upperBound, if_neg hlen, if_pos hp]

theorem upperBound_of_neg {p : ℕ → Bool} {first len : ℕ} (hlen : len ≠ 0)
    (hp : ¬p (first + len / 2) = true) :
    upperBound p first len = upperBound p (first + len / 2 + 1) (len - len / 2 - 1) := by
  rw [upperBound, if_neg hlen, if_neg hp]

/-- The search only asks about indices of its range. -/
theorem upperBound_congr {p q : ℕ → Bool} {first len : ℕ}
    (h : ∀ i, first ≤ i → i < first + len → p i = q i) :
    upperBound p first len = upperBound q first len := by
  induction first, len using upperBound.induct p with
  | case1 first => simp [upperBound]
  | case2 first len hlen hp ih =>
    have hq : q (first + len / 2) = true := by rw [← h _ (by omega) (by omega), hp]
    rw [upperBound_of_pos hlen hp, upperBound_of_pos hlen hq]
    exact ih fun i h1 h2 ↦ h i h1 (by omega)
  | case3 first len hlen hp ih =>
    have hq : ¬q (first + len / 2) = true := by rwa [← h _ (by omega) (by omega)]
    rw [upperBound_of_neg hlen hp, upperBound_of_neg hlen hq]
    exact ih fun i h1 h2 ↦ h i (by omega) (by omega)

/-- **The boundary.**  If `p` stays true once it is, the search separates the indices at which it
is false from those at which it is true. -/
theorem upperBound_spec {p : ℕ → Bool} {first len : ℕ}
    (hmono : ∀ i j, first ≤ i → i ≤ j → j < first + len → p i = true → p j = true) :
    (∀ i, first ≤ i → i < upperBound p first len → p i = false) ∧
      ∀ i, upperBound p first len ≤ i → i < first + len → p i = true := by
  induction first, len using upperBound.induct p with
  | case1 first =>
    refine ⟨fun i h1 h2 ↦ ?_, fun i h1 h2 ↦ ?_⟩ <;> simp [upperBound] at * <;> omega
  | case2 first len hlen hp ih =>
    obtain ⟨hlo, hhi⟩ := ih fun i j h1 h2 h3 ↦ hmono i j h1 h2 (by omega)
    rw [upperBound_of_pos hlen hp]
    refine ⟨hlo, fun i h1 h2 ↦ ?_⟩
    rcases Nat.lt_or_ge i (first + len / 2) with hi | hi
    · exact hhi i h1 hi
    · exact hmono _ i (by omega) hi h2 hp
  | case3 first len hlen hp ih =>
    obtain ⟨hlo, hhi⟩ := ih fun i j h1 h2 h3 ↦ hmono i j (by omega) h2 (by omega)
    rw [upperBound_of_neg hlen hp]
    refine ⟨fun i h1 h2 ↦ ?_, fun i h1 h2 ↦ hhi i h1 (by omega)⟩
    rcases Nat.lt_or_ge (first + len / 2) i with hi | hi
    · exact hlo i (by omega) h2
    · by_contra hpi
      exact hp (hmono i _ h1 hi (by omega) (by simpa using hpi))

end Search
