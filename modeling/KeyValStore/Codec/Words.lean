import Mathlib

/-!
# Little-endian words

`le w n` are the `w` bytes a machine of that byte order stores for the number `n`, truncated to
`w` bytes as a cast to an unsigned type truncates it; `ofLE` is the number a sequence of bytes
stands for.  `readLE w` takes a word off the front of a stream.
-/

set_option autoImplicit false

namespace Codec

/-- The `w` low bytes of `n`, lowest first. -/
def le : ℕ → ℕ → List UInt8
  | 0, _ => []
  | w + 1, n => UInt8.ofNat n :: le w (n / 256)

/-- The number a sequence of bytes stands for, lowest byte first. -/
def ofLE : List UInt8 → ℕ
  | [] => 0
  | b :: bs => b.toNat + 256 * ofLE bs

/-- Take a word of `w` bytes off the front of a stream. -/
def readLE (w : ℕ) (s : List UInt8) : Option (ℕ × List UInt8) :=
  if w ≤ s.length then some (ofLE (s.take w), s.drop w) else none

@[simp] theorem length_le (w n : ℕ) : (le w n).length = w := by
  induction w generalizing n with
  | zero => rfl
  | succ w ih => simp [le, ih]

theorem ofLE_le (w n : ℕ) : ofLE (le w n) = n % 256 ^ w := by
  induction w generalizing n with
  | zero => simp [le, ofLE, Nat.mod_one]
  | succ w ih =>
    rw [le, ofLE, ih, Nat.pow_succ', Nat.mod_mul]
    simp

theorem ofLE_lt (s : List UInt8) : ofLE s < 256 ^ s.length := by
  induction s with
  | nil => simp [ofLE]
  | cons b bs ih =>
    have hb : b.toNat < 256 := b.toNat_lt
    rw [ofLE, List.length_cons, Nat.pow_succ]
    omega

/-- A word is determined by the number it stands for. -/
theorem le_ofLE (s : List UInt8) : le s.length (ofLE s) = s := by
  induction s with
  | nil => rfl
  | cons b bs ih =>
    have hb : b.toNat < 256 := b.toNat_lt
    rw [List.length_cons, le, ofLE]
    congr 1
    · apply UInt8.toNat_inj.1
      rw [UInt8.toNat_ofNat']
      omega
    · rw [show (b.toNat + 256 * ofLE bs) / 256 = ofLE bs by omega, ih]

theorem readLE_le_append (w n : ℕ) (s : List UInt8) :
    readLE w (le w n ++ s) = some (n % 256 ^ w, s) := by
  have hl := length_le w n
  rw [readLE, if_pos (by simp), List.take_left' hl, List.drop_left' hl, ofLE_le]

/-- What a word was read off starts with that word. -/
theorem readLE_eq_some {w n : ℕ} {s t : List UInt8} (h : readLE w s = some (n, t)) :
    n < 256 ^ w ∧ s = le w n ++ t := by
  rw [readLE] at h
  split at h
  · rename_i hw
    rw [Option.some_inj, Prod.mk.injEq] at h
    obtain ⟨rfl, rfl⟩ := h
    have hl : (s.take w).length = w := by simpa using hw
    refine ⟨?_, ?_⟩
    · simpa [hl] using ofLE_lt (s.take w)
    · have h1 := le_ofLE (s.take w)
      rw [hl] at h1
      rw [h1, List.take_append_drop]
  · simp at h

theorem readLE_length {w n : ℕ} {s t : List UInt8} (h : readLE w s = some (n, t)) :
    s.length = w + t.length := by
  rw [(readLE_eq_some h).2]
  simp

end Codec
