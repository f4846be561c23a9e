import Mathlib

/-!
# Decimal numerals

`decimal n` is the numeral of `n` in ASCII digits, `padded w n` the same padded with zeros on the
left to at least `w` characters, and `ofDecimal` the number a string of digits stands for.  Padding
does not change the number (`ofDecimal_padded`), so both are injective.

The order of digit strings as strings is the order of their numbers only where they have the same
length: a string comes before a longer one if its number is at most that of as many leading digits
(`isLE_compare_iff`).
-/

set_option autoImplicit false

namespace Codec

/-- The character of a digit. -/
def digit (d : ℕ) : UInt8 := UInt8.ofNat (48 + d)

/-- Is the character a digit? -/
def isDigit (c : UInt8) : Bool := 48 ≤ c.toNat && c.toNat ≤ 57

/-- The numeral of `n`. -/
def decimal (n : ℕ) : List UInt8 :=
  if n = 0 then [digit 0] else ((Nat.digits 10 n).map digit).reverse

/-- The numeral of `n`, padded with zeros to `w` characters. -/
def padded (w n : ℕ) : List UInt8 := (decimal n).leftpad w (digit 0)

/-- The number a string of digits stands for. -/
def ofDecimal (s : List UInt8) : ℕ := s.foldl (fun n c ↦ 10 * n + (c.toNat - 48)) 0

theorem digit_toNat {d : ℕ} (h : d < 10) : (digit d).toNat = 48 + d := by
  rw [digit, UInt8.toNat_ofNat']
  omega

theorem isDigit_digit {d : ℕ} (h : d < 10) : isDigit (digit d) = true := by
  simp only [isDigit, digit_toNat h, Bool.and_eq_true, decide_eq_true_eq]
  omega

theorem isDigit_of_mem_decimal {n : ℕ} {c : UInt8} (h : c ∈ decimal n) : isDigit c = true := by
  rw [decimal] at h
  split at h
  · rw [List.mem_singleton.1 h]
    exact isDigit_digit (by omega)
  · rw [List.mem_reverse, List.mem_map] at h
    obtain ⟨d, hd, rfl⟩ := h
    exact isDigit_digit (Nat.digits_lt_base (by omega) hd)

theorem padded_eq (w n : ℕ) :
    padded w n = List.replicate (w - (decimal n).length) (digit 0) ++ decimal n :=
  rfl

theorem isDigit_of_mem_padded {w n : ℕ} {c : UInt8} (h : c ∈ padded w n) : isDigit c = true := by
  rw [padded_eq, List.mem_append, List.mem_replicate] at h
  rcases h with ⟨-, rfl⟩ | h
  · exact isDigit_digit (by omega)
  · exact isDigit_of_mem_decimal h

theorem decimal_ne_nil (n : ℕ) : decimal n ≠ [] := by
  rw [decimal]
  split
  · simp
  · rename_i h
    simpa using Nat.digits_ne_nil_iff_ne_zero.2 h

theorem padded_ne_nil (w n : ℕ) : padded w n ≠ [] := by
  rw [padded_eq]
  simp [decimal_ne_nil]

theorem ofDecimal_append (s t : List UInt8) :
    ofDecimal (s ++ t) = ofDecimal s * 10 ^ t.length + ofDecimal t := by
  have h : ∀ (t : List UInt8) (n : ℕ), t.foldl (fun n c ↦ 10 * n + (c.toNat - 48)) n
      = n * 10 ^ t.length + ofDecimal t := by
    intro t
    induction t with
    | nil => intro n; simp [ofDecimal]
    | cons c t ih =>
      intro n
      rw [ofDecimal, List.foldl_cons, List.foldl_cons, ih, ih (10 * 0 + _), List.length_cons,
        Nat.pow_succ]
      ring
  rw [ofDecimal, List.foldl_append, h]
  rfl

theorem ofDecimal_reverse_digits {l : List ℕ} (h : ∀ d ∈ l, d < 10) :
    ofDecimal (l.map digit).reverse = Nat.ofDigits 10 l := by
  induction l with
  | nil => rfl
  | cons d l ih =>
    rw [List.forall_mem_cons] at h
    rw [List.map_cons, List.reverse_cons, ofDecimal_append, ih h.2, Nat.ofDigits_cons]
    have hd : ofDecimal [digit d] = d := by simp [ofDecimal, digit_toNat h.1]
    rw [hd]
    simp
    ring

@[simp] theorem ofDecimal_decimal (n : ℕ) : ofDecimal (decimal n) = n := by
  rw [decimal]
  split
  · rename_i h
    rw [h]
    rfl
  · rw [ofDecimal_reverse_digits fun d hd ↦ Nat.digits_lt_base (by omega) hd,
      Nat.ofDigits_digits]

@[simp] theorem ofDecimal_padded (w n : ℕ) : ofDecimal (padded w n) = n := by
  have hz : ∀ k, ofDecimal (List.replicate k (digit 0)) = 0 := by
    intro k
    induction k with
    | zero => rfl
    | succ k ih =>
      rw [List.replicate_succ', ofDecimal_append, ih]
      rfl
  rw [padded_eq, ofDecimal_append, hz, ofDecimal_decimal, Nat.zero_mul, Nat.zero_add]

theorem padded_inj {w n m : ℕ} : padded w n = padded w m ↔ n = m :=
  ⟨fun h ↦ by rw [← ofDecimal_padded w n, h, ofDecimal_padded], fun h ↦ by rw [h]⟩

/-! ## The order of strings -/

theorem compare_append_left (p s t : List UInt8) : compare (p ++ s) (p ++ t) = compare s t := by
  induction p with
  | nil => rfl
  | cons c p ih =>
    rw [List.cons_append, List.cons_append, List.compare_cons_cons,
      Std.compare_self, Ordering.then, ih]

theorem ofDecimal_cons (c : UInt8) (s : List UInt8) :
    ofDecimal (c :: s) = (c.toNat - 48) * 10 ^ s.length + ofDecimal s := by
  rw [← List.singleton_append, ofDecimal_append]
  simp [ofDecimal]

theorem ofDecimal_lt {s : List UInt8} (h : ∀ c ∈ s, isDigit c = true) :
    ofDecimal s < 10 ^ s.length := by
  induction s with
  | nil => exact Nat.one_pos
  | cons c s ih =>
    rw [List.forall_mem_cons, isDigit, Bool.and_eq_true, decide_eq_true_eq, decide_eq_true_eq] at h
    have hs := ih h.2
    have hc : (c.toNat - 48) * 10 ^ s.length ≤ 9 * 10 ^ s.length :=
      Nat.mul_le_mul_right _ (by omega)
    rw [ofDecimal_cons, List.length_cons, Nat.pow_succ]
    omega

/-- **The order of digit strings** of which the first is not longer. -/
theorem isLE_compare_iff {s t : List UInt8} (hs : ∀ c ∈ s, isDigit c = true)
    (ht : ∀ c ∈ t, isDigit c = true) (hlen : s.length ≤ t.length) :
    (compare s t).isLE = true ↔ ofDecimal s * 10 ^ (t.length - s.length) ≤ ofDecimal t := by
  induction s generalizing t with
  | nil => cases t <;> simp [ofDecimal]
  | cons c s ih =>
    cases t with
    | nil => simp at hlen
    | cons c' t =>
      rw [List.forall_mem_cons] at hs ht
      rw [List.length_cons, List.length_cons, Nat.add_le_add_iff_right] at hlen
      have ih := ih hs.2 ht.2 hlen
      have hc := hs.1
      have hc' := ht.1
      rw [isDigit, Bool.and_eq_true, decide_eq_true_eq, decide_eq_true_eq] at hc hc'
      -- both numbers are compared after the shorter one is extended by zeros
      have hpow : 10 ^ s.length * 10 ^ (t.length - s.length) = 10 ^ t.length := by
        rw [← Nat.pow_add, Nat.add_sub_cancel' hlen]
      have hs' : ofDecimal s * 10 ^ (t.length - s.length) < 10 ^ t.length := by
        rw [← hpow]
        exact Nat.mul_lt_mul_of_pos_right (ofDecimal_lt hs.2) (by positivity)
      have ht' := ofDecimal_lt ht.2
      rw [List.compare_cons_cons, ofDecimal_cons, ofDecimal_cons, List.length_cons,
        List.length_cons, Nat.add_sub_add_right, Nat.add_mul, Nat.mul_assoc, hpow]
      rcases Nat.lt_trichotomy c.toNat c'.toNat with h | h | h
      · have hcmp : compare c c' = .lt := Std.compare_eq_lt.2 (UInt8.lt_iff_toNat_lt.2 h)
        have hstep : (c.toNat - 48 + 1) * 10 ^ t.length ≤ (c'.toNat - 48) * 10 ^ t.length :=
          Nat.mul_le_mul_right _ (by omega)
        rw [Nat.succ_mul] at hstep
        rw [hcmp]
        exact iff_of_true rfl (by omega)
      · obtain rfl := UInt8.toNat_inj.1 h
        rw [Std.compare_self, Ordering.then, ih]
        omega
      · have hcmp : compare c c' = .gt := Std.compare_eq_gt.2 (UInt8.lt_iff_toNat_lt.2 h)
        have hstep : (c'.toNat - 48 + 1) * 10 ^ t.length ≤ (c.toNat - 48) * 10 ^ t.length :=
          Nat.mul_le_mul_right _ (by omega)
        rw [Nat.succ_mul] at hstep
        rw [hcmp]
        exact iff_of_false Bool.false_ne_true (by omega)

theorem length_padded (w n : ℕ) : (padded w n).length = max w (decimal n).length :=
  List.length_leftpad ..

theorem length_padded_mono (w : ℕ) {n m : ℕ} (h : n ≤ m) :
    (padded w n).length ≤ (padded w m).length := by
  have hlen : ∀ k, k ≠ 0 → (decimal k).length = (Nat.digits 10 k).length := fun k hk ↦ by
    rw [decimal, if_neg hk, List.length_reverse, List.length_map]
  rw [length_padded, length_padded]
  refine max_le_max_left w ?_
  by_cases hn : n = 0
  · have hm : 0 < (decimal m).length := List.length_pos_iff.2 (decimal_ne_nil m)
    rw [hn, decimal, if_pos rfl]
    exact hm
  · rw [hlen n hn, hlen m (by omega)]
    exact Nat.le_length_digits_le 10 n m h

/-- The order of padded numerals. -/
theorem isLE_compare_padded_iff {w n m : ℕ} (h : n ≤ m) :
    (compare (padded w n) (padded w m)).isLE = true ↔
      n * 10 ^ ((padded w m).length - (padded w n).length) ≤ m := by
  rw [isLE_compare_iff (fun _ ↦ isDigit_of_mem_padded) (fun _ ↦ isDigit_of_mem_padded)
    (length_padded_mono w h), ofDecimal_padded, ofDecimal_padded]

end Codec
