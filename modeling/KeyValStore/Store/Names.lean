import KeyValStore.Model.DB

/-!
# The names of the files of a store

A store keeps its files under names of five kinds: the MANIFEST, the temporary MANIFEST, tables, log
segments and sealed segments.  Their extensions tell them apart and the numbers in them can be read
back, so the names of a kind differ whenever their numbers do.

`StoreName` is the type of names a store ever uses; the last section says what recovery makes of
each of them.
-/

set_option autoImplicit false

namespace KeyValStore

open Crash

/-! ## Extensions and numbers -/

/-- The extension of a name that ends in a period and something without one. -/
theorem extension_append {a b : Bytes} (ha : a ≠ []) (hb : 46 ∉ b) (hne : b ≠ []) :
    extension (a ++ 46 :: b) = 46 :: b := by
  have htail : ((a ++ 46 :: b).reverse.takeWhile (· ≠ 46)).reverse = b := by
    rw [List.reverse_append, List.reverse_cons, List.append_assoc, List.singleton_append,
      List.takeWhile_append_of_pos, List.takeWhile_cons_of_neg (by simp), List.append_nil,
      List.reverse_reverse]
    intro c hc
    have : c ≠ 46 := fun h ↦ hb (h ▸ List.mem_reverse.1 hc)
    simpa using this
  have hlen : 1 ≤ a.length := List.length_pos_iff.2 ha
  have hb1 : 1 ≤ b.length := List.length_pos_iff.2 hne
  have hdots : a ++ 46 :: b ≠ ascii ".." := by
    intro h
    have hl := congrArg List.length h
    rw [List.length_append, List.length_cons, show (ascii "..").length = 2 from rfl] at hl
    omega
  rw [extension, htail]
  simp only [List.length_append, List.length_cons, hdots, or_false]
  rw [if_neg (by omega)]

theorem stem_append {a b : Bytes} (ha : a ≠ []) (hb : 46 ∉ b) (hne : b ≠ []) :
    stem (a ++ 46 :: b) = a := by
  rw [stem, extension_append ha hb hne, List.length_append, Nat.add_sub_cancel, List.take_left]

/-- A name is its stem and its extension. -/
theorem stem_append_extension (p : Name) : stem p ++ extension p = p := by
  rw [stem]
  by_cases hext : extension p = []
  · rw [hext, List.length_nil, Nat.sub_zero, List.take_length, List.append_nil]
  · -- the extension is what follows the last period, with it
    have hsplit :=
      List.takeWhile_append_dropWhile (p := fun c : UInt8 ↦ decide (c ≠ 46)) (l := p.reverse)
    rw [extension] at hext ⊢
    split
    · rename_i h
      rw [if_pos h] at hext
      exact absurd rfl hext
    · rename_i h
      rw [not_or] at h
      cases hdrop : p.reverse.dropWhile fun c ↦ decide (c ≠ 46) with
      | nil =>
        rw [hdrop, List.append_nil] at hsplit
        rw [hsplit, List.reverse_reverse] at h
        omega
      | cons c r =>
        have hc : c = 46 := by
          have := List.head?_dropWhile_not (fun c : UInt8 ↦ decide (c ≠ 46)) p.reverse
          rw [hdrop] at this
          simpa using this
        rw [hdrop, hc] at hsplit
        have hp : p = r.reverse ++ 46 :: (p.reverse.takeWhile fun c ↦ decide (c ≠ 46)).reverse := by
          have := congrArg List.reverse hsplit
          rw [List.reverse_append, List.reverse_cons, List.append_assoc,
            List.reverse_reverse] at this
          exact this.symm
        generalize (p.reverse.takeWhile fun c ↦ decide (c ≠ 46)).reverse = tail at hp ⊢
        rw [hp, List.length_append, Nat.add_sub_cancel, List.take_left]

/-- **Reading a number back.** -/
theorem stoull_padded {n : ℕ} (hn : n < 2 ^ 64) (w : ℕ) : stoull (Codec.padded w n) = .ok n := by
  have hdig : ∀ c ∈ Codec.padded w n, Codec.isDigit c = true :=
    fun c hc ↦ Codec.isDigit_of_mem_padded hc
  have htake : (Codec.padded w n).takeWhile Codec.isDigit = Codec.padded w n :=
    List.takeWhile_eq_self_iff.2 hdig
  have hnil := Codec.padded_ne_nil w n
  have hval := Codec.ofDecimal_padded w n
  generalize Codec.padded w n = s at *
  cases s with
  | nil => exact absurd rfl hnil
  | cons c t =>
    have hc := hdig c List.mem_cons_self
    simp only [Codec.isDigit, Bool.and_eq_true, decide_eq_true_eq] at hc
    have hsp : isSpace c = false := by
      have h32 : c ≠ 32 := by
        rintro rfl
        exact absurd hc.1 (by decide)
      simp only [isSpace, h32, decide_false, Bool.false_or, Bool.and_eq_false_iff,
        decide_eq_false_iff_not]
      omega
    have h45 : c ≠ 45 := by
      rintro rfl
      exact absurd hc.1 (by decide)
    have h43 : c ≠ 43 := by
      rintro rfl
      exact absurd hc.1 (by decide)
    rw [stoull, List.dropWhile_cons_of_neg (by simp [hsp])]
    split
    rename_i negative s heq
    split at heq
    · rename_i hc'
      exact absurd (List.cons.inj hc').1 h45
    · rename_i hc'
      exact absurd (List.cons.inj hc').1 h43
    · rw [Prod.mk.injEq] at heq
      obtain ⟨rfl, rfl⟩ := heq
      simp only [htake, hval, reduceCtorEq, if_false]
      rw [if_neg (by omega)]

theorem stoull_decimal {n : ℕ} (hn : n < 2 ^ 64) : stoull (Codec.decimal n) = .ok n := by
  have h : Codec.decimal n = Codec.padded 0 n := by simp [Codec.padded_eq]
  rw [h, stoull_padded hn]

/-! ## The five kinds of names -/

@[simp] theorem Manifest.dest_ne_tmp : Manifest.dest ≠ Manifest.tmp := by
  decide

namespace DB

theorem extension_sstPath (id : ℕ) : extension (sstPath id) = ascii ".sst" :=
  extension_append (b := ascii "sst") (by simp [ascii]) (by decide) (by decide)

theorem stem_sstPath (id : ℕ) : stem (sstPath id) = ascii "sst_" ++ Codec.padded 6 id :=
  stem_append (b := ascii "sst") (by simp [ascii]) (by decide) (by decide)

theorem extension_walSegPath (id : ℕ) : extension (walSegPath id) = ascii ".log" :=
  extension_append (b := ascii "log") (by simp [ascii]) (by decide) (by decide)

theorem stem_walSegPath (id : ℕ) : stem (walSegPath id) = ascii "wal_" ++ Codec.padded 6 id :=
  stem_append (b := ascii "log") (by simp [ascii]) (by decide) (by decide)

theorem walSegPath_ne_nil (id : ℕ) : walSegPath id ≠ [] := by
  simp [walSegPath, ascii]

theorem extension_donePath (id : ℕ) : extension (donePath (walSegPath id)) = ascii ".done" :=
  extension_append (b := ascii "done") (walSegPath_ne_nil id) (by decide) (by decide)

theorem stem_donePath (id : ℕ) : stem (donePath (walSegPath id)) = walSegPath id :=
  stem_append (b := ascii "done") (walSegPath_ne_nil id) (by decide) (by decide)

@[simp] theorem sstPath_inj {i j : ℕ} : sstPath i = sstPath j ↔ i = j := by
  rw [sstPath, sstPath, List.append_cancel_right_eq, List.append_cancel_left_eq, Codec.padded_inj]

@[simp] theorem walSegPath_inj {i j : ℕ} : walSegPath i = walSegPath j ↔ i = j := by
  rw [walSegPath, walSegPath, List.append_cancel_right_eq, List.append_cancel_left_eq,
    Codec.padded_inj]

@[simp] theorem donePath_inj {i j : ℕ} :
    donePath (walSegPath i) = donePath (walSegPath j) ↔ i = j := by
  rw [donePath, donePath, List.append_cancel_right_eq, walSegPath_inj]

/-- Names with different extensions differ. -/
theorem ne_of_extension {n n' : Name} (h : extension n ≠ extension n') : n ≠ n' :=
  fun hn ↦ h (congrArg extension hn)

@[simp] theorem sstPath_ne_walSegPath (i j : ℕ) : sstPath i ≠ walSegPath j :=
  ne_of_extension (by rw [extension_sstPath, extension_walSegPath]; decide)

@[simp] theorem sstPath_ne_donePath (i j : ℕ) : sstPath i ≠ donePath (walSegPath j) :=
  ne_of_extension (by rw [extension_sstPath, extension_donePath]; decide)

@[simp] theorem sstPath_ne_dest (i : ℕ) : sstPath i ≠ Manifest.dest :=
  ne_of_extension (by rw [extension_sstPath]; decide)

@[simp] theorem sstPath_ne_tmp (i : ℕ) : sstPath i ≠ Manifest.tmp :=
  ne_of_extension (by rw [extension_sstPath]; decide)

@[simp] theorem walSegPath_ne_donePath (i j : ℕ) : walSegPath i ≠ donePath (walSegPath j) :=
  ne_of_extension (by rw [extension_walSegPath, extension_donePath]; decide)

@[simp] theorem walSegPath_ne_dest (i : ℕ) : walSegPath i ≠ Manifest.dest :=
  ne_of_extension (by rw [extension_walSegPath]; decide)

@[simp] theorem walSegPath_ne_tmp (i : ℕ) : walSegPath i ≠ Manifest.tmp :=
  ne_of_extension (by rw [extension_walSegPath]; decide)

@[simp] theorem donePath_ne_dest (i : ℕ) : donePath (walSegPath i) ≠ Manifest.dest :=
  ne_of_extension (by rw [extension_donePath]; decide)

@[simp] theorem donePath_ne_tmp (i : ℕ) : donePath (walSegPath i) ≠ Manifest.tmp :=
  ne_of_extension (by rw [extension_donePath]; decide)

/-- A name a store uses. -/
inductive StoreName : Name → Prop
  | dest : StoreName Manifest.dest
  | tmp : StoreName Manifest.tmp
  | sst (id : ℕ) : StoreName (sstPath id)
  | log {id : ℕ} (h : id < 2 ^ 64) : StoreName (walSegPath id)
  | done (id : ℕ) : StoreName (donePath (walSegPath id))

/-! ## What recovery makes of them -/

@[simp] theorem isSealed_donePath (id : ℕ) : isSealed (donePath (walSegPath id)) = true := by
  rw [isSealed, extension_donePath, stem_donePath, extension_walSegPath]
  decide

@[simp] theorem isSealed_sstPath (id : ℕ) : isSealed (sstPath id) = false := by
  rw [isSealed, extension_sstPath]
  simp [ascii]

@[simp] theorem isSealed_walSegPath (id : ℕ) : isSealed (walSegPath id) = false := by
  rw [isSealed, extension_walSegPath]
  simp [ascii]

@[simp] theorem isSealed_dest : isSealed Manifest.dest = false := by
  decide

@[simp] theorem isSealed_tmp : isSealed Manifest.tmp = false := by
  decide

/-- **The number of a listed table.** -/
theorem listedId_sstPath {id : ℕ} (h : id < 2 ^ 64) : listedId (sstPath id) = .ok id := by
  rw [listedId, stem_sstPath, substr, if_neg (by simp [ascii])]
  exact stoull_padded h 6

theorem scannedId_of_extension {ext pre : Bytes} {p : Name} (h : extension p ≠ ext) :
    scannedId ext pre p = .ok none := by
  rw [scannedId, if_pos h]

theorem scannedId_of_stem {ext pre : Bytes} {p : Name} {id : ℕ} (hext : extension p = ext)
    (hstem : stem p = pre ++ Codec.padded 6 id) (hpre : pre.length = 4) (h : id < 2 ^ 64) :
    scannedId ext pre p = .ok (some id) := by
  rw [scannedId, if_neg (not_not_intro hext), hstem, if_neg, ← hpre, List.drop_left,
    stoull_padded h]
  · rfl
  · rw [← hpre, List.take_left, List.length_append, not_or]
    exact ⟨by omega, not_not_intro rfl⟩

/-- **The number of a segment.** -/
theorem scannedId_walSegPath {id : ℕ} (h : id < 2 ^ 64) :
    scannedId (ascii ".log") (ascii "wal_") (walSegPath id) = .ok (some id) :=
  scannedId_of_stem (extension_walSegPath id) (stem_walSegPath id) rfl h

/-- **The number of a table that is found.** -/
theorem scannedId_sstPath {id : ℕ} (h : id < 2 ^ 64) :
    scannedId (ascii ".sst") (ascii "sst_") (sstPath id) = .ok (some id) :=
  scannedId_of_stem (extension_sstPath id) (stem_sstPath id) rfl h

end DB

end KeyValStore
