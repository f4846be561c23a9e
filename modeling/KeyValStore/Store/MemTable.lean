import KeyValStore.Model.MemTable

/-!
# What the MemTable holds and what it counts

After any sequence of operations on an empty MemTable, a key has the entry of the last operation on
it since the last `clear`, and the byte counter is the number of bytes in the keys and values that
are stored (`memTable_exact`).  The counter works modulo `2 ^ 64`, so the invariant `Counted` says
the same modulo `2 ^ 64` and needs no bound.
-/

set_option autoImplicit false

namespace KeyValStore

open Crash Std

namespace Entries

/-! ## Counting bytes -/

/-- The bytes of the keys and values. -/
def byteCount (entries : Entries) : ℕ :=
  (entries.toList.map fun e ↦ e.1.length + e.2.value.length).sum

theorem nodup_toList (entries : Entries) : entries.toList.Nodup :=
  ExtTreeMap.distinct_keys_toList.imp fun h heq ↦ h (by rw [heq]; exact ReflCmp.compare_self)

/-- The entries of a map that has `e` under `key`: that one, and those under other keys. -/
theorem perm_erase {entries : Entries} {key : Bytes} {e : MemEntry} (h : entries[key]? = some e) :
    entries.toList.Perm ((key, e) :: (entries.erase key).toList) := by
  have hnot : (key, e) ∉ (entries.erase key).toList := by
    rw [ExtTreeMap.mem_toList_iff_getElem?_eq_some, ExtTreeMap.getElem?_erase_self]
    simp
  refine (List.perm_ext_iff_of_nodup (nodup_toList _) ((nodup_toList _).cons hnot)).2
    fun ⟨k, e'⟩ ↦ ?_
  rw [List.mem_cons, ExtTreeMap.mem_toList_iff_getElem?_eq_some,
    ExtTreeMap.mem_toList_iff_getElem?_eq_some, ExtTreeMap.getElem?_erase]
  by_cases hk : compare key k = .eq
  · obtain rfl := LawfulEqCmp.eq_of_compare hk
    simp [h, eq_comm]
  · have hne : k ≠ key := by
      rintro rfl
      exact hk ReflCmp.compare_self
    simp [hk, hne]

theorem byteCount_of_getElem? {entries : Entries} {key : Bytes} {e : MemEntry}
    (h : entries[key]? = some e) :
    entries.byteCount = key.length + e.value.length + byteCount (entries.erase key) := by
  rw [byteCount, ((perm_erase h).map _).sum_eq, List.map_cons, List.sum_cons, byteCount]

theorem byteCount_insert (entries : Entries) (key : Bytes) (e : MemEntry) :
    byteCount (entries.insert key e) = key.length + e.value.length +
      byteCount (entries.erase key) := by
  have herase : (entries.insert key e).erase key = entries.erase key := by
    refine ExtTreeMap.ext_getElem? fun k ↦ ?_
    rw [ExtTreeMap.getElem?_erase, ExtTreeMap.getElem?_erase, ExtTreeMap.getElem?_insert]
    split <;> rfl
  have hself : (entries.insert key e)[key]? = some e := ExtTreeMap.getElem?_insert_self
  rw [byteCount_of_getElem? hself, herase]

theorem byteCount_erase_of_none {entries : Entries} {key : Bytes} (h : entries[key]? = none) :
    byteCount (entries.erase key) = entries.byteCount := by
  congr 1
  refine ExtTreeMap.ext_getElem? fun k ↦ ?_
  rw [ExtTreeMap.getElem?_erase]
  split
  · rename_i hk
    obtain rfl := LawfulEqCmp.eq_of_compare hk
    exact h.symm
  · rfl

end Entries

/-! ## Operations -/

/-- An operation on a MemTable. -/
inductive MemOp
  | put (key value : Bytes)
  | del (key : Bytes)
  | clear

/-- What the operation says about a key: nothing, or the entry the key has afterwards. -/
def MemOp.entryOf (key : Bytes) : MemOp → Option (Option MemEntry)
  | put k value => if k = key then some (some ⟨value, false⟩) else none
  | del k => if k = key then some (some ⟨[], true⟩) else none
  | clear => some none

namespace MemTable

/-- Carry out an operation. -/
def run (t : MemTable) : MemOp → MemTable
  | .put key value => t.put key value
  | .del key => t.del key
  | .clear => t.clear

/-- Carry out operations, from an empty MemTable on. -/
def runAll (ops : List MemOp) : MemTable := ops.foldl run {}

/-- The entry of the last operation on `key` since the last `clear`. -/
def lastEntry (ops : List MemOp) (key : Bytes) : Option MemEntry :=
  (ops.reverse.findSome? (MemOp.entryOf key)).join

theorem runAll_snoc (ops : List MemOp) (op : MemOp) :
    runAll (ops ++ [op]) = (runAll ops).run op := by
  rw [runAll, List.foldl_append]
  rfl

theorem lastEntry_snoc (ops : List MemOp) (op : MemOp) (key : Bytes) :
    lastEntry (ops ++ [op]) key = (op.entryOf key).getD (lastEntry ops key) := by
  rw [lastEntry, List.reverse_append, List.reverse_singleton, List.singleton_append,
    List.findSome?_cons]
  cases op.entryOf key <;> rfl

/-! ## Contents -/

theorem data_store (t : MemTable) (key : Bytes) (e : MemEntry) :
    (t.store key e).data = t.data.insert key e := by
  rw [store]
  split <;> rfl

theorem raw_store (t : MemTable) (key : Bytes) (e : MemEntry) (k : Bytes) :
    (t.store key e).raw k = if key = k then some e else t.raw k := by
  rw [raw, data_store, ExtTreeMap.getElem?_insert, raw]
  by_cases hk : key = k
  · rw [if_pos hk, if_pos (hk ▸ ReflCmp.compare_self)]
  · rw [if_neg hk, if_neg fun h ↦ hk (LawfulEqCmp.eq_of_compare h)]

/-- What one operation does to the entry of a key. -/
theorem raw_run (t : MemTable) (op : MemOp) (key : Bytes) :
    (t.run op).raw key = (op.entryOf key).getD (t.raw key) := by
  cases op with
  | put k value =>
    refine (t.raw_store k ⟨value, false⟩ key).trans ?_
    rw [MemOp.entryOf]
    split <;> rfl
  | del k =>
    refine (t.raw_store k ⟨[], true⟩ key).trans ?_
    rw [MemOp.entryOf]
    split <;> rfl
  | clear => exact ExtTreeMap.getElem?_empty

/-! ## The counter -/

/-- The counter is right, modulo `2 ^ 64`. -/
def Counted (t : MemTable) : Prop := t.bytes = UInt64.ofNat t.data.byteCount

theorem Counted.toNat_bytes {t : MemTable} (h : t.Counted) (hlt : t.data.byteCount < 2 ^ 64) :
    t.bytes.toNat = t.data.byteCount := by
  rw [h, UInt64.toNat_ofNat', Nat.mod_eq_of_lt hlt]

/-- Both `put` and `del` leave the counter short of the new value only. -/
theorem Counted.store {t : MemTable} (h : t.Counted) (key : Bytes) (e : MemEntry) :
    (t.store key e).bytes + e.value.length.toUInt64 =
    UInt64.ofNat (Entries.byteCount (t.data.insert key e)) := by
  have hsum : UInt64.ofNat (Entries.byteCount (t.data.insert key e)) =
      UInt64.ofNat (key.length + Entries.byteCount (t.data.erase key)) +
        e.value.length.toUInt64 := by
    rw [Entries.byteCount_insert, Nat.add_right_comm]
    exact UInt64.ofNat_add _ _
  rw [hsum, MemTable.store]
  congr 1
  cases hk : t.data[key]? with
  | none =>
    show t.bytes + key.length.toUInt64 = _
    rw [h, Entries.byteCount_erase_of_none hk, Nat.add_comm]
    exact (UInt64.ofNat_add _ _).symm
  | some old =>
    show t.bytes - old.value.length.toUInt64 = _
    rw [h, Entries.byteCount_of_getElem? hk, Nat.add_right_comm, UInt64.ofNat_add]
    exact UInt64.add_sub_cancel _ _

theorem Counted.run {t : MemTable} (h : t.Counted) (op : MemOp) : (t.run op).Counted := by
  cases op with
  | put key value =>
    have hs := h.store key ⟨value, false⟩
    rw [← data_store] at hs
    exact hs
  | del key =>
    have hs := h.store key ⟨[], true⟩
    rw [← data_store] at hs
    exact (UInt64.add_zero _).symm.trans hs
  | clear => rfl

theorem counted_runAll (ops : List MemOp) : (runAll ops).Counted := by
  induction ops using List.reverseRecOn with
  | nil => rfl
  | append_singleton ops op ih =>
    rw [runAll_snoc]
    exact ih.run op

theorem raw_runAll (ops : List MemOp) (key : Bytes) : (runAll ops).raw key = lastEntry ops key := by
  induction ops using List.reverseRecOn with
  | nil => exact ExtTreeMap.getElem?_empty
  | append_singleton ops op ih => rw [runAll_snoc, raw_run, lastEntry_snoc, ih]

/-- **Contents and byte count stay exact.**  Every key has the entry of the last operation on it
since the last `clear`; and while the entries have less than `2 ^ 64` bytes, the counter is their
number, so that subtracting the length of a stored value does not underflow. -/
theorem memTable_exact {ops : List MemOp} (h : (runAll ops).data.byteCount < 2 ^ 64) :
    (∀ key, (runAll ops).raw key = lastEntry ops key) ∧
      (runAll ops).bytes.toNat = (runAll ops).data.byteCount ∧
      ∀ key e, (runAll ops).raw key = some e → e.value.length ≤ (runAll ops).bytes.toNat := by
  have hbytes := (counted_runAll ops).toNat_bytes h
  refine ⟨raw_runAll ops, hbytes, fun key e he ↦ ?_⟩
  rw [hbytes, Entries.byteCount_of_getElem? he]
  omega

/-- A key is written, deleted and written again. -/
theorem memTable_exact_rewritten :
    (runAll [.put [107] [118, 118], .del [107], .put [107] [119]]).raw [107] = some ⟨[119], false⟩ ∧
      (runAll [.put [107] [118, 118], .del [107], .put [107] [119]]).bytes.toNat = 2 := by
  obtain ⟨hraw, hbytes, -⟩ := @memTable_exact [.put [107] [118, 118], .del [107], .put [107] [119]]
    (by decide)
  exact ⟨hraw [107], hbytes⟩

end MemTable

end KeyValStore
