import KeyValStore.Model.Wal
import KeyValStore.Model.SSTable

/-!
# Log records and table entries as self-delimiting encodings

Both files are sequences of length-prefixed strings with a byte here and there.  A string of less
than `2 ^ 32` bytes is read back from what `wstr` writes (`rstr_strBytes`), and whatever `rstr`
reads was written by `wstr` for such a string (`rstr_eq_some`).  This makes the records of a log
(`walCodec`) and the entries of a table (`entryCodec`) instances of `Codec.SelfDelimiting`.
-/

set_option autoImplicit false

namespace KeyValStore

open Crash

/-! ## Strings -/

/-- The bytes `wstr` writes. -/
def strBytes (s : Bytes) : Bytes := Codec.le 4 s.length ++ s

/-- The string's length fits the 32 bits `wstr` has for it. -/
def Short (s : Bytes) : Prop := s.length < 2 ^ 32

instance (s : Bytes) : Decidable (Short s) := inferInstanceAs (Decidable (s.length < 2 ^ 32))

theorem length_strBytes (s : Bytes) : (strBytes s).length = 4 + s.length := by
  simp [strBytes]

/-- **The round trip of a string.** -/
theorem rstr_strBytes {s : Bytes} (h : Short s) (t : Bytes) :
    rstr (strBytes s ++ t) = some (s, t) := by
  have hlen : s.length % 256 ^ 4 = s.length := Nat.mod_eq_of_lt h
  simp only [rstr, ru32, strBytes, List.append_assoc, Codec.readLE_le_append, hlen,
    Option.bind_eq_bind, Option.bind_some]
  rw [if_pos (by simp), List.take_left, List.drop_left]

/-- What is read was written for a short string. -/
theorem rstr_eq_some {s t k : Bytes} (h : rstr s = some (k, t)) :
    Short k ∧ s = strBytes k ++ t := by
  simp only [rstr, ru32, Option.bind_eq_bind, Option.bind_eq_some_iff] at h
  obtain ⟨⟨len, u⟩, hu, h⟩ := h
  obtain ⟨hlt, rfl⟩ := Codec.readLE_eq_some hu
  dsimp only at h
  split at h
  · rename_i hle
    rw [Option.some_inj, Prod.mk.injEq] at h
    obtain ⟨rfl, rfl⟩ := h
    have hk : (u.take len).length = len := by simpa using hle
    refine ⟨?_, ?_⟩
    · rw [Short, hk]
      exact hlt
    · rw [strBytes, hk, List.append_assoc, List.take_append_drop]
  · simp at h

/-! ## Log records -/

namespace WalRecord

/-- Both strings of the record are short. -/
def IsShort (r : WalRecord) : Prop := Short r.key ∧ Short r.value

instance (r : WalRecord) : Decidable r.IsShort := inferInstanceAs (Decidable (_ ∧ _))

/-- The bytes `WAL::append` writes. -/
def bytes (r : WalRecord) : Bytes := [r.op] ++ strBytes r.key ++ strBytes r.value

/-- What it hands to `fwrite`, call by call. -/
def pieces (r : WalRecord) : List Bytes :=
  [[r.op], Codec.le 4 r.key.length, r.key, Codec.le 4 r.value.length, r.value]

end WalRecord

/-- The records of a log. -/
def walCodec : Codec.SelfDelimiting UInt8 WalRecord where
  run := WAL.readRecord
  consumes := WAL.readRecord_consumes
  enc := WalRecord.bytes
  valid := WalRecord.IsShort
  run_enc {r} s h := by
    simp [WalRecord.bytes, WAL.readRecord, rstr_strBytes h.1, rstr_strBytes h.2]
  enc_of_run {s t r} h := by
    cases s with
    | nil => simp [WAL.readRecord] at h
    | cons op s =>
      simp only [WAL.readRecord, Option.bind_eq_bind, Option.bind_eq_some_iff] at h
      obtain ⟨⟨key, s1⟩, h1, ⟨value, s2⟩, h2, h3⟩ := h
      obtain ⟨hk, rfl⟩ := rstr_eq_some h1
      obtain ⟨hv, rfl⟩ := rstr_eq_some h2
      rw [Option.some_inj, Prod.mk.injEq] at h3
      obtain ⟨rfl, rfl⟩ := h3
      exact ⟨⟨hk, hv⟩, by simp [WalRecord.bytes]⟩

theorem walRecords_eq (bs : Bytes) : WAL.records bs = walCodec.all bs := rfl

/-! ## Table entries -/

/-- The entries of a table, with their flag byte. -/
def entryCodec : Codec.SelfDelimiting UInt8 (Bytes × UInt8 × Bytes) where
  run := SSTable.readEntry
  consumes := SSTable.readEntry_consumes
  enc e := strBytes e.1 ++ [e.2.1] ++ strBytes e.2.2
  valid e := Short e.1 ∧ Short e.2.2
  run_enc {e} s h := by
    simp [SSTable.readEntry, rstr_strBytes h.1, rstr_strBytes h.2]
  enc_of_run {s t e} h := by
    simp only [SSTable.readEntry, Option.bind_eq_bind, Option.bind_eq_some_iff] at h
    obtain ⟨⟨key, s1⟩, h1, h⟩ := h
    obtain ⟨hk, rfl⟩ := rstr_eq_some h1
    cases s1 with
    | nil => simp at h
    | cons flags s1 =>
      simp only [Option.bind_eq_some_iff] at h
      obtain ⟨⟨value, s2⟩, h2, h3⟩ := h
      obtain ⟨hv, rfl⟩ := rstr_eq_some h2
      rw [Option.some_inj, Prod.mk.injEq] at h3
      obtain ⟨rfl, rfl⟩ := h3
      exact ⟨⟨hk, hv⟩, by simp⟩

namespace SSTable

/-- The bytes of one data entry. -/
def entryBytes (e : Bytes × MemEntry) : Bytes :=
  strBytes e.1 ++ [flagsOf e.2] ++ strBytes e.2.value

/-- The data section. -/
def dataBytes (es : List (Bytes × MemEntry)) : Bytes := es.flatMap entryBytes

@[simp] theorem dataBytes_nil : dataBytes [] = [] := rfl

@[simp] theorem dataBytes_cons (e : Bytes × MemEntry) (es : List (Bytes × MemEntry)) :
    dataBytes (e :: es) = entryBytes e ++ dataBytes es := rfl

@[simp] theorem dataBytes_append (es fs : List (Bytes × MemEntry)) :
    dataBytes (es ++ fs) = dataBytes es ++ dataBytes fs :=
  List.flatMap_append

theorem length_entryBytes (e : Bytes × MemEntry) :
    (entryBytes e).length = 9 + e.1.length + e.2.value.length := by
  simp only [entryBytes, List.length_append, length_strBytes, List.length_singleton]
  omega

/-- Both strings of the entry are short. -/
def ShortEntry (e : Bytes × MemEntry) : Prop := Short e.1 ∧ Short e.2.value

theorem readEntry_entryBytes {e : Bytes × MemEntry} (h : ShortEntry e) (s : Bytes) :
    readEntry (entryBytes e ++ s) = some ((e.1, flagsOf e.2, e.2.value), s) := by
  have hrun := entryCodec.run_enc (a := (e.1, flagsOf e.2, e.2.value)) s h
  exact hrun

theorem isTombstone_flagsOf (e : MemEntry) : isTombstone (flagsOf e) = e.tombstone := by
  cases h : e.tombstone <;> simp [isTombstone, flagsOf, h]

end SSTable

end KeyValStore
