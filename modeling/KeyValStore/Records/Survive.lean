import KeyValStore.SSTable.Lookup
import KeyValStore.Wal.Log

/-!
# Which strings survive

Neither the log nor the table bounds the length of a string, but both write it into 32 bits.  What
is written is read back exactly as long as every length fits.
-/

set_option autoImplicit false

namespace KeyValStore

open Crash Std

/-- A string is read back from what `wstr` writes exactly if it is short. -/
theorem rstr_strBytes_iff (s : Bytes) : rstr (strBytes s) = some (s, []) ↔ Short s := by
  constructor
  · exact fun h ↦ (rstr_eq_some h).1
  · exact fun h ↦ by simpa using rstr_strBytes h []

/-- **Exactly the short strings survive.**  A string is read back from what `wstr` writes if and
only if it is short; a log gives back what was appended if and only if all strings of its records
are short; and a table that a file can hold gives back its entries if and only if all their strings
are short and its Bloom filter stays below `2 ^ 32` bits. -/
theorem strings_survive_iff (s : Bytes) (path : Name) (rs : List WalRecord) (sz : Sizing)
    (entries : Entries) (d : Disk) (hd : d[path]? = none)
    (hfile : (SSTable.image sz entries).length < 2 ^ 63) :
    (rstr (strBytes s) = some (s, []) ↔ Short s) ∧
    ((WAL.appendAndReplay path rs).Returns reliable [] d (fun _ read _ ↦ read = rs) ↔
      ∀ r ∈ rs, r.IsShort) ∧
    ((SSTable.buildAndScan sz path entries).Returns reliable () d
        (fun es _ _ ↦ es = entries.scanned) ↔
      (∀ e ∈ entries.toList, SSTable.ShortEntry e) ∧
        (BloomFilter.sized sz entries.size).m.toNat < 2 ^ 32) :=
  ⟨rstr_strBytes_iff s, WAL.appendAndReplay_iff hd, SSTable.buildAndScan_iff hfile path () d⟩

theorem strings_survive_single :
    (rstr (strBytes [107]) = some ([107], []) ↔ Short [107]) ∧
    ((WAL.appendAndReplay [119] [⟨WalOp.put, [107], [118]⟩]).Returns reliable [] ∅
        (fun _ read _ ↦ read = [⟨WalOp.put, [107], [118]⟩]) ↔
      ∀ r ∈ [(⟨WalOp.put, [107], [118]⟩ : WalRecord)], r.IsShort) ∧
    ((SSTable.buildAndScan .onePercent [119] SSTable.single).Returns reliable () ∅
        (fun es _ _ ↦ es = SSTable.single.scanned) ↔
      (∀ e ∈ SSTable.single.toList, SSTable.ShortEntry e) ∧
        (BloomFilter.sized .onePercent SSTable.single.size).m.toNat < 2 ^ 32) :=
  strings_survive_iff [107] [119] _ .onePercent SSTable.single ∅ (by simp)
    SSTable.fits_single.length_image_lt

/-- A key of `2 ^ 32` bytes. -/
def longKey : Bytes := List.replicate (2 ^ 32) 107

theorem not_short_longKey : ¬Short longKey := by
  rw [Short, longKey, List.length_replicate]
  exact lt_irrefl _

/-- A record with a key of `2 ^ 32` bytes is not replayed. -/
theorem longKey_lost :
    ¬(WAL.appendAndReplay [119] [⟨WalOp.put, longKey, []⟩]).Returns reliable [] ∅
      fun _ read _ ↦ read = [⟨WalOp.put, longKey, []⟩] := by
  rw [WAL.appendAndReplay_iff (by simp)]
  intro h
  exact not_short_longKey (h _ List.mem_cons_self).1

end KeyValStore
