import KeyValStore.Model.Io
import KeyValStore.Codec.SelfDelimiting

/-!
# The write-ahead log

A segment is an append-only file of records `[op:1][key_len:4][key][val_len:4][val]`.
-/

set_option autoImplicit false

namespace KeyValStore

open Crash

/-- `WalOp::Put`. -/
def WalOp.put : UInt8 := 0

/-- `WalOp::Del`. -/
def WalOp.del : UInt8 := 1

namespace WAL

variable {μ : Type}

/-- `WAL::WAL`: open the segment for appending, creating it if there is none. -/
def «open» (path : Name) : Io μ Name := do
  if ← openAppend path then return path else Prog.throw (.walOpen path)

/-- `WAL::append`.  It does not sync. -/
def append (f : Name) (op : UInt8) (key value : Bytes) : Io μ Unit := do
  fwrite f [op]
  wstr f key
  wstr f value

/-- `WAL::sync`: `fflush`, then `fsync`. -/
def sync (f : Name) : Io μ Unit := do
  call (.flush f)
  call (.sync f)

/-- `WAL::~WAL`: `fflush`, then `fclose`. -/
def close (f : Name) : Io μ Unit := do
  call (.flush f)
  call (.close f)

/-- One turn of the loop of `WAL::replay`: a record, if there is a complete one. -/
def readRecord : Bytes → Option (WalRecord × Bytes)
  | [] => none
  | op :: s => do
    let (key, s) ← rstr s
    let (value, s) ← rstr s
    some (⟨op, key, value⟩, s)

theorem rstr_length_lt {s t k : Bytes} (h : rstr s = some (k, t)) : t.length < s.length := by
  simp only [rstr, ru32, Option.bind_eq_bind, Option.bind_eq_some_iff] at h
  obtain ⟨⟨len, u⟩, hu, h⟩ := h
  split at h
  · have := Codec.readLE_length hu
    simp only [Option.some_inj, Prod.mk.injEq] at h
    rw [← h.2, List.length_drop]
    omega
  · simp at h

theorem readRecord_consumes {s t : Bytes} {r : WalRecord} (h : readRecord s = some (r, t)) :
    t.length < s.length := by
  cases s with
  | nil => simp [readRecord] at h
  | cons op s =>
    simp only [readRecord, Option.bind_eq_bind, Option.bind_eq_some_iff] at h
    obtain ⟨⟨key, s1⟩, h1, ⟨value, s2⟩, h2, h3⟩ := h
    have hk := rstr_length_lt h1
    have hv : s2.length < s1.length := rstr_length_lt h2
    simp only [Option.some_inj, Prod.mk.injEq] at h3
    rw [← h3.2, List.length_cons]
    omega

/-- The records of a segment: the loop of `WAL::replay`, which stops at the first incomplete
record. -/
def records (bs : Bytes) : List WalRecord := (⟨readRecord, readRecord_consumes⟩ :
  Codec.Decoder UInt8 WalRecord).all bs

/-- `WAL::replay`. -/
def replay (f : Name) (cb : WalRecord → Io μ Unit) : Io μ Unit := do
  match ← readFile f with
  | none => return
  | some bs => forM (records bs) cb

end WAL

end KeyValStore
