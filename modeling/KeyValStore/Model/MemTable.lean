import KeyValStore.Model.Text

/-!
# The MemTable

`std::map<std::string, MemEntry>` is a finite map ordered by the byte order of its keys, and the
byte counter is a `size_t` that is adjusted as entries come and go.
-/

set_option autoImplicit false

namespace KeyValStore

open Crash Std

/-- What the MemTable holds for a key. -/
structure MemEntry where
  /-- The value; empty for a tombstone. -/
  value : Bytes
  /-- Has the key been deleted? -/
  tombstone : Bool := false
  deriving DecidableEq, Repr

/-- An ordered map of entries: the contents of a MemTable, and of an SSTable. -/
abbrev Entries := ExtTreeMap Bytes MemEntry compare

/-- The in-memory buffer of recent writes. -/
structure MemTable where
  /-- The entries. -/
  data : Entries := ∅
  /-- The bytes of keys and values, as the code counts them. -/
  bytes : UInt64 := 0

namespace MemTable

/-- Write `entry` under `key`, adjusting the counter as both `put` and `del` do before they account
for the new value. -/
def store (t : MemTable) (key : Bytes) (entry : MemEntry) : MemTable :=
  match t.data[key]? with
  | some old => ⟨t.data.insert key entry, t.bytes - old.value.length.toUInt64⟩
  | none => ⟨t.data.insert key entry, t.bytes + key.length.toUInt64⟩

/-- `MemTable::put`. -/
def put (t : MemTable) (key value : Bytes) : MemTable :=
  let t := t.store key ⟨value, false⟩
  ⟨t.data, t.bytes + value.length.toUInt64⟩

/-- `MemTable::del`. -/
def del (t : MemTable) (key : Bytes) : MemTable := t.store key ⟨[], true⟩

/-- `MemTable::raw`. -/
def raw (t : MemTable) (key : Bytes) : Option MemEntry := t.data[key]?

/-- `MemTable::get`. -/
def get (t : MemTable) (key : Bytes) : Option Bytes :=
  match t.data[key]? with
  | some e => if e.tombstone then none else some e.value
  | none => none

/-- `MemTable::size`. -/
def size (t : MemTable) : ℕ := t.data.size

/-- `MemTable::empty`. -/
def empty (t : MemTable) : Bool := t.data.isEmpty

/-- `MemTable::clear`. -/
def clear (_ : MemTable) : MemTable := {}

end MemTable

end KeyValStore
