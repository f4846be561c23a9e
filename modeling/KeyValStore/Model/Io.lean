import KeyValStore.Model.MemTable

/-!
# The calls the code makes

`Io μ` is the monad of the model: programs over the calls of a directory, with a memory of type
`μ`, that throw an `Error`.  `Mark` lists the points of the code that properties talk about.

`wu32`, `wu64` and `wstr` write through a stdio stream and ignore the answer, as the helpers of
that name do; `wal.cpp` and `sstable.cpp` hold the same text for `wu32`, `wstr`, `ru32` and `rstr`.
The readers work on what is left of the stream.
-/

set_option autoImplicit false

namespace KeyValStore

open Crash

/-- A record of the write-ahead log.  The operation is a byte: 0 is `WalOp::Put`, and whatever else
is read back is treated as `WalOp::Del`. -/
structure WalRecord where
  /-- The operation. -/
  op : UInt8
  /-- The key. -/
  key : Bytes
  /-- The value; empty for a deletion. -/
  value : Bytes
  deriving DecidableEq, Repr

/-- The points of the code that properties talk about: `SSTable::build` is entered, recovery hands
a record to its callback, `flush_memtable_locked` is about to return having flushed. -/
inductive Mark
  | build (path : Name) (entries : Entries)
  | replayed (r : WalRecord)
  | flushed

/-- The programs of the model. -/
abbrev Io (μ α : Type) := Prog (@Reply Mark) μ Error α

variable {μ : Type}

/-- Issue a call and ignore the answer. -/
def call (c : Call Mark) : Io μ Unit := do let _ ← Prog.issue c

/-- The content of a file, read from start to end; `none` when it cannot be opened. -/
abbrev readFile (f : Name) : Io μ (Option Bytes) := Prog.issue (Call.readFile f)

/-- The names a `directory_iterator` visits. -/
abbrev listDir : Io μ (List Name) := Prog.issue Call.listDir

/-- `ftell64` at the end of a file that is being written. -/
abbrev tell (f : Name) : Io μ ℕ := Prog.issue (Call.tell f)

/-- A call that answers whether it succeeded. -/
abbrev fileExists (f : Name) : Io μ Bool := Prog.issue (Call.fileExists f)

@[inherit_doc fileExists]
abbrev openTrunc (f : Name) : Io μ Bool := Prog.issue (Call.openTrunc f)

@[inherit_doc fileExists]
abbrev openAppend (f : Name) : Io μ Bool := Prog.issue (Call.openAppend f)

@[inherit_doc fileExists]
abbrev rename (old new : Name) : Io μ Bool := Prog.issue (Call.rename old new)

/-- `fwrite`, its result ignored. -/
def fwrite (f : Name) (bs : Bytes) : Io μ Unit := call (.write f bs)

/-- `wu32`: a number cast to `uint32_t`. -/
def wu32 (f : Name) (v : ℕ) : Io μ Unit := fwrite f (Codec.le 4 v)

/-- `wu64`. -/
def wu64 (f : Name) (v : ℕ) : Io μ Unit := fwrite f (Codec.le 8 v)

/-- `wstr`: the length, then the bytes. -/
def wstr (f : Name) (s : Bytes) : Io μ Unit := do
  wu32 f s.length
  fwrite f s

/-- `ru32`. -/
def ru32 (s : Bytes) : Option (ℕ × Bytes) := Codec.readLE 4 s

/-- `ru64`. -/
def ru64 (s : Bytes) : Option (ℕ × Bytes) := Codec.readLE 8 s

/-- `rstr`. -/
def rstr (s : Bytes) : Option (Bytes × Bytes) := do
  let (len, s) ← ru32 s
  if len ≤ s.length then some (s.take len, s.drop len) else none

end KeyValStore
