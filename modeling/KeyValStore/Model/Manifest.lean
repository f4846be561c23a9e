import KeyValStore.Model.Io

/-!
# The MANIFEST

A text file of lines `generation N` and `file NAME`, replaced by writing a temporary file and
renaming it.
-/

set_option autoImplicit false

namespace KeyValStore

open Crash

/-- The data of a MANIFEST. -/
structure ManifestData where
  /-- The generation. -/
  generation : ℕ := 0
  /-- The names of the live tables, newest first. -/
  liveSstables : List Name := []
  deriving DecidableEq, Repr

namespace Manifest

variable {μ : Type}

/-- The name of the MANIFEST. -/
def dest : Name := ascii "MANIFEST"

/-- The name of the temporary file. -/
def tmp : Name := ascii "MANIFEST.tmp"

/-- `Manifest::exists`. -/
def «exists» : Io μ Bool := fileExists dest

/-- The loop of `Manifest::read` over the lines. -/
def readLines (d : ManifestData) : List Bytes → Except Error ManifestData
  | [] => .ok d
  | line :: rest =>
    if ascii "generation " <+: line then do
      let generation ← stoull (line.drop 11)
      readLines { d with generation } rest
    else if ascii "file " <+: line then
      readLines { d with liveSstables := d.liveSstables ++ [line.drop 5] } rest
    else readLines d rest

/-- `Manifest::read` on the content of the file. -/
def parse (bs : Bytes) : Except Error ManifestData := readLines {} (lines bs)

/-- `Manifest::read`. -/
def read : Io μ ManifestData := do
  match ← readFile dest with
  | none => Prog.throw .manifestOpen
  | some bs => Prog.ofExcept (parse bs)

/-- What `Manifest::write` inserts into the stream, one piece for each `<<`. -/
def pieces (data : ManifestData) : List Bytes :=
  [ascii "generation ", Codec.decimal data.generation, ascii "\n"] ++
    data.liveSstables.flatMap fun s ↦ [ascii "file ", s, ascii "\n"]

/-- Insert the pieces into an output stream; a failed insertion makes the rest do nothing.  Answers
whether the stream is still good. -/
def insertAll (f : Name) : List Bytes → Io μ Bool
  | [] => return true
  | p :: ps => do
    let n : ℕ ← Prog.issue (Call.write f p)
    if n < p.length then return false else insertAll f ps

/-- `Manifest::write`.  The stream is closed at the end of its scope, and when the exception leaves
it; nobody looks whether that worked. -/
def write (data : ManifestData) : Io μ Unit := do
  if !(← openTrunc tmp) then Prog.throw .manifestTmpOpen
  let good ← insertAll tmp (pieces data)
  call (.close tmp)
  if !good then Prog.throw .manifestTmpWrite
  call (.sync tmp)
  if !(← rename tmp dest) then
    call (.remove dest)
    if !(← rename tmp dest) then Prog.throw .manifestRename

end Manifest

end KeyValStore
