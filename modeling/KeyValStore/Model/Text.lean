import KeyValStore.Crash.FileSystem
import KeyValStore.Codec.Words
import KeyValStore.Codec.Decimal

/-!
# Strings, names and numbers

What the code uses of the standard library on strings: `std::string` is a string of bytes compared
as unsigned characters, a file name is such a string, and `extension` and `stem` are those of
`std::filesystem::path`.  The operations that can throw (`substr`, `std::stoull`) return `Except`.

Paths are relative to the data directory, so a path is a file name.
-/

set_option autoImplicit false

namespace KeyValStore

open Crash

/-- The bytes of an ASCII literal. -/
def ascii (s : String) : Bytes := s.toList.map fun c ↦ UInt8.ofNat c.toNat

/-- Arithmetic on `uint64_t`. -/
def u64 (n : ℕ) : ℕ := n % 2 ^ 64

/-- What the code throws, and what the standard library throws under it.  `nullWal` is not an
exception of the source: it is the use of `wal_` while it is null. -/
inductive Error
  | walOpen (path : Name)
  | sstBuild (path : Name)
  | sstOpen (path : Name)
  | bloomTruncated
  | manifestOpen
  | manifestTmpOpen
  | manifestTmpWrite
  | manifestRename
  | invalidArgument
  | outOfRange
  | nullWal
  deriving DecidableEq

/-- The texts of the exceptions the code itself throws. -/
def Error.what : Error → Option Bytes
  | walOpen path => some (ascii "cannot open WAL: " ++ path)
  | sstBuild path => some (ascii "SSTable::build failed: " ++ path)
  | sstOpen path => some (ascii "SSTable open failed: " ++ path)
  | bloomTruncated => some (ascii "BloomFilter: truncated data")
  | manifestOpen => some (ascii "cannot open MANIFEST")
  | manifestTmpOpen => some (ascii "cannot write MANIFEST.tmp")
  | manifestTmpWrite => some (ascii "MANIFEST.tmp write failed")
  | manifestRename | invalidArgument | outOfRange | nullWal => none

/-! ## Paths -/

/-- `path::extension`: from the last period on, unless that period starts the name. -/
def extension (n : Name) : Bytes :=
  let tail := (n.reverse.takeWhile (· ≠ 46)).reverse
  if n.length ≤ tail.length + 1 ∨ n = ascii ".." then [] else 46 :: tail

/-- `path::stem`: the name without its extension. -/
def stem (n : Name) : Bytes := n.take (n.length - (extension n).length)

/-! ## Numbers in text -/

/-- `std::string::substr(pos)`. -/
def substr (s : Bytes) (pos : ℕ) : Except Error Bytes :=
  if s.length < pos then .error .outOfRange else .ok (s.drop pos)

/-- `isspace` in the C locale. -/
def isSpace (c : UInt8) : Bool := c = 32 || (9 ≤ c.toNat && c.toNat ≤ 13)

/-- `std::stoull`: leading spaces, a sign, and the longest run of digits; the rest is ignored. -/
def stoull (s : Bytes) : Except Error ℕ :=
  let s := s.dropWhile isSpace
  let (negative, s) := match s with
    | 45 :: t => (true, t)
    | 43 :: t => (false, t)
    | t => (false, t)
  let digits := s.takeWhile Codec.isDigit
  if digits = [] then .error .invalidArgument
  else if 2 ^ 64 ≤ Codec.ofDecimal digits then .error .outOfRange
  else .ok (if negative then u64 (2 ^ 64 - Codec.ofDecimal digits) else Codec.ofDecimal digits)

/-- The lines `std::getline` reads: the text between newlines, and what follows the last newline
if anything does. -/
def lines (s : Bytes) : List Bytes :=
  if s = [] then [] else
    match _h : s.dropWhile (· ≠ 10) with
    | [] => [s]
    | _ :: t => s.takeWhile (· ≠ 10) :: lines t
termination_by s.length
decreasing_by
  have := (List.dropWhile_suffix (l := s) (· ≠ 10)).length_le
  rw [_h, List.length_cons] at this
  omega

end KeyValStore
