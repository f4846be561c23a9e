import KeyValStore.Crash.Within
import KeyValStore.Codec.Tokens
import KeyValStore.Model.DB

/-!
# The command line

`main` opens a store and carries out what it reads from `std::cin`, line by line, until it is told
to stop or there is nothing more to read.  The memory of the process is the store and what has been
written to `std::cout`.  A line is read as a stream of words: what `ss >> word` leaves is passed on.
-/

set_option autoImplicit false

namespace KeyValStore

open Crash

/-- The memory of the process. -/
structure Repl where
  /-- `db`. -/
  db : DB := {}
  /-- What has been written to `std::cout`. -/
  out : Bytes := []

namespace Repl

/-- The store is a part of the memory. -/
def store : Part DB Repl where
  get := db
  set db r := { r with db }
  get_set _ _ := rfl
  set_get _ := rfl
  set_set _ _ _ := rfl

/-- Use the store. -/
abbrev onStore {α : Type} (p : Io DB α) : Io Repl α := p.within store

/-- Write to `std::cout`. -/
def print (text : Bytes) : Io Repl Unit := modify fun r ↦ { r with out := r.out ++ text }

/-- `ss >> word`. -/
def word (ss : Bytes) : Bytes × Bytes := Codec.token isSpace ss

/-- What `main` asks of the store. -/
def options : Options := ⟨4 * 1024, 4⟩

/-! ## Texts -/

/-- The text of `print_help`. -/
def help : Bytes :=
  ascii "  put <key> <value>   write a key\n" ++
  ascii "  get <key>           read a key\n" ++
  ascii "  del <key>           delete a key\n" ++
  ascii "  stats               show engine internals\n" ++
  -- the arrow is the character U+2192
  ascii "  flush               force MemTable " ++ [0xe2, 0x86, 0x92] ++ ascii " SSTable\n" ++
  ascii "  compact             merge all SSTables into one\n" ++
  ascii "  help                this message\n" ++
  ascii "  exit / quit         close\n"

/-- What `main` writes before it opens the store.  The dash is the character U+2014. -/
def banner (dir : Bytes) : Bytes :=
  ascii "kvstore  " ++ [0xe2, 0x80, 0x94] ++ ascii "  LSM-tree key-value store\n" ++
  ascii "data dir : " ++ dir ++ ascii "\n\n"

/-- What it writes about the recovery. -/
def recoveryText (replayed : ℕ) : Bytes :=
  if 0 < replayed then ascii "[recovery] replayed " ++ Codec.decimal replayed ++
  ascii " WAL entries\n" else []

/-- What it writes before it reads the first line. -/
def hint : Bytes := ascii "type 'help' for commands\n\n"

/-- What it writes before it reads a line. -/
def prompt : Bytes := ascii "> "

/-- What it writes in the end. -/
def farewell : Bytes := ascii "\nshutting down...\n"

/-- What `stats` shows. -/
def statsText (s : DBStats) : Bytes :=
  ascii "memtable : " ++ Codec.decimal s.memtableEntries ++ ascii " entries, " ++
  Codec.decimal s.memtableBytes.toNat ++ ascii " bytes\n" ++
  ascii "sstables : " ++ Codec.decimal s.sstableCount ++ ascii " file(s)\n" ++
  ascii "manifest : generation " ++ Codec.decimal s.manifestGen ++ ascii "\n" ++
  ascii "wal seg  : wal_" ++ Codec.padded 6 s.activeWalId ++ ascii ".log\n" ++
  ascii "recovery : " ++ Codec.decimal s.walReplayed ++ ascii " WAL entries replayed\n"

/-- What `flush` and `compact` show. -/
def tablesText (s : DBStats) : Bytes :=
  ascii "OK  (sstables now: " ++ Codec.decimal s.sstableCount ++ ascii ")\n"

/-- What `get` shows. -/
def valueText (v : Option Bytes) : Bytes := v.getD (ascii "(not found)") ++ ascii "\n"

/-- What a `put` shows that has been carried out, and a `del`. -/
def okText : Bytes := ascii "OK\n"

/-- What a `put` shows without key or value. -/
def usagePut : Bytes := ascii "usage: put <key> <value>\n"

/-- What a `get` shows without key. -/
def usageGet : Bytes := ascii "usage: get <key>\n"

/-- What a `del` shows without key. -/
def usageDel : Bytes := ascii "usage: del <key>\n"

/-- What is shown for a command that does not exist. -/
def unknownText (cmd : Bytes) : Bytes := ascii "unknown: '" ++ cmd ++ ascii "'  (type help)\n"

/-! ## The loop -/

/-- `print_help`. -/
def printHelp : Io Repl Unit := print help

/-- `db.stats()`. -/
def stats : Io Repl DBStats := do return (← MonadState.get).db.stats

/-- The body of the loop of `main`, once a line has been read.  It answers whether the loop goes
on. -/
def runLine (sz : Sizing) (line : Bytes) : Io Repl Bool := do
  let (cmd, ss) := word line
  if cmd = ascii "put" then
    let (key, ss) := word ss
    let value := ss.dropWhile isSpace
    if key = [] ∨ value = [] then
      print usagePut
      return true
    onStore (DB.put sz key value)
    print okText
  else if cmd = ascii "get" then
    let (key, _) := word ss
    if key = [] then
      print usageGet
      return true
    let v ← onStore (DB.get key)
    print (valueText v)
  else if cmd = ascii "del" then
    let (key, _) := word ss
    if key = [] then
      print usageDel
      return true
    onStore (DB.del sz key)
    print okText
  else if cmd = ascii "stats" then
    let st ← stats
    print (statsText st)
  else if cmd = ascii "flush" then
    onStore (DB.flushMemtable sz)
    let st ← stats
    print (tablesText st)
  else if cmd = ascii "compact" then
    onStore (DB.compact sz)
    let st ← stats
    print (tablesText st)
  else if cmd = ascii "help" then
    printHelp
  else if cmd = ascii "exit" ∨ cmd = ascii "quit" then
    return false
  else if cmd ≠ [] then
    print (unknownText cmd)
  return true

/-- The loop of `main`, over the lines that are left to read. -/
def runLines (sz : Sizing) : List Bytes → Io Repl Unit
  | [] => print prompt
  | line :: rest => do
    print prompt
    if ← runLine sz line then runLines sz rest

/-- `main`, with the data directory `dir`; the store is destroyed when it returns. -/
def main (sz : Sizing) (dir stdin : Bytes) : Io Repl Unit := do
  print (banner dir)
  modify fun r ↦ { r with db := { opts := options } }
  onStore DB.recover
  let s ← stats
  print (recoveryText s.walReplayed)
  print hint
  runLines sz (lines stdin)
  print farewell
  onStore (DB.close sz)

end Repl

end KeyValStore
