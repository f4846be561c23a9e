import KeyValStore.Crash.Program
import KeyValStore.Crash.Threads
import KeyValStore.Crash.Within
import KeyValStore.Crash.Collect
import KeyValStore.Crash.FileSystem
import KeyValStore.Codec.SelfDelimiting
import KeyValStore.Codec.Words
import KeyValStore.Codec.Decimal
import KeyValStore.Codec.Tokens
import KeyValStore.Model.Text
import KeyValStore.Model.MemTable
import KeyValStore.Model.Bloom
import KeyValStore.Model.Io
import KeyValStore.Model.Wal
import KeyValStore.Search.UpperBound
import KeyValStore.Model.SSTable
import KeyValStore.Model.Manifest
import KeyValStore.Model.DB
import KeyValStore.Model.Repl
import KeyValStore.Records.Codecs
import KeyValStore.Records.Rules
import KeyValStore.Bloom.NextPow2
import KeyValStore.Bloom.Filter
import KeyValStore.Bloom.Probes
import KeyValStore.SSTable.Image
import KeyValStore.SSTable.Open
import KeyValStore.SSTable.Lookup
import KeyValStore.SSTable.Scan
import KeyValStore.Wal.Log
import KeyValStore.Wal.Parse
import KeyValStore.Records.Survive
import KeyValStore.Store.MemTable
import KeyValStore.Overlay.Layers
import KeyValStore.Store.Names
import KeyValStore.Manifest.Text
import KeyValStore.Manifest.Replace
import KeyValStore.Session.Tables
import KeyValStore.Session.Flush
import KeyValStore.Session.Compact
import KeyValStore.Session.Write
import KeyValStore.Session.Rule
import KeyValStore.Session.Silent
import KeyValStore.Store.Contents
import KeyValStore.Store.Changes
import KeyValStore.Store.Invariant
import KeyValStore.Recovery.Sweep
import KeyValStore.Recovery.Load
import KeyValStore.Recovery.Replay
import KeyValStore.Recovery.Run
import KeyValStore.Recovery.Whole
import KeyValStore.Recovery.Depends
import KeyValStore.Recovery.Leftovers
import KeyValStore.Store.View
import KeyValStore.Recovery.Scanned
import KeyValStore.Recovery.Listed
import KeyValStore.Store.Faithful
import KeyValStore.Recovery.Again
import KeyValStore.History.Step
import KeyValStore.History.Serves
import KeyValStore.History.Reach
import KeyValStore.History.Reopen
import KeyValStore.History.Newest
import KeyValStore.History.Refines
import KeyValStore.History.Inventory
import KeyValStore.History.Atomic
import KeyValStore.History.Threshold
import KeyValStore.History.Retire
import KeyValStore.History.Readable
import KeyValStore.History.Torn
import KeyValStore.History.Threads
import KeyValStore.History.Stats
import KeyValStore.Repl.Commands
import KeyValStore.Repl.Transcript
import KeyValStore.Repl.Process
import KeyValStore.Faults.Reads
import KeyValStore.Faults.Merge
import KeyValStore.Faults.Usable
import KeyValStore.Faults.Session
import KeyValStore.Faults.Damage
import KeyValStore.Faults.Compaction
import KeyValStore.Faults.Writes
import KeyValStore.Faults.Flush
import KeyValStore.Faults.Recover
