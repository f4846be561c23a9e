import KeyValStore.Repl.Transcript
import KeyValStore.History.Stats
import KeyValStore.History.Threads
import KeyValStore.Manifest.Text

/-!
# Runs of the program

`main` is run on a directory again and again.  As long as every run comes to its end, what a run
writes is its `Transcript` by the map that all lines so far have made (`main_transcript`).  The
process can be killed at any call: then it has written the transcript of the first lines, and
recovery shows the map that these lines have made, or that with the write on the line under way
(`main_killed`).

After runs that were killed at any calls, `main` still comes to its end, and what it writes is its
transcript by the map that recovery finds (`main_found`).
-/

set_option autoImplicit false

namespace KeyValStore

open Crash
open DB (shown walSegPath)

namespace Repl

/-- The calls of a run. -/
abbrev Calls := List (Event (Call Mark) Repl Disk)

/-- What is assumed of the building of tables. -/
def Fits (sz : Sizing) (ev : Event (Call Mark) Repl Disk) : Prop := Buildable sz (ev.part store)

/-! ## A run on a directory that can be read -/

/-- **A directory on which `main` is run again**: recovery finds the map `v` in it and replays `n`
records; whatever `main` reads, it comes to its end, and has written its transcript by this map. -/
structure Restarts (sz : Sizing) (d : Disk) (v : Bytes → Option Bytes) (n : ℕ) : Prop where
  /-- The map. -/
  shows : ∀ opts, DB.recover.Returns reliable { opts } d fun _ db d' ↦ Answers db d' v
  /-- The records. -/
  replays : ∀ m, (∀ id, m ≤ id → d[walSegPath id]? = none) →
    (recordsBelow (fun id ↦ d[walSegPath id]?) m).length = n
  /-- The program. -/
  main : ∀ dir stdin, IsShort stdin →
      (main sz dir stdin).ReturnsIf reliable (Fits sz) {} d fun _ r _ ↦
    ∃ text, Transcript v (handled (lines stdin)) text ∧ r.out = session dir n text

/-- An open store that can be read, and stands for the map `v`. -/
def Reading (sz : Sizing) (v : Bytes → Option Bytes) (db : DB) (d : Disk) : Prop :=
  ∃ C, Legible sz db d C ∧ shown db.memtable.data C.tables = v

theorem upheld_shown (sz : Sizing) (v : Bytes → Option Bytes) :
    Upheld sz fun db _ C ↦ shown db.memtable.data C.tables = v where
  flush {db _ C} _ h := (shown_flush db.nextSstId db.memtable.data C.tables).trans h
  merge {db _ _} hC h := (shown_merge sz db.nextSstId db.memtable.data hC.short).trans h

section Reading

variable {sz : Sizing} {stdin line : Bytes} {v : Bytes → Option Bytes} {db : DB}
  {d : Disk} {C : Contents}

/-- **A line** is carried out by a store that can be read. -/
theorem served_of_reading (hshort : Short line) (h : Reading sz v db d) :
    (parse line).Served sz (readWatch sz) (Reading sz) v db d := by
  obtain ⟨C, hC, rfl⟩ := h
  refine ⟨fun op hop ↦ ?_, fun key _ ↦ ?_⟩
  · refine (upheld_shown sz _).wp_op hC (fun r hr ↦ short_of_parse hshort hop hr)
      (fun hr ↦ ?_) fun r hr ↦ ?_
    · rw [apply_of_record_none hr]
    · rw [apply_of_record hr]
      exact shown_applyRecord r db.memtable C.tables
  · exact DB.wp_get throwing_none (fun _ _ ↦ id) hC.tables hC.holds.tables.stored hC.short
      ((keeps_legible sz).idle ⟨C, hC⟩) ⟨rfl, C, hC, rfl⟩

/-- **A run** on a directory that can be read leaves one. -/
theorem wp_main_reading (hd : Holds sz d C) (hs : C.Sound) (hshort : C.IsShort)
    (hsettled : C.Settled) (hlines : IsShort stdin) (dir : Bytes) :
    (main sz dir stdin).wp reliable ((readWatch sz).onPart store)
      (fun _ r d ↦ (World.closed d).Readable sz ∧ ∃ text,
      Transcript C.view (handled (lines stdin)) text ∧ r.out = session dir C.records.length text)
      (fun _ _ _ ↦ False) {} d := by
  refine wp_main (J := Reading sz) ?_ (fun {ls line rest r d} hbefore hreading ↦ ?_)
    fun {text r d} _ _ hreading ↦ ?_
  · rw [Watch.within_onPart]
    refine wp_mono (wp_recover_legible hd hs hshort hsettled options) ?_ fun _ _ _ ↦ id
    rintro _ _ d ⟨rfl, hlegible⟩
    exact ⟨⟨_, hlegible, C.shown_replayed⟩, rfl⟩
  · have hline : line ∈ lines stdin := hbefore.lines ▸ List.mem_append_right ls List.mem_cons_self
    rw [Watch.within_onPart]
    exact served_of_reading (hlines line hline) hreading
  · rw [Watch.within_onPart]
    refine wp_mono ((upheld_shown sz _).keeps.wp_close hreading) ?_ fun _ _ _ ↦ id
    rintro _ _ d ⟨db, ⟨C', hC, -⟩, -⟩
    exact ⟨C', hC.holds, hC.sound, hC.short, hC.settled⟩

/-- **What can be read, `main` can be run on.** -/
theorem Holds.restarts (hd : Holds sz d C) (hs : C.Sound) (hshort : C.IsShort)
    (hsettled : C.Settled) : Restarts sz d C.view C.records.length where
  shows opts := by
    refine Prog.returns_of_wp (DB.wp_recover hd hs.logs (fun _ _ ↦ trivial) fun d' hd' ↦ ?_)
    rw [← C.shown_replayed]
    exact answers_shown rfl hd'.tables.stored hshort
  replays _ := length_recordsBelow hd.toHoldsLogs hs.logs
  main dir stdin hlines := Prog.returnsIf_of_wp
    (wp_mono (wp_watch (wp_main_reading hd hs hshort hsettled hlines dir)
    (fun _ ↦ id) fun _ _ ↦ trivial) (fun _ _ _ h ↦ h.2) fun _ _ _ ↦ id)

/-- **What a directory survives, the next run shows.** -/
theorem Survives.restarts {P : (Bytes → Option Bytes) → Prop} (h : Survives sz P d) {d' : Disk}
    (hc : d.Crashed d') : ∃ u n, P u ∧ Restarts sz d' u n := by
  obtain ⟨C, hd, hs, hy⟩ := h
  obtain ⟨C', hC, hd'⟩ := hd.crashed hc
  have hshort : C'.IsShort := fun t ht ↦ hy.short t (hC.tables ▸ ht)
  exact ⟨_, _, hy.view C' hC, Holds.restarts hd' (hs.crashed hC) hshort hC.settled⟩

end Reading

/-! ## Runs that come to their end -/

/-- What may be seen of the map `v` while the line that comes next is carried out. -/
def Next (v : Bytes → Option Bytes) (rest : List Bytes) (u : Bytes → Option Bytes) : Prop :=
  u = v ∨ ∃ line rest' op, rest = line :: rest' ∧ (parse line).op? = some op ∧ u = op.apply v

/-- **What may have been written** at some call of a run of `main` that reads the lines `all`, if
the store stood for `v` in the beginning and no record was replayed, and what recovery may show
then. -/
inductive Written (dir : Bytes) (v : Bytes → Option Bytes) (all : List Bytes) :
    Bytes → ((Bytes → Option Bytes) → Prop) → Prop
  | opening : Written dir v all (banner dir) (· = v)
  | running {ls rest : List Bytes} {out : Bytes} (h : Before (greeting dir 0) v all ls rest out) :
      Written dir v all out (Next (Op.applyAll (opsIn ls) v) rest)
  | closing {text : Bytes} (h : Transcript v (handled all) text) :
      Written dir v all (session dir 0 text) (· = Op.applyAll (opsIn (handled all)) v)

/-- What is assumed of builds, and that at every call what has been written goes with what recovery
would show. -/
def screenWatch (sz : Sizing) (S : Bytes → ((Bytes → Option Bytes) → Prop) → Prop) :
    Watch (Call Mark) Repl Disk where
  assume := Fits sz
  always ev := ∃ P, S ev.mem.out P ∧ Survives sz P ev.disk

/-- **Runs of `main` that come to their end**, one after the other, and what they read. -/
inductive Runs (sz : Sizing) : List Bytes → Disk → Prop
  | nil : Runs sz [] ∅
  | snoc {log : List Bytes} {dir stdin : Bytes} {r : Repl} {d d' : Disk} {tr : Calls}
      (h : Runs sz log d) (hshort : IsShort stdin)
      (hx : Exec reliable (main sz dir stdin) {} d tr (.ok () r d'))
      (hA : ∀ ev ∈ tr, Fits sz ev) : Runs sz (log ++ [stdin]) d'

/-- The map that the lines of some runs have made. -/
def mapAfter (log : List Bytes) : Bytes → Option Bytes :=
  Op.applyAll (log.flatMap fun stdin ↦ opsIn (handled (lines stdin))) fun _ ↦ none

section Runs

variable {sz : Sizing} {dir stdin line : Bytes} {v : Bytes → Option Bytes} {log : List Bytes}
  {r : Repl} {d : Disk} {S : Bytes → ((Bytes → Option Bytes) → Prop) → Prop}

theorem mapAfter_snoc (log : List Bytes) (stdin : Bytes) :
    mapAfter (log ++ [stdin]) = Op.applyAll (opsIn (handled (lines stdin))) (mapAfter log) := by
  rw [mapAfter, List.flatMap_append, Op.applyAll_append, List.flatMap_singleton, mapAfter]

theorem assumes_screenWatch (sz : Sizing) (S : Bytes → ((Bytes → Option Bytes) → Prop) → Prop)
    (r : Repl) : Assumes sz True ((screenWatch sz S).within store r) where
  bloom h := (h _ _ rfl).1
  noWrap h := (h _ _ rfl).2
  noStale h := absurd trivial h

/-- **A line** is carried out by a store that stands for a map. -/
theorem served_of_serves (hshort : Short line) (h : Serves sz True v r.db d)
    {P : (Bytes → Option Bytes) → Prop} (hS : S r.out P) (hv : P v)
    (hP : ∀ op, (parse line).op? = some op → P (op.apply v)) :
    (parse line).Served sz ((screenWatch sz S).within store r) (Serves sz True) v r.db d where
  op op hop := by
    refine KeyValStore.wp_run (assumes_screenWatch sz S r)
      (fun rec hrec ↦ short_of_parse hshort hop hrec) (fun _ hev ↦ ⟨_, hS, hev.mono ?_⟩) h
    rintro u (rfl | rfl)
    · exact hv
    · exact hP op hop
  get key _ := by
    refine h.wp_get key fun _ hev ↦ ⟨_, hS, hev.mono ?_⟩
    rintro _ rfl
    exact hv

/-- Where no segment has records, recovery replays none. -/
theorem wp_recover_quiet {W : Watch (Call Mark) DB Disk}
    (hw : ∀ ev : Event (Call Mark) DB Disk, Survives sz (· = v) ev.disk → W.always ev)
    (h : Rests sz True v d) (opts : Options) :
    DB.recover.wp reliable W (fun _ db d ↦ Serves sz True v db d ∧ db.walReplayed = 0)
      (fun _ _ _ ↦ False) { opts } d := by
  have hquiet : DB.recover.wp reliable .blind (fun _ db _ ↦ db.walReplayed = 0) (fun _ _ _ ↦ True)
      { opts } d := by
    obtain ⟨C, hd, hs, -, -, hL, -⟩ := h
    refine DB.wp_recover hd hs.logs (fun _ _ ↦ trivial) fun _ _ ↦ ?_
    show C.records.length = 0
    rw [Contents.records, recordsBelow_eq_nil_iff.2 fun id _ ↦ hL trivial id, List.length_nil]
  exact wp_mono (wp_and (wp_recover hw h) hquiet) (fun _ _ _ ↦ id) fun _ _ _ ↦ And.left

/-- **A run** on a directory that stands for `v`. -/
theorem wp_main_serves (h : Rests sz True v d) (hshort : IsShort stdin) (dir : Bytes) :
    (main sz dir stdin).wp reliable (screenWatch sz (Written dir v (lines stdin))) (fun _ r d ↦
      Rests sz True (Op.applyAll (opsIn (handled (lines stdin))) v) d ∧ ∃ text,
        Transcript v (handled (lines stdin)) text ∧ r.out = session dir 0 text)
          (fun _ _ _ ↦ False) {} d := by
  refine wp_main (J := Serves sz True) ?_ (fun {ls line rest r d} hbefore hserves ↦ ?_)
    fun {text r d} hT hout hserves ↦ ?_
  · exact wp_recover_quiet (W := (screenWatch sz _).within store _)
      (fun _ hev ↦ ⟨_, .opening, hev⟩) h options
  · have hline : line ∈ lines stdin := hbefore.lines ▸ List.mem_append_right ls List.mem_cons_self
    exact served_of_serves (hshort line hline) hserves (.running hbefore) (.inl rfl) fun op hop ↦
      .inr ⟨line, rest, op, rfl, hop, rfl⟩
  · have hwritten : Written dir v (lines stdin) r.out
        (· = Op.applyAll (opsIn (handled (lines stdin))) v) := by
      rw [hout]
      exact .closing hT
    exact wp_close (assumes_screenWatch sz _ r) (fun _ hev ↦ ⟨_, hwritten, hev⟩) hserves

/-- After runs that have come to their end, the directory stands for the map that their lines have
made. -/
theorem Runs.rests (h : Runs sz log d) : Rests sz True (mapAfter log) d := by
  induction h with
  | nil => exact rests_empty sz True
  | snoc _ hshort hx hA ih =>
    rw [mapAfter_snoc]
    exact (hx.of_wp hA (wp_main_serves ih hshort _)).2.1

/-- **What a run writes is its transcript**, by the map that the lines of all runs before have made;
and when it has come to its end, what it has made is durable. -/
theorem main_transcript (h : Runs sz log d) (hshort : IsShort stdin) (dir : Bytes) :
    (main sz dir stdin).ReturnsIf reliable (Fits sz) {} d fun _ r d' ↦
      (∃ text, Transcript (mapAfter log) (handled (lines stdin)) text ∧
        r.out = session dir 0 text) ∧ ∀ d'', d'.Crashed d'' →
          ∃ n, Restarts sz d'' (mapAfter (log ++ [stdin])) n := by
  refine Prog.returnsIf_of_wp
    (wp_mono (wp_watch (wp_main_serves h.rests hshort dir) (fun _ ↦ id) fun _ _ ↦ trivial)
    (fun _ r d' ⟨hrests, hout⟩ ↦ ⟨hout, fun d'' hc ↦ ?_⟩) fun _ _ _ ↦ id)
  obtain ⟨_, n, rfl, hrestarts⟩ := Survives.restarts hrests.survives hc
  rw [mapAfter_snoc]
  exact ⟨n, hrestarts⟩

/-- **The process can be killed at any call**: it has written the transcript of the lines that were
handled, and the next run shows what they have made, or that with the write on the line under
way. -/
theorem main_killed (h : Runs sz log d) (hshort : IsShort stdin) {tr : Calls}
    {o : Outcome Repl Error Unit Disk} (hx : Exec reliable (main sz dir stdin) {} d tr o)
    (hA : ∀ ev ∈ tr, Fits sz ev) :
    ∀ ev ∈ tr, ∃ P, Written dir (mapAfter log) (lines stdin) ev.mem.out P ∧
      ∀ d', ev.disk.Crashed d' → ∃ u n, P u ∧ Restarts sz d' u n := by
  intro ev hev
  obtain ⟨P, hwritten, hsurvives⟩ := (hx.of_wp hA (wp_main_serves h.rests hshort dir)).1 ev hev
  exact ⟨P, hwritten, fun _ hc ↦ Survives.restarts hsurvives hc⟩

end Runs

/-! ## Runs that are killed -/

/-- **The directories that processes leave**: each process runs `main`, and comes to its end, or is
killed at any call, or the power goes. -/
inductive Processes (sz : Sizing) : Disk → Prop
  | first : Processes sz ∅
  | exited {dir stdin : Bytes} {r : Repl} {d d' : Disk} {tr : Calls}
      (h : Processes sz d) (hshort : IsShort stdin)
      (hx : Exec reliable (main sz dir stdin) {} d tr (.ok () r d'))
      (hA : ∀ ev ∈ tr, Fits sz ev) : Processes sz d'
  | killed {dir stdin : Bytes} {o : Outcome Repl Error Unit Disk} {d d' : Disk} {tr : Calls}
      (h : Processes sz d) (hshort : IsShort stdin)
      (hx : Exec reliable (main sz dir stdin) {} d tr o)
      (hA : ∀ ev ∈ tr, Fits sz ev) (hc : o.device.Crashed d') : Processes sz d'

section Processes

variable {sz : Sizing} {d : Disk}

theorem Processes.readable (h : Processes sz d) : (World.closed d).Readable sz := by
  induction h with
  | first => exact readable_of_run .nil fun _ hs ↦ absurd hs List.not_mem_nil
  | exited _ hshort hx hA ih =>
    obtain ⟨C, hd, hs, hCshort, hsettled⟩ := ih
    exact (hx.of_wp hA (wp_main_reading hd hs hCshort hsettled hshort _)).2.1
  | @killed _ _ o _ _ _ _ hshort hx hA hc ih =>
    obtain ⟨C, hd, hs, hCshort, hsettled⟩ := ih
    have hend := (hx.of_wp hA (wp_main_reading hd hs hCshort hsettled hshort _)).2
    cases o with
    | ok a =>
      obtain ⟨⟨C', hd', hs', hCshort', -⟩, -⟩ := hend
      exact readable_of_crashed ⟨C', hd', hs', hCshort'⟩ hc
    | threw e => exact hend.elim
    | cut =>
      obtain ⟨_, _, hread⟩ := hend
      exact readable_of_crashed hread hc

/-- **Whatever has happened to the processes before**, `main` comes to its end, says how many
records it has replayed, and writes its transcript by the map that recovery finds. -/
theorem main_found (h : Processes sz d) : ∃ v n, Restarts sz d v n := by
  obtain ⟨C, hd, hs, hshort, hsettled⟩ := h.readable
  exact ⟨_, _, Holds.restarts hd hs hshort hsettled⟩

end Processes

/-! ## A first run -/

/-- A line that is read in a first run. -/
def firstLine : Bytes := ascii "put k 1"

/-- The store that `main` opens in an empty directory. -/
def begun : Snapshot := ⟨DB.recovered .onePercent options ⟨none, [], fun _ ↦ none⟩,
  Contents.reopened ⟨none, [], fun _ ↦ none⟩⟩

/-- The store of the first run, before the line and after it. -/
def InFirst (v : Bytes → Option Bytes) (db : DB) (d : Disk) : Prop :=
  ∃ s : Snapshot,
    (v [107] = none ∧ s = begun ∨ v [107] = some [49] ∧ s = begun.write Snapshot.older) ∧
    db = s.db ∧ Opened .onePercent s.db d s.contents

theorem lines_firstLine : lines firstLine = [firstLine] :=
  Manifest.lines_of_not_mem (by decide) (by decide)

theorem isShort_firstLine : IsShort firstLine := by
  rw [IsShort, lines_firstLine, List.forall_mem_singleton]
  decide

theorem parse_firstLine : parse firstLine = .put [107] [49] := by decide +kernel

section First

variable {P : Entries → DB → Disk → Prop} {db : DB} {d : Disk}

theorem InFirst.wp_put (h : InFirst (fun _ ↦ none) db d) :
    (Op.run .onePercent (.put [107] [49])).wp reliable (onBuilds P)
    (fun _ ↦ InFirst (Op.apply (.put [107] [49]) fun _ ↦ none)) (fun _ _ _ ↦ False) db d := by
  obtain ⟨s, ⟨-, rfl⟩ | ⟨⟨⟩, -⟩, rfl, ho⟩ := h
  refine wp_mono (Snapshot.wp_write ho (.put [107] [49]) rfl (by decide)) ?_ fun _ _ _ ↦ id
  rintro _ _ d ⟨rfl, ho⟩
  exact ⟨_, .inr ⟨rfl, rfl⟩, rfl, ho⟩

theorem InFirst.wp_close {v : Bytes → Option Bytes}
    (hP : ∀ entries db d, SSTable.Openable .onePercent entries → NoWrap db → P entries db d)
    (h : InFirst v db d) :
    (DB.close .onePercent).wp reliable (onBuilds P) (fun _ _ d ↦ d[Manifest.dest]? ≠ none)
      (fun _ _ _ ↦ False) db d := by
  have hreset : ∀ {s : Snapshot} {db : DB} {d : Disk}, Opened .onePercent s.db d s.contents →
      DB.resetWal.wp reliable (onBuilds P) (fun _ _ d ↦ d[Manifest.dest]? ≠ none)
        (fun _ _ _ ↦ False) db d := by
    intro s db d ho
    refine DB.wp_resetWal throwing_none (fun _ _ _ hc _ ↦ onBuild_of_isPlain hc) fun hnone ↦ ?_
    have hm := ho.holds.manifest
    rw [hnone, ho.gen] at hm
    cases hm
  obtain ⟨s, ⟨-, rfl⟩ | ⟨-, rfl⟩, rfl, ho⟩ := h
  · exact hreset ho
  · have hopen : SSTable.Openable .onePercent (begun.write Snapshot.older).db.memtable.data :=
      Snapshot.openable_applyRecord (by decide)
    have hne : (begun.write Snapshot.older).db.memtable.empty = false := empty_applyRecord _ _
    rw [DB.close, wp_bind, Crash.wp_get, hne]
    simp only [Bool.not_false, if_true]
    rw [wp_bind]
    refine wp_mono (Snapshot.wp_flush ho hne (by decide) hopen (hP _ _ _ hopen (by decide)))
      ?_ fun _ _ _ ↦ id
    rintro _ _ _ ⟨-, ho⟩
    exact hreset ho

/-- The first run comes to its end. -/
theorem wp_main_first (hP : ∀ entries db d, SSTable.Openable .onePercent entries → NoWrap db →
      P entries db d)
    (dir : Bytes) : (main .onePercent dir firstLine).wp reliable ((onBuilds P).onPart store)
      (fun _ _ d ↦ d[Manifest.dest]? ≠ none) (fun _ _ _ ↦ False) {} ∅ := by
  refine wp_mono
    (wp_main (v := fun _ ↦ none) (J := InFirst) (n := 0) ?_ (fun {ls line rest r d} hbefore hJ ↦ ?_)
    fun {text r d} _ _ hJ ↦ ?_) (fun _ _ _ h ↦ h.1) fun _ _ _ ↦ id
  · rw [Watch.within_onPart]
    refine DB.wp_recover (holds_empty .onePercent) sound_empty.logs
      (fun _ hev ↦ onBuild_recoverEvent hev) fun d hd ↦ ?_
    exact ⟨⟨begun, .inl ⟨rfl, rfl⟩, rfl, opened_recovered hd sound_empty (fun _ ↦ rfl) options⟩,
      rfl⟩
  · have hlines := hbefore.lines
    rw [lines_firstLine, List.singleton_eq_append_iff] at hlines
    obtain ⟨rfl, hline⟩ | ⟨_, ⟨⟩⟩ := hlines
    obtain ⟨rfl, rfl⟩ := List.cons.inj hline
    rw [Watch.within_onPart, parse_firstLine]
    refine ⟨?_, fun _ h ↦ (by cases h)⟩
    rintro _ ⟨⟩
    exact hJ.wp_put
  · rw [Watch.within_onPart]
    exact hJ.wp_close hP

end First

/-- A run of `main` that has built a table, and what it did. -/
theorem exists_first_run (dir : Bytes) : ∃ r d tr,
    Exec reliable (main .onePercent dir firstLine) {} ∅ tr (.ok () r d) ∧
    (∀ ev ∈ tr, Fits .onePercent ev) ∧ tr ≠ [] := by
  obtain ⟨tr, _, r, d, hx, hbuild, hd⟩ := Exec.exists_ok (device_total .none) (fun _ ↦ trivial)
    (wp_main_first (P := fun entries db _ ↦ BloomFits .onePercent entries ∧ NoWrap db)
      (fun _ _ _ hopen hwrap ↦ ⟨hopen.bloom, hwrap⟩) dir)
  refine ⟨r, d, tr, hx, hbuild, ?_⟩
  rintro rfl
  -- a run without calls would have left the directory empty
  cases hx.chain
  exact hd rfl

theorem main_transcript_second : ∃ d, Runs .onePercent [firstLine] d ∧
    (main .onePercent (ascii "./kvdata") (ascii "get k")).ReturnsIf reliable (Fits .onePercent)
    {} d fun _ r d' ↦
      (∃ text, Transcript (mapAfter [firstLine]) (handled (lines (ascii "get k"))) text ∧
        r.out = session (ascii "./kvdata") 0 text) ∧
      ∀ d'', d'.Crashed d'' →
        ∃ n, Restarts .onePercent d'' (mapAfter ([firstLine] ++ [ascii "get k"])) n := by
  obtain ⟨r, d, tr, hx, hA, -⟩ := exists_first_run (ascii "./kvdata")
  have hruns : Runs .onePercent [firstLine] d := .snoc .nil isShort_firstLine hx hA
  have hshort : IsShort (ascii "get k") := by
    rw [IsShort, Manifest.lines_of_not_mem (by decide) (by decide), List.forall_mem_singleton]
    decide
  exact ⟨d, hruns, main_transcript hruns hshort _⟩

theorem main_killed_first : ∃ tr : Calls, tr ≠ [] ∧ ∀ ev ∈ tr, ∃ P,
    Written (ascii "./kvdata") (mapAfter []) (lines firstLine) ev.mem.out P ∧
      ∀ d', ev.disk.Crashed d' → ∃ u n, P u ∧ Restarts .onePercent d' u n := by
  obtain ⟨r, d, tr, hx, hA, hne⟩ := exists_first_run (ascii "./kvdata")
  exact ⟨tr, hne, main_killed .nil isShort_firstLine hx hA⟩

theorem main_found_killed :
    ∃ (d d' : Disk) (tr : Calls), Chain reliable ∅ tr d ∧ tr ≠ [] ∧ d.Crashed d' ∧
    ∃ v n, Restarts .onePercent d' v n := by
  obtain ⟨r, d, tr, hx, hA, hne⟩ := exists_first_run (ascii "./kvdata")
  have hcrashed := d.crashed_sync
  exact ⟨d, _, tr, hx.chain, hne, hcrashed,
    main_found (.killed .first isShort_firstLine hx hA hcrashed)⟩

end Repl

end KeyValStore
