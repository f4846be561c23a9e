import KeyValStore.Crash.Threads
import KeyValStore.History.Atomic

/-!
# Threads that use a store

`put`, `del`, `flush_memtable` and `compact` take the mutex of the store exclusively, `get` and
`stats` share it.  The requests of any number of threads are interleaved here as the lock allows
(`Crash.Threads`), step by step.

`threads_answer` says that every request gets the answer a plain map would give in the order in
which the lock is given back, and throws no exception.  `threads_survive` says that the process may
die at any moment: recovery brings back what all answered requests have made, or that with the one
write under way.
-/

set_option autoImplicit false

namespace KeyValStore

open Crash Std

/-! ## Requests -/

/-- The public operations. -/
inductive Request
  | op (o : Op)
  | get (key : Bytes)
  | stats

/-- What they return. -/
inductive Answer
  | done
  | value (v : Option Bytes)
  | stats (s : DBStats)

namespace Request

/-- The program of a request. -/
def body (sz : Sizing) : Request → Io DB Answer
  | op o => do
    o.run sz
    return .done
  | get key => do return .value (← DB.get key)
  | stats => do return .stats (← MonadState.get).stats

/-- `get` and `stats` take a `shared_lock`, the others a `unique_lock`. -/
def IsShared : Request → Prop
  | op _ => False
  | _ => True

/-- The strings that are logged are short. -/
def IsShort : Request → Prop
  | op o => ∀ r ∈ o.record, r.IsShort
  | _ => True

/-- What a plain map answers. -/
def Gets (v : Bytes → Option Bytes) : Request → Answer → Prop
  | op _, a => a = .done
  | get key, a => a = .value (v key)
  | stats, a => ∃ s, a = .stats s

/-- The operation, if it changes something. -/
def op? : Request → Option Op
  | op o => some o
  | _ => none

end Request

/-- The call reads a file. -/
def Reads : Call Mark → Prop
  | .readFile _ => True
  | _ => False

theorem SSTable.silent_lookup {μ : Type} (t : SSTable) (key : Bytes) :
    (t.lookup key : Io μ LookupResult).Silent Reads := by
  rw [lookup]
  split
  · trivial
  split
  · trivial
  split
  · trivial
  · refine (silent_issue trivial).bind fun r ↦ ?_
    cases r <;> trivial

theorem DB.silent_getFrom (key : Bytes) (ts : List SSTable) : (DB.getFrom key ts).Silent Reads := by
  induction ts with
  | nil => trivial
  | cons t ts ih =>
    refine (t.silent_lookup key).bind fun r ↦ ?_
    cases r with
    | notFound => exact ih
    | tombstone => trivial
    | found v => trivial

theorem DB.silent_get (key : Bytes) : (DB.get key).Silent Reads := by
  refine Prog.Silent.bind (fun _ ↦ trivial) fun db ↦ ?_
  cases db.memtable.raw key with
  | some e => trivial
  | none => exact silent_getFrom key db.sstables

/-- **The store as a service.** -/
def service (sz : Sizing) (F : Faults Mark) : Service (device F) Request DB Error Answer where
  body := Request.body sz
  shared := Request.IsShared
  quiet := Reads
  step_quiet := by
    intro c d r d' hc hs
    cases c with
    | readFile n => exact hs.1
    | _ => exact hc.elim
  silent := by
    intro q hq
    cases q with
    | op o => exact hq.elim
    | get key => exact (DB.silent_get key).bind fun _ ↦ silent_pure _
    | stats => exact fun _ ↦ trivial

/-! ## What threads see -/

/-- A request that has been answered. -/
abbrev Answered (ι : Type) := Done ι Request Error Answer

/-- The operations that have been completed, in the order in which the lock was given back. -/
def opsOf {ι : Type} (log : List (Answered ι)) : List Op := log.filterMap fun e ↦ e.request.op?

/-- Every request has got the answer of a plain map to which the operations before it have been
applied. -/
def AnswersAs {ι : Type} (v : Bytes → Option Bytes) (log : List (Answered ι)) : Prop :=
  ∀ before e after, log = before ++ e :: after →
    ∃ a, e.result = .ok a ∧ e.request.Gets (Op.applyAll (opsOf before) v) a

/-- What is assumed of builds. -/
def Buildable (sz : Sizing) : Event (Call Mark) DB Disk → Prop :=
  OnBuild fun entries db _ ↦ BloomFits sz entries ∧ NoWrap db

/-- That, and what recovery would bring back. -/
def threadWatch (sz : Sizing) (P : (Bytes → Option Bytes) → Prop) : Watch (Call Mark) DB Disk where
  assume := Buildable sz
  always ev := Survives sz P ev.disk

theorem assumes_threadWatch (sz : Sizing) (P : (Bytes → Option Bytes) → Prop) :
    Assumes sz True (threadWatch sz P) where
  bloom h := (h _ _ rfl).1
  noWrap h := (h _ _ rfl).2
  noStale h := absurd trivial h

section Answers

variable {ι : Type} {sz : Sizing} {v : Bytes → Option Bytes} {db db' : DB} {d d' : Disk}
  {log : List (Answered ι)}

theorem opsOf_append (log log' : List (Answered ι)) :
    opsOf (log ++ log') = opsOf log ++ opsOf log' :=
  List.filterMap_append

/-- What a request does to a map. -/
theorem applyAll_opsOf_snoc (e : Answered ι) :
    Op.applyAll (opsOf (log ++ [e])) v =
      Op.applyAll e.request.op?.toList (Op.applyAll (opsOf log) v) := by
  rw [opsOf_append, Op.applyAll_append]
  cases h : e.request.op? <;> simp [opsOf, h]

theorem AnswersAs.snoc {e : Answered ι} (h : AnswersAs v log) {a : Answer} (ha : e.result = .ok a)
    (hg : e.request.Gets (Op.applyAll (opsOf log) v) a) : AnswersAs v (log ++ [e]) := by
  intro before e' after heq
  rcases List.eq_nil_or_concat after with rfl | ⟨after, x, rfl⟩
  · obtain ⟨rfl, hlast⟩ := List.append_inj' heq rfl
    obtain rfl := List.singleton_inj.1 hlast
    exact ⟨a, ha, hg⟩
  · rw [List.concat_eq_append, ← List.cons_append, ← List.append_assoc] at heq
    exact h before e' after (List.append_inj' heq rfl).1

/-- **A request** gets its answer, and does to the map what it should. -/
theorem Request.wp_body {q : Request} (hq : q.IsShort) (h : Serves sz True v db d) :
    (q.body sz).wp reliable (threadWatch sz fun u ↦ u = v ∨ u = Op.applyAll q.op?.toList v)
      (fun a db d ↦ q.Gets v a ∧ Serves sz True (Op.applyAll q.op?.toList v) db d)
        (fun _ _ _ ↦ False) db d := by
  cases q with
  | op o =>
    rw [body, wp_bind]
    exact wp_mono (KeyValStore.wp_run (assumes_threadWatch sz _) hq (fun _ ↦ id) h)
      (fun _ _ _ h ↦ ⟨rfl, h⟩) fun _ _ _ ↦ id
  | get key =>
    rw [body, wp_bind]
    exact wp_mono (h.wp_get key fun _ hev ↦ hev.mono fun _ ↦ .inl)
      (fun _ _ _ ⟨ha, h⟩ ↦ ⟨congrArg Answer.value ha, h⟩) fun _ _ _ ↦ id
  | stats => exact ⟨⟨_, rfl⟩, h⟩

/-- **Requests one at a time** are answered as by a plain map. -/
theorem Serves.serial (hv : Serves sz True v db d)
    (h : Serial (service sz .none) (Buildable sz) db d log db' d')
    (hlog : ∀ e ∈ log, e.request.IsShort) :
    AnswersAs v log ∧ Serves sz True (Op.applyAll (opsOf log) v) db' d' := by
  induction h with
  | nil =>
    refine ⟨fun before e after heq ↦ ?_, hv⟩
    exact absurd heq.symm (List.append_ne_nil_of_right_ne_nil _ (List.cons_ne_nil _ _))
  | @snoc log db₁ db₂ d₁ d₂ i q r tr _ hx hA ih =>
    rw [List.forall_mem_append] at hlog
    obtain ⟨ha, hs⟩ := ih hlog.1
    have hend := (hx.of_wp hA (Request.wp_body (hlog.2 _ (List.mem_singleton_self _)) hs)).2
    cases r with
    | error e => exact hend.elim
    | ok a =>
      refine ⟨ha.snoc rfl hend.1, ?_⟩
      rw [applyAll_opsOf_snoc]
      exact hend.2

end Answers

/-- The threads use the store that a history of clean sessions has opened; their strings are short,
the Bloom filters fit, and the numbers of tables do not wrap around. -/
structure Use (sz : Sizing) {ι : Type} [DecidableEq ι] (hist : List (Label × Trace))
    (log : List (Answered ι)) (T : ι → Thread (@Reply Mark) Request DB Error Answer) (db' : DB)
    (d' : Disk) : Prop where
  /-- Clean sessions, and threads that interleave. -/
  runs : ∃ db d, Run sz (.closed ∅) hist (.opened db d) ∧
    Threads (service sz .none) (Buildable sz) db d log T db' d'
  /-- The sessions are clean. -/
  clean : ∀ s ∈ hist, s.1.IsClean ∧ Regular sz (fun _ db _ ↦ NoWrap db) s
  /-- The strings of answered requests are short. -/
  short : ∀ e ∈ log, e.request.IsShort
  /-- So are those of requests that are under way. -/
  held : ∀ i q p, T i = .holding q p → q.IsShort

/-- What recovery may show when `v` is what the answered requests have made: that, or what a write
under way would have made of it. -/
def ShowsAfter {ι : Type} (T : ι → Thread (@Reply Mark) Request DB Error Answer)
    (v u : Bytes → Option Bytes) : Prop :=
  u = v ∨ ∃ i op p, T i = .holding (.op op) p ∧ u = op.apply v

section Use

variable {ι : Type} [DecidableEq ι] {sz : Sizing} {hist : List (Label × Trace)}
  {log : List (Answered ι)} {T : ι → Thread (@Reply Mark) Request DB Error Answer}
  {db' : DB} {d' : Disk}

/-- **Threads see a plain map**: every request that has been answered got the answer a map would
give in the order in which the lock was given back. -/
theorem threads_answer (h : Use sz hist log T db' d') :
    AnswersAs (Op.applyAll (completed hist) fun _ ↦ none) log := by
  obtain ⟨⟨db, d, hrun, hthreads⟩, hclean, hshort, -⟩ := h
  obtain ⟨_, _, hserial, -⟩ := hthreads.linear
  exact (Serves.serial (shows_of_clean hrun hclean) hserial hshort).1

/-- **The process may die at any moment**: recovery returns, and the store shows what the answered
requests have made, or that with the one write that was under way. -/
theorem threads_survive (h : Use sz hist log T db' d') {d'' : Disk} (hc : d'.Crashed d'')
    (opts : Options) : DB.recover.Returns reliable { opts } d'' fun _ db d ↦ ∃ u,
      ShowsAfter T (Op.applyAll (completed hist ++ opsOf log) fun _ ↦ none) u ∧ Answers db d u := by
  obtain ⟨⟨db, d, hrun, hthreads⟩, hclean, hshort, hheld⟩ := h
  obtain ⟨db₀, d₀, hserial, hrest⟩ := hthreads.exists_serial
  have hv := (Serves.serial (shows_of_clean hrun hclean) hserial hshort).2
  rw [← Op.applyAll_append] at hv
  rcases hrest with ⟨rfl, rfl⟩ | ⟨i, q, p, tr, o, hi, hunique, hx, hA, rfl⟩
  · exact (hv.survives.mono fun u hu ↦ .inl hu).recover hc opts
  · cases q with
    | get key => exact absurd trivial hunique
    | stats => exact absurd trivial hunique
    | op op =>
    have hend := (hx.of_wp hA (Request.wp_body (hheld _ _ _ hi) hv)).2
    have hsurvives : Survives sz
        (ShowsAfter T (Op.applyAll (completed hist ++ opsOf log) fun _ ↦ none)) o.device := by
      cases o with
      | ok a => exact hend.2.survives.mono fun u hu ↦ .inr ⟨i, op, p, hi, hu⟩
      | threw e => exact hend.elim
      | cut =>
        obtain ⟨_, _, hs⟩ := hend
        exact hs.mono fun u hu ↦ hu.imp id fun hu ↦ ⟨i, op, p, hi, hu⟩
    exact hsurvives.recover hc opts

end Use

/-! ## Two threads -/

/-- A run of a program that answers a request, from one that the request is made of. -/
theorem Request.exec_op {sz : Sizing} {o : Op} {db db' : DB} {d d' : Disk} {tr : Trace}
    (hx : Exec reliable (o.run sz) db d tr (.ok () db' d')) :
    Exec reliable ((service sz .none).body (.op o)) db d tr (.ofExcept (.ok .done) db' d') := by
  have hdone := hx.bind (f := fun _ ↦ (pure Answer.done : Io DB Answer)) .pure
  rwa [List.append_nil] at hdone

/-- A key that the MemTable has is read from it. -/
theorem Request.exec_get {sz : Sizing} {key : Bytes} {e : MemEntry} {db : DB} {d : Disk}
    (he : db.memtable.data[key]? = some e) :
    Exec reliable ((service sz .none).body (.get key)) db d []
      (.ofExcept (.ok (.value (if e.tombstone then none else some e.value))) db d) := by
  have hget : Exec reliable (DB.get key) db d []
      (.ok (if e.tombstone then none else some e.value) db d) := by
    refine .get ?_
    rw [Prog.bind, MemTable.raw, he]
    exact .pure
  exact hget.bind .pure

/-- One thread puts a key, another one gets it, and the first one asks for the stats. -/
def pairLog (stats : DBStats) : List (Answered Bool) :=
  [⟨false, .op (.put [107] [49]), .ok .done⟩, ⟨true, .get [107], .ok (.value (some [49]))⟩,
    ⟨false, .stats, .ok (.stats stats)⟩]

/-- The requests of `pairLog` have been answered, and the second thread has begun to write. -/
theorem exists_use : ∃ (hist : List (Label × Trace)) (stats : DBStats)
    (T : Bool → Thread (@Reply Mark) Request DB Error Answer) (db : DB) (d : Disk),
    Use .onePercent hist (pairLog stats) T db d ∧
      T true = .holding (.op (.put [107] [49]))
        (Request.body .onePercent (.op (.put [107] [49]))) := by
  obtain ⟨hist, d, hrun, hclean, ho⟩ := exists_first_session
  obtain ⟨tr, d', hput, htr, -⟩ := Snapshot.exists_exec_older
    (P := fun entries db _ ↦ BloomFits .onePercent entries ∧ NoWrap db) ho
  let s := (Snapshot.first .onePercent).write Snapshot.older
  have hentry : s.db.memtable.data[([107] : Bytes)]? = some Snapshot.older.entry :=
    (getElem?_applyRecord _ _ _).trans (if_pos rfl)
  have hserial : Serial (service .onePercent .none) (Buildable .onePercent)
      (Snapshot.first .onePercent).db d (pairLog s.db.stats) s.db d' := by
    have hnone : ∀ ev ∈ ([] : Trace), Buildable .onePercent ev :=
      fun _ h ↦ absurd h List.not_mem_nil
    have hstats : Exec reliable ((service .onePercent .none).body .stats) s.db d' []
      (.ofExcept (.ok (.stats s.db.stats)) s.db d') := .get .pure
    exact ((Serial.nil.snoc (Request.exec_op hput) htr).snoc (Request.exec_get hentry) hnone).snoc
      hstats hnone
  have hthreads := ((threads_idle_iff.2 hserial).request true (.op (.put [107] [49])) rfl).acquire
    (i := true) (Function.update_self ..) fun j q p hj ↦ by
      rcases holding_update hj with ⟨-, ⟨⟩⟩ | ⟨-, ⟨⟩⟩
  have hshort : (Request.op (.put [107] [49])).IsShort := by
    rintro r ⟨⟩
    decide
  refine ⟨hist, s.db.stats, _, _, d', ⟨⟨_, d, hrun, hthreads⟩, hclean, ?_, ?_⟩,
    Function.update_self ..⟩
  · rw [pairLog, List.forall_mem_cons, List.forall_mem_cons, List.forall_mem_singleton]
    exact ⟨hshort, trivial, trivial⟩
  · intro i q p hi
    rcases holding_update hi with ⟨-, heq⟩ | ⟨-, hi⟩
    · injection heq with hq
      exact hq ▸ hshort
    · rcases holding_update hi with ⟨-, ⟨⟩⟩ | ⟨-, ⟨⟩⟩

theorem threads_answer_pair : ∃ (hist : List (Label × Trace)) (stats : DBStats),
    AnswersAs (Op.applyAll (completed hist) fun _ ↦ none) (pairLog stats) := by
  obtain ⟨hist, stats, T, db, d, h, -⟩ := exists_use
  exact ⟨hist, stats, threads_answer h⟩

theorem threads_survive_pair : ∃ (hist : List (Label × Trace)) (stats : DBStats)
    (T : Bool → Thread (@Reply Mark) Request DB Error Answer) (d : Disk),
    T true = .holding (.op (.put [107] [49])) (Request.body .onePercent (.op (.put [107] [49]))) ∧
    DB.recover.Returns reliable { opts := {} } d fun _ db d ↦ ∃ u,
      ShowsAfter T (Op.applyAll (completed hist ++ opsOf (pairLog stats)) fun _ ↦ none) u ∧
        Answers db d u := by
  obtain ⟨hist, stats, T, db, d, h, hT⟩ := exists_use
  exact ⟨hist, stats, T, _, hT, threads_survive h d.crashed_sync {}⟩

end KeyValStore
