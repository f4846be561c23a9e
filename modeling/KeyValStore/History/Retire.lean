import KeyValStore.History.Threshold

/-!
# Which records a flush retires

A flush writes the MemTable to a table and removes the segment with the number `current_wal_id_`.
After it no segment has records if and only if none but that one had any when it started
(`noRecords_iff`).  Recovery, however, replays the records of all segments into the MemTable and
goes on with a new one, so that a flush can leave records behind that it has persisted
(`exists_not_noRecords`).

Nothing is assumed of the directory here: most calls do not touch the segments (`Spares`), and the
others are looked at one by one.
-/

set_option autoImplicit false

namespace KeyValStore

open Crash Std
open DB (sstPath walSegPath donePath sealDisk taken buildEvent)

/-- No segment has a record. -/
def NoRecords (d : Disk) : Prop :=
  ∀ (n : Name) (f : File), d[n]? = some f → extension n = ascii ".log" → WAL.records f.content = []

/-- A flush starts: it builds the table of a MemTable that is not empty. -/
def StartsFlush (ev : Event (Call Mark) DB Disk) : Prop :=
  (∃ path entries, ev.call = .mark (.build path entries)) ∧ ev.mem.memtable.empty = false

/-- In some step of some history a flush starts and ends. -/
def FlushesFrom (sz : Sizing) (start finish : Event (Call Mark) DB Disk) : Prop :=
  ∃ hist w s, Run sz (.closed ∅) hist w ∧ s ∈ hist ∧ start ∈ s.2 ∧ StartsFlush start ∧
    finish ∈ s.2 ∧ finish.call = .mark .flushed

/-! ## Calls that leave the segments alone -/

/-- The directories have the same segments. -/
def SameLogs (d d' : Disk) : Prop := Disk.AgreeBut (fun n ↦ extension n ≠ ascii ".log") d d'

/-- The call leaves the segments alone, and ends no flush. -/
def Spares : Call Mark → Prop
  | .mark m => m ≠ .flushed
  | .openTrunc n => extension n ≠ ascii ".log"
  | .openAppend n => extension n ≠ ascii ".log"
  | .write n _ => extension n ≠ ascii ".log"
  | .sync n => extension n ≠ ascii ".log"
  | .rename old new => extension old ≠ ascii ".log" ∧ extension new ≠ ascii ".log"
  | .remove n => extension n ≠ ascii ".log"
  | _ => True

section Spares

variable {d d' d'' : Disk} {n : Name}

theorem SameLogs.step {c : Call Mark} {r : Reply c} (h : SameLogs d d') (hc : Spares c)
    (hs : Crash.Step .none c d' r d'') : SameLogs d d'' := by
  refine Disk.AgreeBut.trans h ?_
  cases c with
  | mark m => rw [hs.2]; exact .refl _ _
  | fileExists n => rw [hs.2]; exact .refl _ _
  | listDir => rw [hs.2]; exact .refl _ _
  | readFile n => rw [hs.1]; exact .refl _ _
  | tell n => rw [hs.2]; exact .refl _ _
  | flush n => rw [(hs.resolve_right fun hf ↦ hf.1).2]; exact .refl _ _
  | close n => rw [(hs.resolve_right fun hf ↦ hf.1).2]; exact .refl _ _
  | openTrunc n =>
    rw [(hs.resolve_right fun hf ↦ hf.1).2]
    exact (Disk.agreeOff_insert _ _ _).agreeBut hc
  | openAppend n =>
    rw [(hs.resolve_right fun hf ↦ hf.1).2]
    exact fun n' hn' ↦ Disk.getElem?_insertIfNew_ne fun heq ↦ hn' (heq ▸ hc)
  | write n bs =>
    rw [(hs.resolve_right fun hf ↦ hf.1).2]
    exact (Disk.agreeOff_modify _ _ _).agreeBut hc
  | sync n =>
    rw [(hs.resolve_right fun hf ↦ hf.1).2]
    exact (Disk.agreeOff_modify _ _ _).agreeBut hc
  | remove n =>
    rw [(hs.resolve_right fun hf ↦ hf.1).2]
    exact (Disk.agreeOff_erase _ _).agreeBut hc
  | rename old new =>
    rw [(hs.resolve_right fun hf ↦ hf.1).2, Call.perform]
    cases d'[old]? with
    | none => exact .refl _ _
    | some f =>
      exact Disk.AgreeBut.trans ((Disk.agreeOff_erase d' old).agreeBut hc.1)
        ((Disk.agreeOff_insert _ new f).agreeBut hc.2)

theorem SameLogs.get (h : SameLogs d d') (hn : extension n = ascii ".log") : d'[n]? = d[n]? :=
  h n (not_not_intro hn)

theorem spares_of_callOn (hn : extension n ≠ ascii ".log") : ∀ c, CallOn n c → Spares c := by
  intro c hc
  cases c <;> first | exact trivial | exact hc.elim | exact hc ▸ hn

theorem nothingStale_congr {db db' : DB} (h : SameLogs d d')
    (hwal : db'.currentWalId = db.currentWalId) : NothingStale db' d' ↔ NothingStale db d := by
  simp only [NothingStale, hwal]
  refine forall₂_congr fun n f ↦ ⟨fun h' hf hn ↦ h' ((h.get hn).trans hf) hn, fun h' hf hn ↦ ?_⟩
  exact h' ((h.get hn).symm.trans hf) hn

end Spares

/-! ## The directory after a flush -/

section After

variable {d d' : Disk} {seg next : Name}

theorem getElem?_sealDisk_log {n : Name} (hn : extension n = ascii ".log")
    (hdone : extension (donePath seg) ≠ ascii ".log") :
    (sealDisk seg d)[n]? = if n = seg then none else d[n]? := by
  have hne : n ≠ donePath seg := fun h ↦ hdone (h ▸ hn)
  rw [sealDisk]
  split
  · rw [Disk.getElem?_insert_ne hne]
    split
    · rename_i heq
      rw [heq, ExtTreeMap.getElem?_erase_self]
    · rename_i hseg
      exact Disk.getElem?_erase_ne hseg
  · rename_i hf
    split
    · rename_i heq
      rw [heq, hf]
    · rfl

/-- Once a segment has been sealed and the next one opened, the other segments decide. -/
theorem noRecords_opened (hdone : extension (donePath seg) ≠ ascii ".log")
    (hnext : extension next = ascii ".log")
    (h : SameLogs ((sealDisk seg d).insertIfNew next {}) d') :
    NoRecords d' ↔ ∀ (n : Name) (f : File), d[n]? = some f → extension n = ascii ".log" → n ≠ seg →
      WAL.records f.content = [] := by
  have hseal := fun {n : Name} (hn : extension n = ascii ".log") ↦
    getElem?_sealDisk_log (d := d) hn hdone
  have hempty : WAL.records ({} : File).content = [] := logRecords_empty
  constructor
  · intro hno n f hf hn hseg
    refine hno n f ((h.get hn).trans ?_) hn
    by_cases heq : n = next
    · rw [← heq, Disk.getElem?_insertIfNew_self, hseal hn, if_neg hseg, hf]
      rfl
    · rw [Disk.getElem?_insertIfNew_ne heq, hseal hn, if_neg hseg, hf]
  · intro hother n f hf hn
    rw [h.get hn] at hf
    by_cases heq : n = next
    · rw [heq, Disk.getElem?_insertIfNew_self, Option.some_inj, hseal hnext] at hf
      rw [← hf]
      split
      · exact hempty
      · rename_i hseg
        cases hg : d[next]? with
        | none => exact hempty
        | some g => exact hother next g hg hnext hseg
    · rw [Disk.getElem?_insertIfNew_ne heq, hseal hn] at hf
      split at hf
      · cases hf
      · rename_i hseg
        exact hother n f hf hn hseg

end After

/-! ## Recovery -/

/-- The call announces no table and ends no flush. -/
def Quiet : Call Mark → Prop
  | .mark (.build _ _) => False
  | .mark .flushed => False
  | _ => True

section Recovery

variable {μ : Type}

theorem quiet_of_callOn {f : Name} : ∀ c, CallOn f c → Quiet c := by
  intro c hc
  cases c <;> first | exact trivial | exact hc.elim

theorem makes_listDir : (listDir : Io μ (List Name)).Makes Quiet := ⟨trivial, fun _ ↦ trivial⟩

theorem makes_loadTable (id : ℕ) (p : Name) : (DB.loadTable id p).Makes Quiet :=
  (makes_modify _).bind fun _ ↦ (SSTable.silent_open trivial).makes.bind fun _ ↦ makes_modify _

theorem makes_removeLeftovers : DB.removeLeftovers.Makes Quiet := by
  refine (makes_call (c := .remove Manifest.tmp) trivial).bind fun _ ↦
    makes_listDir.bind fun names ↦ makes_forM fun p _ ↦ ?_
  split
  · exact makes_call trivial
  · trivial

theorem makes_loadTables : DB.loadTables.Makes Quiet := by
  refine ⟨trivial, fun found ↦ ?_⟩
  cases found with
  | true =>
    refine (Manifest.silent_read trivial).makes.bind fun data ↦ (makes_modify _).bind fun _ ↦
      makes_forM fun name _ ↦ (makes_ofExcept _).bind fun id ↦ makes_loadTable id name
  | false =>
    refine makes_listDir.bind fun names ↦ (makes_forM fun p _ ↦ ?_).bind fun _ ↦
      (makes_modify _).bind fun _ ↦ DB.makes_updateManifestLocked quiet_of_callOn trivial trivial
    refine (makes_ofExcept _).bind fun found ↦ ?_
    cases found with
    | none => trivial
    | some id => exact makes_loadTable id p

theorem makes_removeOrphans : DB.removeOrphans.Makes Quiet := by
  refine makes_get.bind fun db ↦ makes_listDir.bind fun names ↦ makes_forM fun p _ ↦ ?_
  split
  · exact makes_call trivial
  · trivial

theorem makes_replaySegments : DB.replaySegments.Makes Quiet := by
  refine makes_listDir.bind fun names ↦ (makes_ofExcept _).bind fun segs ↦ makes_forM fun s _ ↦ ?_
  refine (makes_modify _).bind fun _ ↦ (WAL.silent_open trivial).makes.bind fun reader ↦ ?_
  refine Prog.Makes.bind ?_ fun _ ↦ (WAL.silent_close trivial trivial).makes
  refine ⟨trivial, fun r ↦ ?_⟩
  cases r with
  | none => trivial
  | some bs => exact makes_forM fun r _ ↦
      (makes_call (c := .mark (.replayed r)) trivial).bind fun _ ↦
      makes_modify _

theorem makes_recover : DB.recover.Makes Quiet := by
  refine makes_removeLeftovers.bind fun _ ↦ makes_loadTables.bind fun _ ↦
    makes_removeOrphans.bind fun _ ↦ makes_replaySegments.bind fun _ ↦ ?_
  exact (makes_modify _).bind fun _ ↦ makes_get.bind fun _ ↦
    (WAL.silent_open trivial).makes.bind fun _ ↦ makes_modify _

end Recovery

/-! ## Every run -/

/-- The watch of a run: what has to be known when a flush starts, and what is known when it ends. -/
def retireWatch (R : Prop) : Watch (Call Mark) DB Disk where
  assume _ := True
  always ev := (StartsFlush ev → (NothingStale ev.mem ev.disk ↔ R)) ∧
    (ev.call = .mark .flushed → (NoRecords ev.disk ↔ R))

section Runs

variable {sz : Sizing} {R : Prop} {db : DB} {d : Disk} {α : Type} {p : Io DB α}
  {Q : α → DB → Disk → Prop}

theorem always_of_plain {c : Call Mark} (hc : ∀ m, c ≠ .mark m) :
    (retireWatch R).always ⟨c, db, d⟩ :=
  ⟨fun ⟨⟨_, _, h⟩, _⟩ ↦ absurd h (hc _), fun h ↦ absurd h (hc _)⟩

/-- A silent program that leaves the segments alone. -/
theorem wp_spare (hp : p.Silent Spares) (hR : db.memtable.empty = false → (NothingStale db d ↔ R))
    (hQ : ∀ a d', SameLogs d d' → Q a db d') :
    p.wp reliable (retireWatch R) Q (fun _ _ _ ↦ True) db d := by
  refine wp_silent (I := SameLogs d) hp (fun _ _ _ _ hc hd hs ↦ hd.step hc hs) (fun c d' hc hd ↦ ?_)
    (.refl _ _) hQ fun _ _ _ ↦ trivial
  refine ⟨fun hstart ↦ (nothingStale_congr hd rfl).trans (hR hstart.2), ?_⟩
  rintro rfl
  exact absurd rfl hc

/-- A silent program that ends no flush, while the MemTable is empty. -/
theorem wp_quiet (hp : p.Silent NotFlushed) (he : db.memtable.empty = true) (hQ : ∀ a d, Q a db d) :
    p.wp reliable (retireWatch R) Q (fun _ _ _ ↦ True) db d := by
  refine wp_silent (I := fun _ ↦ True) hp (fun _ _ _ _ _ _ _ ↦ trivial) (fun c d hc _ ↦ ⟨?_, ?_⟩)
    trivial (fun a d _ ↦ hQ a d) fun _ _ _ ↦ trivial
  · rintro ⟨-, hne⟩
    rw [he] at hne
    cases hne
  · exact fun h ↦ absurd h hc

theorem wp_updateManifestLocked_spare {Q : Unit → DB → Disk → Prop}
    (hR : db.memtable.empty = false → (NothingStale db d ↔ R))
    (hQ : ∀ g d', SameLogs d d' → Q () { db with manifestGen := g } d') :
    DB.updateManifestLocked.wp reliable (retireWatch R) Q (fun _ _ _ ↦ True) db d := by
  rw [DB.updateManifestLocked, wp_bind, wp_modify, wp_bind, Crash.wp_get]
  exact wp_spare (Manifest.silent_write _ (spares_of_callOn (by decide)) ⟨by decide, by decide⟩
    (show extension Manifest.dest ≠ ascii ".log" by decide)) hR
    fun _ d' hd' ↦ hQ _ d' hd'

theorem wp_resetWal_spare {Q : Unit → DB → Disk → Prop}
    (hR : db.memtable.empty = false → (NothingStale db d ↔ R))
    (hQ : ∀ d', SameLogs d d' → Q () { db with wal := none } d') :
    DB.resetWal.wp reliable (retireWatch R) Q (fun _ _ _ ↦ True) db d := by
  rw [DB.resetWal, wp_bind, Crash.wp_get]
  cases db.wal with
  | none => exact hQ d (.refl _ _)
  | some f =>
    rw [wp_bind]
    exact wp_spare (WAL.silent_close trivial trivial) hR fun _ d' hd' ↦ hQ d' hd'

/-- **A flush** leaves no records if there were none in any segment but the current one. -/
theorem wp_flush_retires {Q : Unit → DB → Disk → Prop}
    (hR : db.memtable.empty = false → (NothingStale db d ↔ R))
    (hQ : ∀ m d, m.memtable.empty = true → Q () m d) :
    (DB.flushMemtableLocked sz).wp reliable (retireWatch R) Q (fun _ _ _ ↦ True) db d := by
  rw [DB.flushMemtableLocked, wp_bind, Crash.wp_get]
  cases he : db.memtable.empty with
  | true => exact hQ db d he
  | false =>
    have hR := hR he
    have hsst : extension (sstPath db.nextSstId) ≠ ascii ".log" := by
      rw [DB.extension_sstPath]
      decide
    simp only [Bool.false_eq_true, if_false]
    rw [wp_bind, wp_modify, wp_bind]
    refine wp_spare (SSTable.silent_build (spares_of_callOn hsst) _ _ (by rintro ⟨⟩)) (fun _ ↦ hR)
      fun _ d₁ h₁ ↦ ?_
    rw [wp_bind]
    refine wp_spare (SSTable.silent_open trivial) (fun _ ↦ (nothingStale_congr h₁ rfl).trans hR)
      fun table d₂ h₂ ↦ ?_
    replace h₂ := Disk.AgreeBut.trans h₁ h₂
    rw [wp_bind, wp_modify, wp_bind]
    refine wp_updateManifestLocked_spare (fun _ ↦ (nothingStale_congr h₂ rfl).trans hR)
      fun g d₃ h₃ ↦ ?_
    replace h₃ := Disk.AgreeBut.trans h₂ h₃
    rw [wp_bind, Crash.wp_get, wp_bind]
    refine wp_resetWal_spare (fun _ ↦ (nothingStale_congr h₃ rfl).trans hR) fun d₄ h₄ ↦ ?_
    replace h₄ := Disk.AgreeBut.trans h₃ h₄
    rw [wp_bind]
    refine DB.wp_seal throwing_none (DB.walSegPath_ne_tmp _) (always_of_plain (by simp)) ?_
    rw [wp_bind, wp_modify, wp_bind, Crash.wp_get, wp_bind]
    refine WAL.wp_open (always_of_plain (by simp)) (fun hf ↦ hf.elim) ?_
    rw [wp_bind, wp_modify, wp_bind, wp_modify, wp_bind]
    refine wp_call_remove id (always_of_plain (by simp)) ?_
    have hdone : extension (donePath (walSegPath db.currentWalId)) ≠ ascii ".log" := by
      rw [DB.extension_donePath]
      decide
    refine ⟨⟨fun hstart ↦ absurd hstart.2 (by simp [MemTable.clear, MemTable.empty]), fun _ ↦ ?_⟩,
      fun _ _ d' _ ↦ hQ _ d' ExtTreeMap.isEmpty_empty⟩
    refine (noRecords_opened hdone (DB.extension_walSegPath _)
      ((Disk.agreeOff_erase _ _).agreeBut hdone)).trans (Iff.trans ?_ hR)
    refine forall₂_congr fun n f ↦
      ⟨fun h hf hn ↦ h ((SameLogs.get h₄ hn).trans hf) hn, fun h hf hn ↦ ?_⟩
    exact h ((SameLogs.get h₄ hn).symm.trans hf) hn

theorem wp_compact_retires {Q : Unit → DB → Disk → Prop}
    (hR : db.memtable.empty = false → (NothingStale db d ↔ R)) (hQ : ∀ m d, Q () m d) :
    (DB.compactLocked sz).wp reliable (retireWatch R) Q (fun _ _ _ ↦ True) db d := by
  by_cases hlen : db.sstables.length < 2
  · exact DB.wp_compactLocked_few hlen (hQ db d)
  refine DB.wp_compactLocked hlen (wp_flush_retires hR fun m d he ↦ ?_)
  rw [DB.merge, wp_bind, Crash.wp_get, wp_bind]
  refine wp_quiet (DB.silent_mergeTables (fun _ _ ↦ by rintro ⟨⟩) _) he fun merged d ↦ ?_
  rw [DB.mergeRest, wp_bind, Crash.wp_get, wp_bind, wp_modify, wp_bind]
  refine wp_quiet (SSTable.silent_build notFlushed_of_callOn _ _ (by rintro ⟨⟩)) he fun _ d ↦ ?_
  rw [wp_bind, wp_modify, wp_bind]
  refine wp_quiet (SSTable.silent_open (by rintro ⟨⟩)) he fun table d ↦ ?_
  rw [wp_bind, wp_modify, wp_bind, DB.updateManifestLocked, wp_bind, wp_modify,
    wp_bind, Crash.wp_get]
  refine wp_quiet (Manifest.silent_write _ notFlushed_of_callOn (by rintro ⟨⟩) (by rintro ⟨⟩)) he
    fun _ d ↦ ?_
  exact wp_quiet (silent_forM fun _ _ ↦ silent_call (by rintro ⟨⟩)) he fun _ d ↦ hQ _ d

/-- What is true of a flush is decided before the operation that makes it. -/
theorem exists_wp_run (op : Op) (db : DB) (d : Disk) : ∃ R, (op.run sz).wp reliable (retireWatch R)
    (fun _ _ _ ↦ True) (fun _ _ _ ↦ True) db d := by
  cases hr : op.record with
  | none =>
    refine ⟨NothingStale db d, ?_⟩
    cases op with
    | put k x => cases hr
    | del k => cases hr
    | flush => exact wp_flush_retires (fun _ ↦ Iff.rfl) fun _ _ _ ↦ trivial
    | compact => exact wp_compact_retires (fun _ ↦ Iff.rfl) fun _ _ ↦ trivial
  | some r =>
    rw [run_of_record hr]
    cases hwal : db.wal with
    | none => exact ⟨True, DB.wp_writeRecord_null hwal trivial⟩
    | some f =>
      refine ⟨NothingStale (DB.applied r db) (DB.loggedDisk f r d), ?_⟩
      have hplain : ∀ {J : Disk → Prop}, Allows (retireWatch
          (NothingStale (DB.applied r db) (DB.loggedDisk f r d))) J := fun c m d hc _ ↦
        always_of_plain (by rintro mk rfl; cases hc)
      rw [DB.writeRecord, wp_bind, DB.logRecord, wp_bind, DB.activeWal, wp_bind, Crash.wp_get, hwal,
        wp_pure, wp_bind]
      refine WAL.wp_append (fun _ ↦ id) hplain ?_
      refine WAL.wp_sync throwing_none hplain ?_
      rw [DB.finishWrite, wp_bind, wp_modify, Disk.modify_modify]
      refine DB.wp_maybeFlush (fun _ ↦ trivial) fun _ ↦
        wp_flush_retires (fun _ ↦ Iff.rfl) fun m d he ↦ ?_
      split
      · exact wp_compact_retires (fun hne ↦ by rw [he] at hne; cases hne) fun _ _ ↦ trivial
      · trivial

theorem exists_wp_close (db : DB) (d : Disk) : ∃ R, (DB.close sz).wp reliable (retireWatch R)
    (fun _ _ _ ↦ True) (fun _ _ _ ↦ True) db d := by
  refine ⟨NothingStale db d, ?_⟩
  have hreset : ∀ {m : DB} {d' : Disk}, m.memtable.empty = true → DB.resetWal.wp reliable
      (retireWatch (NothingStale db d)) (fun _ _ _ ↦ True) (fun _ _ _ ↦ True) m d' := fun he ↦
    wp_resetWal_spare (fun hne ↦ by rw [he] at hne; cases hne) fun _ _ ↦ trivial
  rw [DB.close, wp_bind, Crash.wp_get]
  cases he : db.memtable.empty with
  | true => exact hreset he
  | false =>
    simp only [Bool.not_false, if_true]
    rw [wp_bind]
    exact wp_flush_retires (fun _ ↦ Iff.rfl) fun m d he ↦ hreset he

/-- Recovery builds no table and flushes nothing. -/
theorem wp_recover_quiet : DB.recover.wp reliable (retireWatch R) (fun _ _ _ ↦ True)
    (fun _ _ _ ↦ True) db d := by
  refine wp_makes makes_recover (I := fun _ ↦ True) (fun _ _ _ _ _ _ _ ↦ trivial)
    (fun c m d hc _ ↦ ⟨?_, ?_⟩) trivial
  · rintro ⟨⟨path, entries, hcall⟩, -⟩
    rw [show c = .mark (.build path entries) from hcall] at hc
    exact hc.elim
  · intro hcall
    rw [show c = .mark .flushed from hcall] at hc
    exact hc.elim

/-- **Every step**: the flush that starts in it leaves no records if there were none. -/
theorem exists_watch {w w' : World} {l : Label} {tr : Trace} (h : Step sz w l tr w') :
    ∃ R, ∀ ev ∈ tr, (retireWatch R).always ev := by
  have hkeep : ∀ {α : Type} {p : Io DB α} {db : DB} {d : Disk} {o : Outcome DB Error α Disk},
      Exec reliable p db d tr o → (∃ R, p.wp reliable (retireWatch R) (fun _ _ _ ↦ True)
        (fun _ _ _ ↦ True) db d) → ∃ R, ∀ ev ∈ tr, (retireWatch R).always ev := by
    rintro α p db d o hx ⟨R, hwp⟩
    exact ⟨R, (hx.of_wp (fun _ _ ↦ trivial) hwp).1⟩
  cases h with
  | opened hx => exact hkeep hx ⟨True, wp_recover_quiet⟩
  | openCut hx => exact hkeep hx ⟨True, wp_recover_quiet⟩
  | openThrew hx => exact hkeep hx ⟨True, wp_recover_quiet⟩
  | did hx => exact hkeep hx (exists_wp_run _ _ _)
  | didCut hx => exact hkeep hx (exists_wp_run _ _ _)
  | threw hx => exact hkeep hx (exists_wp_run _ _ _)
  | crashed => exact ⟨True, fun _ h ↦ absurd h List.not_mem_nil⟩
  | closed hx => exact hkeep hx (exists_wp_close _ _)
  | closeCut hx => exact hkeep hx (exists_wp_close _ _)
  | closeThrew hx => exact hkeep hx (exists_wp_close _ _)

end Runs

theorem Run.step_of_mem {sz : Sizing} {w w' : World} {hist : List (Label × Trace)}
    (h : Run sz w hist w') {s : Label × Trace} (hs : s ∈ hist) :
    ∃ w₁ w₂, Step sz w₁ s.1 s.2 w₂ := by
  induction h with
  | nil => exact absurd hs List.not_mem_nil
  | snoc _ hstep ih =>
    rcases List.mem_append.1 hs with hs | hs
    · exact ih hs
    · obtain rfl := List.mem_singleton.1 hs
      exact ⟨_, _, hstep⟩

/-- What decides is known when the flush starts. -/
theorem FlushesFrom.exists_iff {sz : Sizing} {start finish : Event (Call Mark) DB Disk}
    (h : FlushesFrom sz start finish) :
    ∃ R, (NothingStale start.mem start.disk ↔ R) ∧ (NoRecords finish.disk ↔ R) := by
  obtain ⟨hist, w, s, hrun, hs, hstart, hnew, hfinish, hcall⟩ := h
  obtain ⟨w₁, w₂, hstep⟩ := hrun.step_of_mem hs
  obtain ⟨R, hw⟩ := exists_watch hstep
  exact ⟨R, (hw start hstart).1 hnew, (hw finish hfinish).2 hcall⟩

/-- **When a flush retires all records**: if and only if no segment but the current one has any when
it starts. -/
theorem noRecords_iff {sz : Sizing} {start finish : Event (Call Mark) DB Disk}
    (h : FlushesFrom sz start finish) :
    NoRecords finish.disk ↔ NothingStale start.mem start.disk := by
  obtain ⟨R, hstart, hfinish⟩ := h.exists_iff
  rw [hstart, hfinish]

/-! ## Flushes there are -/

/-- A flush of a MemTable that is not empty starts with the building of its table. -/
theorem buildEvent_mem {sz : Sizing} {db db' : DB} {d d' : Disk} {tr : Trace}
    (hne : db.memtable.empty = false)
    (hx : Exec reliable (DB.flushMemtableLocked sz) db d tr (.ok () db' d')) :
    buildEvent db db.memtable.data d ∈ tr := by
  by_contra hno
  let W : Watch (Call Mark) DB Disk :=
    ⟨fun ev ↦ ev ≠ buildEvent db db.memtable.data d, fun _ ↦ True⟩
  have hwp : (DB.flushMemtableLocked sz).wp reliable W (fun _ _ _ ↦ False)
      (fun _ _ _ ↦ True) db d := by
    rw [DB.flushMemtableLocked, wp_bind, Crash.wp_get, hne]
    simp only [Bool.false_eq_true, if_false]
    rw [wp_bind, wp_modify, wp_bind, SSTable.build, wp_bind]
    exact ⟨trivial, fun hA ↦ absurd rfl hA⟩
  refine (hx.of_wp (fun ev hev ↦ ?_) hwp).2
  rintro rfl
  exact hno hev

/-- From an open store there is a flush. -/
theorem Reaches.flushesFrom {sz : Sizing} {ok : Label → Prop} {P : Entries → DB → Disk → Prop}
    {s : Snapshot} (h : Reaches sz ok P s) (hne : s.db.memtable.empty = false)
    (hlt : s.db.nextSstId + 1 < 2 ^ 64) (hopen : SSTable.Openable sz s.db.memtable.data) :
    ∃ d finish, Holds sz d s.contents ∧
      FlushesFrom sz (buildEvent s.db s.db.memtable.data d) finish := by
  obtain ⟨hist, d, hrun, -, ho⟩ := h
  obtain ⟨tr, db', d', hx, -, -⟩ := exists_exec (P := fun _ _ _ ↦ True)
    (Snapshot.wp_flush ho hne hlt hopen trivial)
  obtain ⟨finish, hfinish, hcall⟩ := flushes_of_exec hne hx
  refine ⟨d, finish, ho.holds, _, _, (.did .flush, tr), .snoc hrun (.did hx), ?_,
    buildEvent_mem hne hx, ⟨⟨_, _, rfl⟩, hne⟩, hfinish, hcall⟩
  exact List.mem_append_right _ (List.mem_singleton_self _)

/-- The first flush of a store leaves no records. -/
theorem noRecords_first : ∃ start finish, FlushesFrom .onePercent start finish ∧
    NoRecords finish.disk := by
  have hreach : Reaches .onePercent (fun _ ↦ True) (fun _ _ _ ↦ True)
      ((Snapshot.first .onePercent).write Snapshot.older) :=
    (reaches_first trivial).write (.put [107] [49]) rfl (by decide) trivial
  obtain ⟨d, finish, hd, h⟩ := hreach.flushesFrom (empty_applyRecord _ _) (by decide)
    (Snapshot.openable_applyRecord (by decide))
  refine ⟨_, finish, h, (noRecords_iff h).2 ((nothingStale_iff hd rfl).2 fun id hid ↦ ?_)⟩
  have hlog : ((Snapshot.first .onePercent).write Snapshot.older).contents.logs id = none := by
    cases id with
    | zero => exact absurd rfl hid
    | succ id => rfl
  rw [hlog]
  rfl

/-- **A flush leaves a record behind** that it has persisted: recovery has replayed it from a
segment that is not the current one. -/
theorem exists_not_noRecords : ∃ start finish, FlushesFrom .onePercent start finish ∧
    ¬NoRecords finish.disk := by
  obtain ⟨d, finish, hd, h⟩ :=
    (Snapshot.reaches_newer (fun _ ↦ True) (P := fun _ _ _ ↦ True) trivial
    trivial (fun _ _ ↦ trivial) fun _ _ _ _ _ ↦ trivial).flushesFrom (empty_applyRecord _ _)
    (by decide) Snapshot.openable_newer
  refine ⟨_, finish, h, fun hno ↦ ?_⟩
  obtain ⟨R, hstart, hfinish⟩ := h.exists_iff
  have hcur : (Snapshot.reopened.write Snapshot.newer).db.currentWalId = 3 := rfl
  have hstale := (@nothingStale_iff _ (Snapshot.reopened.write Snapshot.newer).db _ _ _ hd rfl).1
    (hstart.2 (hfinish.1 hno)) 2 (by rw [hcur]; decide)
  have hlog : (Snapshot.reopened.write Snapshot.newer).contents.logs 2 =
      some (.saved (walCodec.encAll [Snapshot.older])) := rfl
  rw [hlog, logRecords_saved (by decide)] at hstale
  cases hstale

end KeyValStore
