import KeyValStore.History.Atomic
import KeyValStore.History.Readable
import KeyValStore.Recovery.Depends
import KeyValStore.Session.Silent

/-!
# Writing after a torn record

A crash in the middle of a write can leave a part of its record at the end of the segment (`Tears`).
Recovery replays the records before it and leaves the segment as it is.  Unless a merge has taken a
number since the segment was opened, it is opened again, and what is written next comes right after
the torn record: `replays_torn` says what is replayed then, and `tornRecord_iff` when it is all that
has been written.  In general it is not (`not_tornRecord`).
-/

set_option autoImplicit false

namespace KeyValStore

open Crash Std
open DB (applied loggedDisk growing replayed sstPath walSegPath donePath)

/-! ## Calls that do not write to a file -/

/-- The call neither writes to the file nor renames another one to it. -/
def SparesEnd (f : Name) : Call Mark → Prop
  | .write n _ => n ≠ f
  | .rename _ new => new ≠ f
  | _ => True

/-- If the file is there, it has all these bytes or none, and they are durable. -/
def AllOrNone (f : Name) (bs : Bytes) (d : Disk) : Prop :=
  ∀ g, d[f]? = some g → g = .saved bs ∨ g = .saved []

section SparesEnd

variable {f : Name} {bs : Bytes} {d d' : Disk}

theorem AllOrNone.agree (h : AllOrNone f bs d) (hd : d'[f]? = d[f]?) : AllOrNone f bs d' := by
  rw [AllOrNone, hd]
  exact h

theorem allOrNone_insert (f : Name) (bs : Bytes) (d : Disk) : AllOrNone f bs (d.insert f {}) := by
  intro g hg
  rw [ExtTreeMap.getElem?_insert_self, Option.some_inj] at hg
  exact .inr hg.symm

theorem allOrNone_erase (f : Name) (bs : Bytes) (d : Disk) : AllOrNone f bs (d.erase f) := by
  intro g hg
  rw [ExtTreeMap.getElem?_erase_self] at hg
  cases hg

/-- Such a call takes all bytes off the file or none. -/
theorem SparesEnd.allOrNone {c : Call Mark} {r : Reply c} (hc : SparesEnd f c)
    (hs : Crash.Step .none c d r d') (h : AllOrNone f bs d) : AllOrNone f bs d' := by
  cases c with
  | mark m => exact hs.2 ▸ h
  | fileExists n => exact hs.2 ▸ h
  | listDir => exact hs.2 ▸ h
  | readFile n => exact hs.1 ▸ h
  | tell n => exact hs.2 ▸ h
  | flush n => exact (hs.resolve_right fun hf ↦ hf.1).2 ▸ h
  | close n => exact (hs.resolve_right fun hf ↦ hf.1).2 ▸ h
  | openTrunc n =>
    rw [(hs.resolve_right fun hf ↦ hf.1).2]
    by_cases hn : f = n
    · exact hn ▸ allOrNone_insert f bs d
    · exact h.agree (Disk.getElem?_insert_ne hn)
  | openAppend n =>
    rw [(hs.resolve_right fun hf ↦ hf.1).2]
    by_cases hn : f = n
    · subst hn
      intro g hg
      rw [Disk.getElem?_insertIfNew_self, Option.some_inj] at hg
      cases hf : d[f]? with
      | none => exact .inr (by rw [← hg, hf]; rfl)
      | some g' => exact h g (by rw [← hg, hf]; rfl)
    · exact h.agree (Disk.getElem?_insertIfNew_ne hn)
  | write n bs' =>
    rw [(hs.resolve_right fun hf ↦ hf.1).2]
    exact h.agree (Disk.getElem?_modify_ne (Ne.symm hc))
  | sync n =>
    rw [(hs.resolve_right fun hf ↦ hf.1).2]
    by_cases hn : f = n
    · subst hn
      intro g hg
      rw [ExtTreeMap.getElem?_modify_self] at hg
      obtain ⟨g', hg', rfl⟩ := Option.map_eq_some_iff.1 hg
      exact (h g' hg').imp (by rintro rfl; simp) (by rintro rfl; simp)
    · exact h.agree (Disk.getElem?_modify_ne hn)
  | remove n =>
    rw [(hs.resolve_right fun hf ↦ hf.1).2]
    by_cases hn : f = n
    · exact hn ▸ allOrNone_erase f bs d
    · exact h.agree (Disk.getElem?_erase_ne hn)
  | rename old new =>
    rw [(hs.resolve_right fun hf ↦ hf.1).2, Call.perform]
    cases d[old]? with
    | none => exact h
    | some g =>
      have herase : AllOrNone f bs (d.erase old) := by
        by_cases hn : f = old
        · exact hn ▸ allOrNone_erase f bs d
        · exact h.agree (Disk.getElem?_erase_ne hn)
      exact herase.agree (Disk.getElem?_insert_ne (Ne.symm hc))

theorem sparesEnd_of_callOn {n : Name} (hn : n ≠ f) : ∀ c, CallOn n c → SparesEnd f c := by
  intro c hc
  cases c <;> first | exact trivial | exact hc.elim | exact hc ▸ hn

end SparesEnd

section Flush

variable {id : ℕ}

theorem sparesEnd_sst (n : ℕ) : ∀ c, CallOn (sstPath n) c → SparesEnd (walSegPath id) c :=
  sparesEnd_of_callOn (DB.sstPath_ne_walSegPath n id)

theorem makes_updateManifest : DB.updateManifestLocked.Makes (SparesEnd (walSegPath id)) :=
  DB.makes_updateManifestLocked (sparesEnd_of_callOn (DB.walSegPath_ne_tmp id).symm)
    (DB.walSegPath_ne_dest id).symm trivial

theorem makes_resetWal : DB.resetWal.Makes (SparesEnd (walSegPath id)) := by
  refine makes_get.bind fun db ↦ ?_
  cases db.wal with
  | none => exact makes_modify _
  | some f => exact (WAL.silent_close trivial trivial).makes.bind fun _ ↦ makes_modify _

/-- **A flush** does not write to a segment. -/
theorem makes_flushMemtableLocked (sz : Sizing) :
    (DB.flushMemtableLocked sz).Makes (SparesEnd (walSegPath id)) := by
  refine makes_get.bind fun db ↦ ?_
  split
  · trivial
  refine (makes_modify _).bind fun _ ↦
      (SSTable.silent_build (sparesEnd_sst _) sz _ trivial).makes.bind fun _ ↦
    (SSTable.silent_open trivial).makes.bind fun _ ↦ (makes_modify _).bind fun _ ↦
    makes_updateManifest.bind fun _ ↦ makes_get.bind fun db ↦ makes_resetWal.bind fun _ ↦ ?_
  refine (makes_call ?_).bind fun _ ↦ (makes_modify _).bind fun _ ↦ makes_get.bind fun _ ↦
    (WAL.silent_open trivial).makes.bind fun _ ↦ (makes_modify _).bind fun _ ↦
    (makes_modify _).bind fun _ ↦
    (makes_call ?_).bind fun _ ↦ makes_call trivial
  · exact (DB.walSegPath_ne_donePath id _).symm
  · trivial

/-- **A merge** does not, either. -/
theorem makes_compactLocked (sz : Sizing) :
    (DB.compactLocked sz).Makes (SparesEnd (walSegPath id)) := by
  refine makes_get.bind fun db ↦ ?_
  split
  · trivial
  refine (makes_flushMemtableLocked sz).bind fun _ ↦ makes_get.bind fun _ ↦
    (DB.silent_mergeTables (fun _ _ ↦ trivial) _).makes.bind fun _ ↦ makes_get.bind fun db ↦
    (makes_modify _).bind fun _ ↦
    (SSTable.silent_build (sparesEnd_sst _) sz _ trivial).makes.bind fun _ ↦
    (makes_modify _).bind fun _ ↦ (SSTable.silent_open trivial).makes.bind fun _ ↦
    (makes_modify _).bind fun _ ↦
    makes_updateManifest.bind fun _ ↦ makes_forM fun _ _ ↦ makes_call trivial

theorem makes_maybeFlush (sz : Sizing) : (DB.maybeFlush sz).Makes (SparesEnd (walSegPath id)) := by
  refine makes_get.bind fun db ↦ ?_
  split
  · refine (makes_flushMemtableLocked sz).bind fun _ ↦ makes_get.bind fun db ↦ ?_
    split
    · exact makes_compactLocked sz
    · trivial
  · trivial

end Flush

/-! ## The crash -/

/-- A crash has left a part of the record at the end of the file, `t`: neither nothing nor all of
it. -/
structure Tears (seg : Name) (r : WalRecord) (t : Bytes) (d d' : Disk) : Prop where
  /-- What is left. -/
  content : (d'[seg]?).map File.content = (d[seg]?).map fun f ↦ f.content ++ t
  /-- It is the beginning of the record. -/
  starts : t <+: r.bytes
  /-- It is not nothing. -/
  ne_nil : t ≠ []
  /-- It is not all. -/
  ne_bytes : t ≠ r.bytes

/-- **What the crash leaves**: all but the segment as it was. -/
theorem Opened.holds_torn {sz : Sizing} {db : DB} {d d' : Disk} {C : Contents} {op : Op}
    {r : WalRecord} {t bs : Bytes} {tr : Trace} (h : Opened sz db d C) (hw : C.Whole)
    (hr : op.record = some r) (hlog : C.logs db.currentWalId = some (.saved bs))
    (hs : Step sz (.opened db d) (.didCut op) tr (.closed d'))
    (ht : Tears (walSegPath db.currentWalId) r t d d') :
    Holds sz d' (C.setLog db.currentWalId (some (.saved (bs ++ t)))) := by
  cases hs with
  | @didCut _ _ _ d₁ _ _ hx hc =>
  have hseg : d[walSegPath db.currentWalId]? = some (.saved bs) := (h.holds.logs _).trans hlog
  have hcontent := ht.content
  rw [hseg, Option.map_some, File.content_saved, Option.map_eq_some_iff] at hcontent
  obtain ⟨f', hf', hbytes⟩ := hcontent
  let W : Watch (Call Mark) DB Disk := ⟨fun _ ↦ True, fun ev ↦
    WAL.Growing (walSegPath db.currentWalId) r.bytes d ev.disk ∨
      AllOrNone (walSegPath db.currentWalId) (bs ++ r.bytes) ev.disk⟩
  have hlogged : AllOrNone (walSegPath db.currentWalId) (bs ++ r.bytes)
      (loggedDisk (walSegPath db.currentWalId) r d) := by
    intro g hg
    rw [loggedDisk, ExtTreeMap.getElem?_modify_self, hseg, Option.map_some, Option.some_inj] at hg
    exact .inl (by rw [← hg, File.sync_eq_saved, File.content_append, File.content_saved])
  have hwp : (op.run sz).wp reliable W (fun _ _ _ ↦ True) (fun _ _ _ ↦ True) db d := by
    rw [run_of_record hr]
    refine DB.wp_writeRecord throwing_none h.wal (DB.walSegPath_ne_tmp _) (fun _ _ _ _ ↦ .inl) ?_
    exact wp_mono (wp_makes (makes_maybeFlush sz) (fun _ _ _ _ hc hd hs ↦ hc.allOrNone hs hd)
      (fun _ _ _ _ ↦ .inr) hlogged) (fun _ _ _ _ ↦ trivial) fun _ _ _ _ ↦ trivial
  obtain ⟨-, _, _, hgrow | hall⟩ := hx.of_wp (fun _ _ ↦ trivial) hwp
  · obtain ⟨p, -, hd⟩ := DB.holds_of_growing h.holds h.wal_lt hgrow
    obtain ⟨C', hC, hd'⟩ := hd.crashed hc
    have hlog' := (hd'.logs db.currentWalId).symm.trans hf'
    rw [hw.settled.eq_setLog_of_crashed hC hlog', hC.settled _ _ hlog', hbytes] at hd'
    exact hd'
  · -- the record is complete, or all is gone
    obtain ⟨g, hg, hcrash⟩ := hc.get_of_some hf'
    rcases hall g hg with rfl | rfl
    · rw [File.crashed_saved_iff.1 hcrash, File.content_saved, List.append_cancel_left_eq] at hbytes
      exact absurd hbytes.symm ht.ne_bytes
    · rw [File.crashed_saved_iff.1 hcrash, File.content_saved] at hbytes
      exact absurd (List.append_eq_nil_iff.1 hbytes.symm).2 ht.ne_nil

/-! ## What is written next -/

/-- The records that are written in a history, in order. -/
def appended (hist : List (Label × Trace)) : List WalRecord := (completed hist).filterMap Op.record

/-- A write that returns and does not go on to flush. -/
structure QuietWrite (s : Label × Trace) : Prop where
  /-- It is a `put` or a `del` that returns, and its strings are short. -/
  writes : ∃ op r, s.1 = .did op ∧ op.record = some r ∧ r.IsShort
  /-- It builds no table. -/
  quiet : ∀ ev ∈ s.2, OnBuild (fun _ _ _ ↦ False) ev

theorem appended_snoc {hist : List (Label × Trace)} {op : Op} {r : WalRecord} {tr : Trace}
    (hr : op.record = some r) : appended (hist ++ [(.did op, tr)]) = appended hist ++ [r] := by
  rw [appended, completed, List.filterMap_append, List.filterMap_append]
  simp [appended, completed, Label.op, hr]

theorem Contents.setLog_setLog (C : Contents) (id : ℕ) (o o' : Option File) :
    (C.setLog id o).setLog id o' = C.setLog id o' := by
  rw [Contents.setLog, Contents.setLog, Function.update_idem]
  rfl

theorem Contents.setLog_of_logs {C : Contents} {id : ℕ} {o : Option File} (h : C.logs id = o) :
    C.setLog id o = C := by
  rw [Contents.setLog, ← h, Function.update_eq_self]

section Writes

variable {sz : Sizing} {db db' : DB} {d d' : Disk} {C : Contents} {bs : Bytes}

/-- **A write that does not go on to flush** appends its record. -/
theorem Opened.exec_quiet {op : Op} {r : WalRecord} {tr : Trace} (h : Opened sz db d C)
    (hr : op.record = some r) (hx : Exec reliable (op.run sz) db d tr (.ok () db' d'))
    (htr : ∀ ev ∈ tr, OnBuild (fun _ _ _ ↦ False) ev) :
    db' = applied r db ∧ d' = loggedDisk (walSegPath db.currentWalId) r d := by
  have hwp : (op.run sz).wp reliable ⟨OnBuild fun _ _ _ ↦ False, fun _ ↦ True⟩ (fun _ db' d' ↦
      db' = applied r db ∧ d' = loggedDisk (walSegPath db.currentWalId) r d)
        (fun _ _ _ ↦ True) db d := by
    rw [run_of_record hr]
    refine DB.wp_writeRecord throwing_none h.wal (DB.walSegPath_ne_tmp _)
      (fun _ _ _ _ _ ↦ trivial) ?_
    refine DB.wp_maybeFlush (fun _ ↦ ⟨rfl, rfl⟩) fun _ ↦ ?_
    refine DB.wp_flushMemtableLocked throwing_none (empty_applyRecord _ _) trivial fun hbuild ↦ ?_
    exact (hbuild _ _ rfl).elim
  exact (hx.of_wp htr hwp).2

/-- **What such writes leave**: the records follow what is in the segment. -/
theorem Opened.writes {hist : List (Label × Trace)} (h : Opened sz db d C)
    (hlog : C.logs db.currentWalId = some (.saved bs))
    (hrun : Run sz (.opened db d) hist (.opened db' d'))
    (hhist : ∀ s ∈ hist, QuietWrite s) : db'.currentWalId = db.currentWalId ∧
      Opened sz db' d'
        (C.setLog db.currentWalId (some (.saved (bs ++ walCodec.encAll (appended hist))))) := by
  suffices hall : ∃ db₁ d₁, World.opened db' d' = .opened db₁ d₁ ∧
      db₁.currentWalId = db.currentWalId ∧
      Opened sz db₁ d₁
        (C.setLog db.currentWalId (some (.saved (bs ++ walCodec.encAll (appended hist))))) by
    obtain ⟨_, _, heq, h'⟩ := hall
    cases heq
    exact h'
  refine hrun.keeps (I := fun hist w ↦ ∃ db₁ d₁, w = .opened db₁ d₁ ∧
      db₁.currentWalId = db.currentWalId ∧ Opened sz db₁ d₁
        (C.setLog db.currentWalId (some (.saved (bs ++ walCodec.encAll (appended hist))))))
    ⟨db, d, rfl, rfl, ?_⟩ ?_ hhist
  · rw [show appended [] = [] from rfl, Codec.SelfDelimiting.encAll_nil, List.append_nil,
      Contents.setLog_of_logs hlog]
    exact h
  · rintro hist _ l tr w' ⟨db₁, d₁, rfl, hid, ho⟩ hs hquiet
    obtain ⟨op, r, hl, hr, -⟩ := hquiet.writes
    obtain rfl : l = .did op := hl
    cases hs with
    | did hx =>
      obtain ⟨rfl, rfl⟩ := ho.exec_quiet hr hx hquiet.quiet
      refine ⟨_, _, rfl, hid, ?_⟩
      have hnew := ho.written r
      rw [DB.logged, hid, Contents.setLog_logs_self, Contents.setLog_setLog, Option.map_some,
        File.sync_eq_saved, File.content_append, File.content_saved, List.append_assoc] at hnew
      rw [appended_snoc hr, Codec.SelfDelimiting.encAll_append, Codec.SelfDelimiting.encAll_cons,
        Codec.SelfDelimiting.encAll_nil, List.append_nil]
      exact hid ▸ hnew

end Writes

/-! ## What is replayed -/

/-- Recovery replays these records and no others, in this order. -/
def ReplaysExactly (d : Disk) (rs : List WalRecord) : Prop :=
  DB.replays d = some rs ∧
    ∀ opts, DB.recover.Returns reliable { opts } d fun _ db _ ↦ db.memtable = replayed rs

theorem ReplaysExactly.iff_eq {d : Disk} {rs rs' : List WalRecord} (h : ReplaysExactly d rs) :
    ReplaysExactly d rs' ↔ rs' = rs :=
  ⟨fun h' ↦ Option.some_inj.1 (h'.1.symm.trans h.1), by rintro rfl; exact h⟩

/-- **Two crashes.**  In a session on a directory that clean sessions have left, a crash in the
middle of a write leaves a part `t` of its record `r` in the segment, and the directory `d₁`;
recovery opens the store again, the writes of `hist'` return, and the second crash leaves the
directory `d₄`.  `db` is the object before the first crash. -/
inductive TornRun (sz : Sizing) (db : DB) (t : Bytes) (d₁ : Disk)
    (hist' : List (Label × Trace)) (d₄ : Disk) : Prop
  | mk {hist : List (Label × Trace)} {d d₂ d₃ : Disk} {op : Op} {r : WalRecord} {tr tr₁ : Trace}
      {opts : Options} {db₂ db₃ : DB}
      (hrun : Run sz (.closed ∅) hist (.opened db d))
      (hhist : ∀ s ∈ hist, s.1.IsClean ∧ Regular sz (fun _ db _ ↦ NoWrap db) s)
      (hr : op.record = some r) (hshort : r.IsShort)
      (hcut : Step sz (.opened db d) (.didCut op) tr (.closed d₁))
      (htorn : Tears (walSegPath db.currentWalId) r t d d₁)
      (hopen : Step sz (.closed d₁) (.opened opts) tr₁ (.opened db₂ d₂))
      (hwrites : Run sz (.opened db₂ d₂) hist' (.opened db₃ d₃))
      (hhist' : ∀ s ∈ hist', QuietWrite s) (hcrash : d₃.Crashed d₄)

section Records

variable {C : Contents} {w : ℕ} {rs : List WalRecord} {r : WalRecord} {t : Bytes}

/-- The segment recovery opens: the torn one, if its number is the next one, and else a new one. -/
theorem reopened_torn (hcur : C.Current w) (bs : Bytes) :
    (C.setLog w (some (.saved bs))).reopened.logs (nextOf C.tables) =
      some (.saved (if w = nextOf C.tables then bs else [])) := by
  rw [Contents.reopened_logs, Contents.setLog_tables, if_pos rfl]
  by_cases hw : w = nextOf C.tables
  · rw [if_pos hw, ← hw, Contents.setLog_logs_self, Option.getD_some]
  · have hnone : C.logs (nextOf C.tables) = none := by
      by_contra hne
      exact hw (hcur.le.antisymm (hcur.last _ hne))
    rw [if_neg hw, Contents.setLog_logs_ne _ _ (Ne.symm hw), hnone]
    rfl

/-- What there is to replay before the last segment. -/
theorem recordsBelow_torn (hcur : C.Current w) (hstale : ∀ id, id ≠ w → logRecords (C.logs id) = [])
    (bs : Bytes) : recordsBelow (C.setLog w (some (.saved bs))).reopened.logs (nextOf C.tables) =
      if w = nextOf C.tables then [] else logRecords (some (.saved bs)) := by
  have hother : ∀ id, id ≠ w →
      logRecords ((C.setLog w (some (.saved bs))).logs id) = [] := fun id hid ↦ by
    rw [Contents.setLog_logs_ne _ _ hid, hstale id hid]
  rw [recordsBelow_congr fun id _ ↦ Contents.logRecords_reopened _ id]
  split
  · rename_i hw
    exact recordsBelow_eq_nil_iff.2 fun id hid ↦ hother id (hw ▸ hid.ne)
  · rename_i hw
    rw [recordsBelow_of_sorted (List.pairwise_singleton _ w)
      (List.forall_mem_singleton.2 (Nat.lt_of_le_of_ne hcur.le hw)) fun id hid ↦
      hother id (by simpa using hid), List.flatMap_singleton, Contents.setLog_logs_self]

/-- **All that there is to replay** once more records have been written. -/
theorem records_torn (hcur : C.Current w) (hstale : ∀ id, id ≠ w → logRecords (C.logs id) = [])
    (hrs : ∀ r ∈ rs, r.IsShort) (hr : r.IsShort) (ht : t <+: r.bytes) (hne : t ≠ r.bytes)
    (hnew : (C.setLog w (some (.saved (walCodec.encAll rs ++ t)))).reopened.Current
      (nextOf C.tables))
    (bs' : Bytes) :
    ((C.setLog w (some (.saved (walCodec.encAll rs ++ t)))).reopened.setLog
      (nextOf C.tables)
        (some
          (.saved ((if w = nextOf C.tables then walCodec.encAll rs ++ t else []) ++
            bs')))).records =
        rs ++ WAL.records ((if w = nextOf C.tables then t else []) ++ bs') := by
  rw [hnew.records_setLog, recordsBelow_torn hcur hstale]
  split
  · rw [List.nil_append, logRecords_some, File.content_saved, List.append_assoc]
    exact Codec.SelfDelimiting.all_encAll_append (C := walCodec) hrs _
  · rw [logRecords_torn hrs hr ht hne, logRecords_some, File.content_saved]

end Records

/-- **What the second recovery replays**: the records that were complete at the first crash, and
what can be read of the torn record and those that follow it, unless they are in a new segment. -/
theorem TornRun.replays {sz : Sizing} {db : DB} {t : Bytes} {d₁ d₄ : Disk}
    {hist' : List (Label × Trace)} (h : TornRun sz db t d₁ hist' d₄) :
    ReplaysExactly d₄ (logRecords d₁[walSegPath db.currentWalId]? ++
      WAL.records
        ((if db.currentWalId = db.nextSstId then t else []) ++
          walCodec.encAll (appended hist'))) := by
  obtain ⟨hrun, hhist, hr, hshort, hcut, htorn, hopen, hwrites, hhist', hcrash⟩ := h
  rename_i hist d d₂ d₃ op r tr tr₁ opts db₂ db₃
  obtain ⟨C, ho, hf, hstale, -⟩ := shows_of_clean hrun hhist
  obtain ⟨f, hlog⟩ := Option.ne_none_iff_exists'.1 ho.active
  obtain ⟨rs, hrs, rfl⟩ := hf.whole _ f hlog
  -- the first crash, and the recovery
  have hd₁ := ho.holds_torn hf.whole hr hlog hcut htorn
  cases hopen with
  | opened hx =>
  obtain ⟨rfl, ho₂⟩ := hd₁.exec_recover (ho.sound.setLog ho.current.le) hf.short
    (hf.whole.settled.setSaved _ _) hx
  -- the writes, and the second crash
  obtain ⟨-, ho₃⟩ := ho₂.toOpened.writes (reopened_torn ho.current _) hwrites hhist'
  obtain ⟨C₄, hC, hd₄⟩ := ho₃.holds.crashed hcrash
  rw [(ho₂.settled.setSaved _ _).eq_of_crashed hC] at hd₄
  have hrecords := records_torn ho.current (fun id hid ↦ hstale trivial id hid) hrs
    hshort htorn.starts htorn.ne_bytes ho₂.current (walCodec.encAll (appended hist'))
  have hseg : logRecords d₁[walSegPath db.currentWalId]? = rs := by
    rw [hd₁.logs, Contents.setLog_logs_self, logRecords_torn hrs hshort htorn.starts htorn.ne_bytes]
  rw [hseg, ho.next, ← hrecords]
  exact ⟨hd₄.replays ho₃.sound.logs, fun opts ↦
    Prog.returns_of_wp (DB.wp_recover hd₄ ho₃.sound.logs (fun _ _ ↦ trivial) fun _ _ ↦ rfl)⟩

/-- **When a torn record does no harm.**  Recovery replays the records that were complete at the
first crash, and what can be read of the torn record and those that follow it.  These are exactly
the complete ones and those that were written after it if and only if the segment is not opened
again, or what is left of the torn record, followed by the new records, is the new records followed
by something that does not start with a record. -/
theorem tornRecord_iff {sz : Sizing} {db : DB} {t : Bytes} {d₁ d₄ : Disk}
    {hist' : List (Label × Trace)} (h : TornRun sz db t d₁ hist' d₄) :
    ReplaysExactly d₄ (logRecords d₁[walSegPath db.currentWalId]? ++
      WAL.records
        ((if db.currentWalId = db.nextSstId then t else []) ++ walCodec.encAll (appended hist'))) ∧
    (ReplaysExactly d₄ (logRecords d₁[walSegPath db.currentWalId]? ++ appended hist') ↔
      db.currentWalId ≠ db.nextSstId ∨ ∃ u, t ++ walCodec.encAll (appended hist') =
        walCodec.encAll (appended hist') ++ u ∧ WAL.readRecord u = none) := by
  refine ⟨h.replays, ?_⟩
  have hshort : ∀ r ∈ appended hist', r.IsShort := by
    obtain ⟨-, -, -, -, -, -, -, -, hhist', -⟩ := h
    intro r hmem
    obtain ⟨op, hop, hr⟩ := List.mem_filterMap.1 hmem
    obtain ⟨s, hs, hl⟩ := List.mem_filterMap.1 hop
    obtain ⟨op', r', heq, hr', hr'short⟩ := (hhist' s hs).writes
    rw [heq] at hl
    obtain rfl : op' = op := Option.some.inj hl
    exact Option.some.inj (hr'.symm.trans hr) ▸ hr'short
  rw [h.replays.iff_eq, List.append_cancel_left_eq, eq_comm]
  by_cases hid : db.currentWalId = db.nextSstId
  · rw [if_pos hid]
    exact (Codec.SelfDelimiting.all_eq_iff (C := walCodec) hshort).trans
      ⟨.inr, fun h ↦ h.resolve_left fun hne ↦ hne hid⟩
  · rw [if_neg hid, List.nil_append]
    exact ⟨fun _ ↦ .inl hid, fun _ ↦ Codec.SelfDelimiting.all_encAll (C := walCodec) hshort⟩

/-! ## A record that is lost -/

/-- The first byte of a record is left in the first segment of a new store, and one more record is
written after recovery. -/
theorem exists_tornRun :
    ∃ d₁ hist' d₄, TornRun .onePercent (Snapshot.first .onePercent).db [WalOp.put] d₁ hist' d₄ ∧
    logRecords d₁[walSegPath (Snapshot.first .onePercent).db.currentWalId]? = [] ∧
    appended hist' = [Snapshot.newer] := by
  obtain ⟨hist, d, hrun, hhist, ho⟩ := exists_first_session
  have hx : Exec reliable ((Op.put [107] [49]).run .onePercent) (Snapshot.first .onePercent).db d _
      (.cut
        (d.modify (walSegPath (Snapshot.first .onePercent).db.currentWalId)
          (·.append [WalOp.put]))) :=
    .get (.call (.inl ⟨rfl, rfl⟩) .cut)
  have hwhole : (Snapshot.first .onePercent).contents.Whole :=
    (Faithful.recovered (by rintro id f ⟨⟩) (fun _ ht ↦ absurd ht List.not_mem_nil)
      .onePercent {}).whole
  have hlog : (Snapshot.first .onePercent).contents.logs
      (Snapshot.first .onePercent).db.currentWalId =
      some (.saved []) := Contents.setLog_logs_self _ _ _
  have hseg := (ho.holds.logs _).trans hlog
  -- the crash leaves all that has been written
  obtain ⟨d₁, hcrash, hseg₁⟩ : ∃ d₁, Disk.Crashed (d.modify (walSegPath
      (Snapshot.first .onePercent).db.currentWalId) (·.append [WalOp.put])) d₁ ∧
      d₁[walSegPath (Snapshot.first .onePercent).db.currentWalId]? = some (.saved [WalOp.put]) := by
    refine ⟨_, Disk.crashed_sync _, ?_⟩
    rw [ExtTreeMap.getElem?_map, ExtTreeMap.getElem?_modify_self, hseg]
    rfl
  have hstep := Step.didCut hx hcrash
  have htorn : Tears (walSegPath (Snapshot.first .onePercent).db.currentWalId) Snapshot.older
      [WalOp.put] d d₁ := by
    refine ⟨?_, by decide, by decide, by decide⟩
    rw [hseg₁, hseg]
    rfl
  have hd₁ := ho.holds_torn hwhole rfl hlog hstep htorn
  have hrun₁ : WAL.readRecord [WalOp.put] = none := by decide
  have hnil : logRecords d₁[walSegPath (Snapshot.first .onePercent).db.currentWalId]? = [] := by
    rw [hseg₁, logRecords_some, File.content_saved]
    exact Codec.Decoder.all_of_run_none hrun₁
  -- recovery, and one more record
  obtain ⟨tr₁, d₂, hx₁, -, ho₂⟩ := exists_recover (P := fun _ _ _ ↦ False) hd₁
    (ho.sound.setLog ho.current.le) {}
  have hrecords :
      ((Snapshot.first .onePercent).contents.setLog (Snapshot.first .onePercent).db.currentWalId
      (some (.saved ([] ++ [WalOp.put])))).records = [] := by
    have hlast := hd₁.logs (Snapshot.first .onePercent).db.currentWalId
    rw [Contents.setLog_logs_self] at hlast
    rw [ho.current.records_setLog, ← hlast, hnil]
    rfl
  have hsmall : ¬({} : Options).memtableFlushBytes ≤
    (DB.applyRecord Snapshot.newer (replayed [])).bytes := by decide
  rw [← hrecords] at hsmall
  obtain ⟨tr₂, _, d₃, hx₂, htr₂, rfl, ho₃⟩ := exists_exec (P := fun _ _ _ ↦ False)
    (Snapshot.wp_write (s := ⟨_, _⟩) (r := Snapshot.newer) ho₂ (.put [107] [50]) rfl hsmall)
  refine ⟨d₁, [(.did (.put [107] [50]), tr₂)], _,
    .mk hrun hhist rfl (by decide) hstep htorn (.opened hx₁)
    (@Run.snoc _ _ [] _ _ _ _ .nil (.did hx₂)) ?_ (Disk.crashed_sync _), hnil, rfl⟩
  exact List.forall_mem_singleton.2 ⟨⟨_, _, rfl, rfl, by decide⟩, htr₂⟩

theorem tornRecord_iff_first : ∃ (d₁ : Disk) (hist' : List (Label × Trace)) (d₄ : Disk),
    ReplaysExactly d₄ (logRecords d₁[walSegPath (Snapshot.first .onePercent).db.currentWalId]? ++
      WAL.records
        ((if (Snapshot.first .onePercent).db.currentWalId =
          (Snapshot.first .onePercent).db.nextSstId
        then [WalOp.put] else []) ++ walCodec.encAll (appended hist'))) ∧
    (ReplaysExactly d₄
        (logRecords d₁[walSegPath (Snapshot.first .onePercent).db.currentWalId]? ++
          appended hist') ↔
      (Snapshot.first .onePercent).db.currentWalId ≠ (Snapshot.first .onePercent).db.nextSstId ∨
        ∃ u, [WalOp.put] ++ walCodec.encAll (appended hist') =
          walCodec.encAll (appended hist') ++ u ∧ WAL.readRecord u = none) := by
  obtain ⟨d₁, hist', d₄, h, -, -⟩ := exists_tornRun
  exact ⟨d₁, hist', d₄, tornRecord_iff h⟩

/-- **A record that is written after a torn one is lost.** -/
theorem not_tornRecord : ∃ d₁ hist' d₄,
    TornRun .onePercent (Snapshot.first .onePercent).db [WalOp.put] d₁ hist' d₄ ∧
    appended hist' = [Snapshot.newer] ∧ ReplaysExactly d₄ [] := by
  obtain ⟨d₁, hist', d₄, h, hnil, hnew⟩ := exists_tornRun
  have hbytes : WAL.readRecord ([WalOp.put] ++ walCodec.encAll [Snapshot.newer]) = none := by decide
  have hid : (Snapshot.first .onePercent).db.currentWalId =
    (Snapshot.first .onePercent).db.nextSstId := rfl
  have hreplays := h.replays
  rw [hnil, hnew, if_pos hid, List.nil_append, walRecords_eq,
    Codec.Decoder.all_of_run_none hbytes] at hreplays
  exact ⟨d₁, hist', d₄, h, hnew, hreplays⟩

end KeyValStore
