import KeyValStore.Records.Rules

/-!
# Writing and reading a log

What the programs of `WAL` do to a directory: opening creates an empty segment if there is none,
`append` and `sync` extend one file by the bytes of a record (`wp_append`, `wp_sync`), and `replay`
hands over the complete records of a segment (`wp_replay`).

`appendAndReplay_iff` says when everything that is appended is replayed.
-/

set_option autoImplicit false

namespace KeyValStore

open Crash Std

namespace WAL

section Rules

variable {F : Faults Mark} {μ : Type} {W : Watch (Call Mark) μ Disk} {E : Error → μ → Disk → Prop}
  {m : μ} {d : Disk} {f : Name}

/-- The directory `d` with the beginning of `bs` written to the file `f`. -/
def Growing (f : Name) (bs : Bytes) (d d' : Disk) : Prop :=
  ∃ p, p <+: bs ∧ d' = d.modify f (·.append p)

/-- `WAL::WAL`. -/
theorem wp_open {Q : Name → μ → Disk → Prop} (hw : W.always ⟨.openAppend f, m, d⟩)
    (hthrew : F.refuse (.openAppend f) → E (.walOpen f) m d) (h : Q f m (d.insertIfNew f {})) :
    (WAL.open f : Io μ Name).wp (device F) W Q E m d := by
  rw [WAL.open, wp_bind]
  exact wp_openAppend hw hthrew fun _ ↦ h

theorem wp_fwrite_growing {Q : Unit → μ → Disk → Prop} {p bs : Bytes}
    (hs : bs ≠ [] → ¬F.short (.write f bs))
    (hw : W.always ⟨.write f bs, m, d.modify f (·.append p)⟩)
    (h : Q () m (d.modify f (·.append (p ++ bs)))) :
    (fwrite f bs : Io μ Unit).wp (device F) W Q E m (d.modify f (·.append p)) := by
  rw [fwrite, wp_call]
  refine wp_write_short hw ?_ fun r hr hf ↦ absurd hf (hs (List.ne_nil_of_length_pos (by omega)))
  rw [Disk.modify_modify]
  simpa [File.append] using h

/-- **`WAL::append`** writes the bytes of the record, if none of the writes is cut short. -/
theorem wp_append_of_pieces {Q : Unit → μ → Disk → Prop} {r : WalRecord}
    (hs : ∀ bs ∈ r.pieces, bs ≠ [] → ¬F.short (.write f bs))
    (hw : Allows W (Growing f r.bytes d)) (h : Q () m (d.modify f (·.append r.bytes))) :
    (append f r.op r.key r.value : Io μ Unit).wp (device F) W Q E m d := by
  have hpre : ∀ {p s bs : Bytes}, p ++ s = r.bytes →
      W.always ⟨.write f bs, m, d.modify f (·.append p)⟩ :=
    fun hps ↦ hw _ _ _ rfl ⟨_, ⟨_, hps⟩, rfl⟩
  simp only [WalRecord.pieces, List.forall_mem_cons] at hs
  obtain ⟨hop, hklen, hkey, hvlen, hvalue, -⟩ := hs
  rw [append, wp_bind, ← Disk.modify_append_nil d f]
  refine wp_fwrite_growing hop (hpre rfl) ?_
  simp only [wstr, wu32, wp_bind]
  refine wp_fwrite_growing hklen (hpre (s := strBytes r.key ++ strBytes r.value) rfl) ?_
  refine wp_fwrite_growing hkey (hpre (s := r.key ++ strBytes r.value) rfl) ?_
  refine wp_fwrite_growing hvlen (hpre (s := strBytes r.value) ?_) ?_
  · simp [WalRecord.bytes, strBytes]
  refine wp_fwrite_growing hvalue (hpre (s := r.value) ?_) ?_
  · simp [WalRecord.bytes, strBytes]
  convert h using 3
  simp [WalRecord.bytes, strBytes]

theorem wp_append {Q : Unit → μ → Disk → Prop} {r : WalRecord} (hs : ∀ bs, ¬F.short (.write f bs))
    (hw : Allows W (Growing f r.bytes d)) (h : Q () m (d.modify f (·.append r.bytes))) :
    (append f r.op r.key r.value : Io μ Unit).wp (device F) W Q E m d :=
  wp_append_of_pieces (fun bs _ _ ↦ hs bs) hw h

/-- `WAL::sync`. -/
theorem wp_sync {Q : Unit → μ → Disk → Prop} (hF : Throwing F) (hw : Allows W (· = d))
    (h : Q () m (d.modify f File.sync)) :
    (sync f : Io μ Unit).wp (device F) W Q E m d := by
  rw [sync, wp_bind, wp_call, wp_flush hF.short_flush]
  refine ⟨hw _ _ _ rfl rfl, fun _ ↦ ?_⟩
  rw [wp_call, Crash.wp_sync (hF.sync _)]
  exact ⟨hw _ _ _ rfl rfl, fun _ ↦ h⟩

/-- `WAL::~WAL`. -/
theorem wp_close {Q : Unit → μ → Disk → Prop} (hF : Throwing F) (hw : Allows W (· = d))
    (h : Q () m d) : (close f : Io μ Unit).wp (device F) W Q E m d := by
  rw [close, wp_bind, wp_call, wp_flush hF.short_flush]
  refine ⟨hw _ _ _ rfl rfl, fun _ ↦ ?_⟩
  rw [wp_call, Crash.wp_close hF.short_close]
  exact ⟨hw _ _ _ rfl rfl, fun _ ↦ h⟩

/-- **`WAL::replay`** hands over the complete records of the segment. -/
theorem wp_replay {Q : Unit → μ → Disk → Prop} {cb : WalRecord → Io μ Unit} {x : File}
    (hs : ¬F.short (.readFile f)) (hr : ¬F.refuse (.readFile f))
    (hw : W.always ⟨.readFile f, m, d⟩) (hd : d[f]? = some x)
    (h : (forM (records x.content) cb : Io μ PUnit).wp (device F) W Q E m d) :
    (replay f cb : Io μ Unit).wp (device F) W Q E m d := by
  rw [replay, wp_bind]
  refine wp_readFile hs hw (fun _ hf ↦ absurd hf hr) fun _ ↦ ?_
  rw [hd]
  exact h

end Rules

/-! ## Everything that is appended -/

/-- Append the records to a segment, and collect what a replay of it hands over. -/
def appendAndReplay (path : Name) (rs : List WalRecord) : Io (List WalRecord) Unit := do
  let f ← WAL.open path
  forM rs fun r ↦ append f r.op r.key r.value
  sync f
  close f
  replay path fun r ↦ modify (· ++ [r])

theorem wp_collect {D : Device (@Reply Mark) Disk} {E : Error → List WalRecord → Disk → Prop}
    {rs m : List WalRecord} {d : Disk} {Q : PUnit → List WalRecord → Disk → Prop}
    (h : Q () (m ++ rs) d) :
    (forM rs fun r ↦ modify (· ++ [r]) : Io (List WalRecord) PUnit).wp D .blind Q E m d := by
  induction rs generalizing m with
  | nil => simpa using h
  | cons r rs ih =>
    rw [List.forM_cons, wp_bind, wp_modify]
    refine ih ?_
    rwa [List.append_assoc, List.singleton_append]

/-- What is collected is what the bytes of the records are parsed as. -/
theorem wp_appendAndReplay {path : Name} {rs : List WalRecord} {d : Disk} (hd : d[path]? = none)
    {Q : Unit → List WalRecord → Disk → Prop}
    (h : ∀ d', Q () (walCodec.all (walCodec.encAll rs)) d') :
    (appendAndReplay path rs).wp reliable .blind Q (fun _ _ _ ↦ False) [] d := by
  have hF : Throwing (.none : Faults Mark) := throwing_none
  have hblind : ∀ P, Allows (.blind : Watch (Call Mark) (List WalRecord) Disk) P :=
    fun _ _ _ _ _ _ ↦ trivial
  rw [appendAndReplay, wp_bind]
  refine wp_open trivial (fun hf ↦ hf.elim) ?_
  rw [wp_bind]
  refine wp_forM (fun left m d' ↦ m = [] ∧ ∃ done, rs = done ++ left ∧
    d'[path]? = some ⟨[], walCodec.encAll done⟩) rs ⟨rfl, [], rfl, ?_⟩ ?_ ?_
  · rw [Disk.getElem?_insertIfNew_self, hd]
    rfl
  · rintro r left m d' - ⟨rfl, done, rfl, hd'⟩
    refine wp_append (fun _ ↦ id) (hblind _) ⟨rfl, done ++ [r], by simp, ?_⟩
    rw [ExtTreeMap.getElem?_modify_self, hd']
    simp [File.append, walCodec]
  · rintro m d' ⟨rfl, done, hdone, hd'⟩
    rw [List.append_nil] at hdone
    subst hdone
    rw [wp_bind]
    refine wp_sync hF (hblind _) ?_
    rw [wp_bind]
    have hread : (d'.modify path File.sync)[path]? = some (.saved (walCodec.encAll rs)) := by
      rw [ExtTreeMap.getElem?_modify_self, hd']
      rfl
    refine wp_close hF (hblind _) (wp_replay (fun hf ↦ hf.elim) (fun hf ↦ hf.elim) trivial hread
      (wp_collect ?_))
    rw [File.content_saved, walRecords_eq]
    exact h _

/-- **When everything that is appended is replayed.**  The records that are appended to a fresh
segment come back, in order and unchanged, if and only if all their strings are short. -/
theorem appendAndReplay_iff {path : Name} {rs : List WalRecord} {d : Disk} (hd : d[path]? = none) :
    (appendAndReplay path rs).Returns reliable [] d (fun _ read _ ↦ read = rs) ↔
      ∀ r ∈ rs, r.IsShort := by
  rw [show (∀ r ∈ rs, r.IsShort) ↔ walCodec.all (walCodec.encAll rs) = rs from
    walCodec.all_encAll_iff.symm]
  constructor
  · intro h
    obtain ⟨_, read, _, hread, hall⟩ := h.exists_ok (device_total _)
      (wp_appendAndReplay (Q := fun _ read _ ↦ read = walCodec.all (walCodec.encAll rs)) hd
        fun _ ↦ rfl)
    rw [← hall, hread]
  · intro h
    refine Prog.returns_of_wp (wp_appendAndReplay hd fun _ ↦ h)

end WAL

end KeyValStore
