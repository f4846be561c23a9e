import KeyValStore.Model.DB

/-!
# Which calls the code makes

Most of what the operations of the store call leaves the object alone, and works on one file.  The
lemmas below say so, for any kind `ok` of calls that includes those on the file.
-/

set_option autoImplicit false

namespace KeyValStore

open Crash Std

/-- The call opens, writes or closes the file. -/
def CallOn (f : Name) : Call Mark → Prop
  | .openTrunc n => n = f
  | .openAppend n => n = f
  | .write n _ => n = f
  | .tell n => n = f
  | .flush n => n = f
  | .sync n => n = f
  | .close n => n = f
  | _ => False

/-- Such a call changes no other file, whatever goes wrong. -/
theorem CallOn.agreeOff {F : Faults Mark} {f : Name} {c : Call Mark} {r : Reply c} {d d' : Disk}
    (hc : CallOn f c) (hs : Crash.Step F c d r d') : Disk.AgreeOff f d d' := by
  cases c with
  | openTrunc n =>
    obtain rfl : n = f := hc
    rcases hs with ⟨-, rfl⟩ | ⟨-, -, rfl⟩
    · exact Disk.agreeOff_insert d n _
    · exact .refl _ _
  | openAppend n =>
    obtain rfl : n = f := hc
    rcases hs with ⟨-, rfl⟩ | ⟨-, -, rfl⟩
    · exact fun n' hn' ↦ Disk.getElem?_insertIfNew_ne hn'
    · exact .refl _ _
  | write n bs =>
    obtain rfl : n = f := hc
    rcases hs with ⟨-, rfl⟩ | ⟨-, -, rfl⟩ <;> exact Disk.agreeOff_modify d n _
  | tell n => exact hs.2 ▸ .refl _ _
  | flush n =>
    obtain rfl : n = f := hc
    rcases hs with ⟨-, rfl⟩ | ⟨-, -, k, rfl⟩
    · exact .refl _ _
    · exact Disk.agreeOff_modify d n _
  | sync n =>
    obtain rfl : n = f := hc
    rcases hs with ⟨-, rfl⟩ | ⟨-, -, rfl⟩
    · exact Disk.agreeOff_modify d n _
    · exact .refl _ _
  | close n =>
    obtain rfl : n = f := hc
    rcases hs with ⟨-, rfl⟩ | ⟨-, -, k, rfl⟩
    · exact .refl _ _
    · exact Disk.agreeOff_modify d n _
  | _ => exact hc.elim

/-- Such a call removes no file. -/
theorem CallOn.ne_none {F : Faults Mark} {f : Name} {c : Call Mark} {r : Reply c} {d d' : Disk}
    (hc : CallOn f c) (hs : Crash.Step F c d r d') (h : d[f]? ≠ none) : d'[f]? ≠ none := by
  have hmodify : ∀ g : File → File, (d.modify f g)[f]? ≠ none := fun g ↦ by
    rw [ExtTreeMap.getElem?_modify_self, ne_eq, Option.map_eq_none_iff]
    exact h
  cases c with
  | openTrunc n =>
    obtain rfl : n = f := hc
    rcases hs with ⟨-, rfl⟩ | ⟨-, -, rfl⟩
    · rw [ExtTreeMap.getElem?_insert_self]
      exact Option.some_ne_none _
    · exact h
  | openAppend n =>
    obtain rfl : n = f := hc
    rcases hs with ⟨-, rfl⟩ | ⟨-, -, rfl⟩
    · rw [Disk.getElem?_insertIfNew_self]
      exact Option.some_ne_none _
    · exact h
  | write n bs =>
    obtain rfl : n = f := hc
    rcases hs with ⟨-, rfl⟩ | ⟨-, -, rfl⟩ <;> exact hmodify _
  | tell n => exact hs.2 ▸ h
  | flush n =>
    obtain rfl : n = f := hc
    rcases hs with ⟨-, rfl⟩ | ⟨-, -, k, rfl⟩
    · exact h
    · exact hmodify _
  | sync n =>
    obtain rfl : n = f := hc
    rcases hs with ⟨-, rfl⟩ | ⟨-, -, rfl⟩
    · exact hmodify _
    · exact h
  | close n =>
    obtain rfl : n = f := hc
    rcases hs with ⟨-, rfl⟩ | ⟨-, -, k, rfl⟩
    · exact h
    · exact hmodify _
  | _ => exact hc.elim

section Silent

variable {μ : Type} {f : Name} {ok : Call Mark → Prop}

theorem silent_call {c : Call Mark} (h : ok c) : (call c : Io μ Unit).Silent ok :=
  (silent_issue h).bind fun _ ↦ silent_pure ()

theorem makes_call {c : Call Mark} (h : ok c) : (call c : Io μ Unit).Makes ok :=
  (silent_call h).makes

theorem makes_modify (f : DB → DB) : (modify f : Io DB Unit).Makes ok := fun _ ↦ trivial

theorem makes_get : (MonadState.get : Io DB DB).Makes ok := fun _ ↦ trivial

theorem makes_ofExcept {α : Type} (x : Except Error α) : (Prog.ofExcept x : Io μ α).Makes ok :=
  (silent_ofExcept x).makes

variable (hf : ∀ c, CallOn f c → ok c)

include hf

theorem silent_fwrite (bs : Bytes) : (fwrite f bs : Io μ Unit).Silent ok :=
  silent_call (hf (.write f bs) rfl)

theorem silent_wstr (s : Bytes) : (wstr f s : Io μ Unit).Silent ok :=
  (silent_fwrite hf _).bind fun _ ↦ silent_fwrite hf _

/-! ## Tables -/

namespace SSTable

theorem silent_writeEntries (es : List (Bytes × MemEntry)) (n : ℕ) (sparse : List IndexPoint) :
    (writeEntries f es n sparse : Io μ _).Silent ok := by
  induction es generalizing n sparse with
  | nil => exact silent_pure sparse
  | cons e es ih =>
    refine Prog.Silent.bind ?_ fun _ ↦ (silent_wstr hf _).bind fun _ ↦
        (silent_fwrite hf _).bind fun _ ↦
      (silent_wstr hf _).bind fun _ ↦ ih _ _
    rw [notePoint]
    split
    · exact (silent_issue (hf (.tell f) rfl)).bind fun _ ↦ silent_pure _
    · exact silent_pure sparse

theorem silent_build (sz : Sizing) (entries : Entries) (hmark : ok (.mark (.build f entries))) :
    (build sz f entries : Io μ Unit).Silent ok := by
  have hentries : (writeEntries f entries.toList 0 [] : Io μ _).Silent ok :=
    silent_writeEntries hf entries.toList 0 []
  refine (silent_call hmark).bind fun _ ↦ (silent_issue (hf (.openTrunc f) rfl)).bind
    fun opened ↦ ?_
  cases opened with
  | false => trivial
  | true =>
    refine hentries.bind fun sparse ↦ (silent_issue (hf (.tell f) rfl)).bind fun _ ↦
      (silent_fwrite hf _).bind fun _ ↦ (silent_fwrite hf _).bind fun _ ↦
      (silent_issue (hf (.tell f) rfl)).bind fun _ ↦ (silent_fwrite hf _).bind fun _ ↦
      (silent_forM fun ip _ ↦ ?_).bind fun _ ↦ (silent_fwrite hf _).bind fun _ ↦
      (silent_fwrite hf _).bind fun _ ↦ (silent_call (hf (.flush f) rfl)).bind fun _ ↦
      (silent_call (hf (.sync f) rfl)).bind fun _ ↦ silent_call (hf (.close f) rfl)
    exact (silent_wstr hf _).bind fun _ ↦ silent_fwrite hf _

omit hf in
theorem silent_open (hread : ok (.readFile f)) : (SSTable.open f : Io μ SSTable).Silent ok := by
  refine (silent_issue hread).bind fun r ↦ ?_
  cases r with
  | none => trivial
  | some bs => exact silent_ofExcept _

omit hf in
theorem silent_scanAll (t : SSTable) (hread : ok (.readFile t.path)) :
    (t.scanAll : Io μ _).Silent ok := by
  refine (silent_issue hread).bind fun r ↦ ?_
  cases r <;> trivial

end SSTable

omit hf in
theorem DB.silent_mergeTables {ts : List SSTable} (hread : ∀ t ∈ ts, ok (.readFile t.path))
    (merged : Entries) : (DB.mergeTables ts merged).Silent ok := by
  induction ts generalizing merged with
  | nil => exact silent_pure merged
  | cons t ts ih =>
    rw [List.forall_mem_cons] at hread
    exact (SSTable.silent_scanAll t hread.1).bind fun es ↦ ih hread.2 _

/-! ## The MANIFEST -/

theorem Manifest.silent_insertAll (ps : List Bytes) :
    (Manifest.insertAll f ps : Io μ Bool).Silent ok := by
  induction ps with
  | nil => exact silent_pure true
  | cons p ps ih =>
    refine (silent_issue (hf (.write f p) rfl)).bind fun n ↦ ?_
    split
    · trivial
    · exact ih

omit hf in
theorem Manifest.silent_write (data : ManifestData) (htmp : ∀ c, CallOn Manifest.tmp c → ok c)
    (hrename : ok (.rename Manifest.tmp Manifest.dest)) (hremove : ok (.remove Manifest.dest)) :
    (Manifest.write data : Io μ Unit).Silent ok := by
  have hagain : (do if !(← rename Manifest.tmp Manifest.dest) then
      Prog.throw .manifestRename : Io μ Unit).Silent ok := by
    refine (silent_issue hrename).bind fun renamed ↦ ?_
    cases renamed <;> trivial
  refine (silent_issue (htmp (.openTrunc Manifest.tmp) rfl)).bind fun opened ↦ ?_
  cases opened with
  | false => trivial
  | true =>
    refine (silent_insertAll htmp _).bind fun good ↦
      (silent_call (htmp (.close Manifest.tmp) rfl)).bind fun _ ↦ ?_
    cases good with
    | false => trivial
    | true =>
      refine (silent_call (htmp (.sync Manifest.tmp) rfl)).bind fun _ ↦
        (silent_issue hrename).bind fun renamed ↦ ?_
      cases renamed with
      | true => trivial
      | false => exact (silent_call hremove).bind fun _ ↦ hagain

omit hf in
theorem DB.makes_updateManifestLocked (htmp : ∀ c, CallOn Manifest.tmp c → ok c)
    (hrename : ok (.rename Manifest.tmp Manifest.dest)) (hremove : ok (.remove Manifest.dest)) :
    updateManifestLocked.Makes ok :=
  (makes_modify _).bind fun _ ↦ makes_get.bind fun _ ↦
  (Manifest.silent_write _ htmp hrename hremove).makes

omit hf in
theorem Manifest.silent_read (hread : ok (.readFile Manifest.dest)) :
    (Manifest.read : Io μ ManifestData).Silent ok := by
  refine (silent_issue hread).bind fun r ↦ ?_
  cases r with
  | none => trivial
  | some bs => exact silent_ofExcept _

/-! ## Segments -/

namespace WAL

theorem silent_append (op : UInt8) (key value : Bytes) :
    (append f op key value : Io μ Unit).Silent ok :=
  (silent_fwrite hf _).bind fun _ ↦ (silent_wstr hf _).bind fun _ ↦ silent_wstr hf _

omit hf

theorem silent_open (hopen : ok (.openAppend f)) : (WAL.open f : Io μ Name).Silent ok := by
  refine (silent_issue hopen).bind fun opened ↦ ?_
  cases opened <;> trivial

theorem silent_sync (hflush : ok (.flush f)) (hsync : ok (.sync f)) :
    (sync f : Io μ Unit).Silent ok :=
  (silent_call hflush).bind fun _ ↦ silent_call hsync

theorem silent_close (hflush : ok (.flush f)) (hclose : ok (.close f)) :
    (close f : Io μ Unit).Silent ok :=
  (silent_call hflush).bind fun _ ↦ silent_call hclose

end WAL

end Silent

end KeyValStore
