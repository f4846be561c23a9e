import KeyValStore.Records.Codecs
import KeyValStore.Model.Manifest

/-!
# Rules for the calls the code makes

The kind of faults the code is prepared for (`Throwing`): opening a file, reading one and replacing
the MANIFEST can be refused, and only writes to the temporary MANIFEST can be cut short.  The rules
below are for programs under such faults.  While one file is being written, the directory is the one
the writing started in with that file inserted, which is all that a watch gets to see.
-/

set_option autoImplicit false

namespace Crash

open KeyValStore (Mark)

/-- Is the call neither a mark, nor a renaming, nor the removal of the MANIFEST?  These are looked
at one by one. -/
def Call.isPlain : Call Mark → Bool
  | .mark _ => false
  | .rename _ _ => false
  | .remove n => n ≠ KeyValStore.Manifest.dest
  | _ => true

/-- The watch accepts every plain call, as long as the directory is in `P`. -/
def Allows {μ : Type} (W : Watch (Call Mark) μ Disk) (P : Disk → Prop) : Prop :=
  ∀ (c : Call Mark) (m : μ) (d : Disk), c.isPlain = true → P d → W.always ⟨c, m, d⟩

theorem Allows.mono {μ : Type} {W : Watch (Call Mark) μ Disk} {P P' : Disk → Prop}
    (h : Allows W P) (hP : ∀ d, P' d → P d) : Allows W P' :=
  fun c m d hc hd ↦ h c m d hc (hP d hd)

theorem isPlain_remove {n : Name} (h : n ≠ KeyValStore.Manifest.dest) :
    (Call.remove n : Call Mark).isPlain = true :=
  decide_eq_true h

end Crash

namespace KeyValStore

open Crash Std

/-- The calls that go wrong have no effect, and only those fail that the code answers with an
exception: opening a file, reading one, and replacing the MANIFEST. -/
structure Throwing (F : Faults Mark) : Prop where
  /-- Only a write to the temporary MANIFEST can be cut short. -/
  short : ∀ c, F.short c → ∃ bs, c = .write Manifest.tmp bs
  /-- A sync works. -/
  sync : ∀ f, ¬F.refuse (.sync f)
  /-- Of the renames only that of the temporary MANIFEST can fail. -/
  rename : ∀ a b, F.refuse (.rename a b) → a = Manifest.tmp ∧ b = Manifest.dest
  /-- Of the removals only that of the MANIFEST can fail. -/
  remove : ∀ n, F.refuse (.remove n) → n = Manifest.dest

theorem throwing_none : Throwing (.none : Faults Mark) :=
  ⟨fun _ h ↦ h.elim, fun _ ↦ id, fun _ _ h ↦ h.elim, fun _ h ↦ h.elim⟩

section Short

variable {F : Faults Mark} (hF : Throwing F) {f : Name}

include hF

theorem Throwing.short_write (hf : f ≠ Manifest.tmp) (bs : Bytes) : ¬F.short (.write f bs) := by
  intro h
  obtain ⟨bs', h'⟩ := hF.short _ h
  exact hf (Call.write.inj h').1

theorem Throwing.short_flush : ¬F.short (.flush f) := by
  intro h
  obtain ⟨bs, h'⟩ := hF.short _ h
  cases h'

theorem Throwing.short_close : ¬F.short (.close f) := by
  intro h
  obtain ⟨bs, h'⟩ := hF.short _ h
  cases h'

theorem Throwing.short_readFile : ¬F.short (.readFile f) := by
  intro h
  obtain ⟨bs, h'⟩ := hF.short _ h
  cases h'

end Short

section Rules

variable {F : Faults Mark} {μ : Type} {W : Watch (Call Mark) μ Disk} {E : Error → μ → Disk → Prop}
  {m : μ} {d : Disk} {f : Name}

theorem wp_call {c : Call Mark} {Q : Unit → μ → Disk → Prop} :
    (call c : Io μ Unit).wp (device F) W Q E m d ↔
      (Prog.issue c : Io μ _).wp (device F) W (fun _ m d ↦ Q () m d) E m d := by
  rw [call, wp_bind]
  exact Iff.rfl

theorem exec_call {c : Call Mark} {r : Reply c} {d' : Disk} (hs : Crash.Step F c d r d') :
    Exec (device F) (call c : Io μ Unit) m d [⟨c, m, d⟩] (.ok () m d') :=
  Exec.call hs .pure

/-- A removal that works. -/
theorem wp_call_remove {Q : Unit → μ → Disk → Prop} (hr : ¬F.refuse (.remove f))
    (hw : W.always ⟨.remove f, m, d⟩) (h : Q () m (d.erase f)) :
    (call (.remove f) : Io μ Unit).wp (device F) W Q E m d := by
  rw [wp_call, wp_remove hr]
  exact ⟨hw, fun _ ↦ h⟩

/-- `fwrite` at the end of a file that is being written. -/
theorem wp_fwrite {Q : Unit → μ → Disk → Prop} {s p bs : Bytes} (hs : ∀ bs, ¬F.short (.write f bs))
    (hw : Allows W (Disk.AgreeOff f d)) (h : Q () m (d.insert f ⟨s, p ++ bs⟩)) :
    (fwrite f bs : Io μ Unit).wp (device F) W Q E m (d.insert f ⟨s, p⟩) := by
  rw [fwrite, wp_call, wp_write (hs _)]
  refine ⟨hw _ _ _ rfl (Disk.agreeOff_insert d f _), fun _ ↦ ?_⟩
  rw [Disk.modify_insert]
  exact h

theorem wp_wu32 {Q : Unit → μ → Disk → Prop} {s p : Bytes} {n : ℕ}
    (hs : ∀ bs, ¬F.short (.write f bs)) (hw : Allows W (Disk.AgreeOff f d))
    (h : Q () m (d.insert f ⟨s, p ++ Codec.le 4 n⟩)) :
    (wu32 f n : Io μ Unit).wp (device F) W Q E m (d.insert f ⟨s, p⟩) :=
  wp_fwrite hs hw h

theorem wp_wu64 {Q : Unit → μ → Disk → Prop} {s p : Bytes} {n : ℕ}
    (hs : ∀ bs, ¬F.short (.write f bs)) (hw : Allows W (Disk.AgreeOff f d))
    (h : Q () m (d.insert f ⟨s, p ++ Codec.le 8 n⟩)) :
    (wu64 f n : Io μ Unit).wp (device F) W Q E m (d.insert f ⟨s, p⟩) :=
  wp_fwrite hs hw h

theorem wp_wstr {Q : Unit → μ → Disk → Prop} {s p str : Bytes} (hs : ∀ bs, ¬F.short (.write f bs))
    (hw : Allows W (Disk.AgreeOff f d)) (h : Q () m (d.insert f ⟨s, p ++ strBytes str⟩)) :
    (wstr f str : Io μ Unit).wp (device F) W Q E m (d.insert f ⟨s, p⟩) := by
  rw [wstr, wp_bind]
  refine wp_wu32 hs hw (wp_fwrite hs hw ?_)
  rwa [List.append_assoc]

/-- `fflush` and `fclose` change nothing that a reader sees. -/
theorem wp_call_flush {Q : Unit → μ → Disk → Prop} {x : File} (hF : Throwing F)
    (hw : Allows W (Disk.AgreeOff f d)) (h : Q () m (d.insert f x)) :
    (call (.flush f) : Io μ Unit).wp (device F) W Q E m (d.insert f x) := by
  rw [wp_call, wp_flush hF.short_flush]
  exact ⟨hw _ _ _ rfl (Disk.agreeOff_insert d f _), fun _ ↦ h⟩

theorem wp_call_close {Q : Unit → μ → Disk → Prop} {x : File} (hF : Throwing F)
    (hw : Allows W (Disk.AgreeOff f d)) (h : Q () m (d.insert f x)) :
    (call (.close f) : Io μ Unit).wp (device F) W Q E m (d.insert f x) := by
  rw [wp_call, wp_close hF.short_close]
  exact ⟨hw _ _ _ rfl (Disk.agreeOff_insert d f _), fun _ ↦ h⟩

theorem wp_call_sync {Q : Unit → μ → Disk → Prop} {x : File} (hF : Throwing F)
    (hw : Allows W (Disk.AgreeOff f d)) (h : Q () m (d.insert f (.saved x.content))) :
    (call (.sync f) : Io μ Unit).wp (device F) W Q E m (d.insert f x) := by
  rw [wp_call, wp_sync (hF.sync _)]
  refine ⟨hw _ _ _ rfl (Disk.agreeOff_insert d f _), fun _ ↦ ?_⟩
  rw [Disk.modify_insert]
  exact h

theorem wp_tell_insert {Q : ℕ → μ → Disk → Prop} {p : Bytes}
    (hw : Allows W (Disk.AgreeOff f d)) (h : Q p.length m (d.insert f ⟨[], p⟩)) :
    (tell f : Io μ ℕ).wp (device F) W Q E m (d.insert f ⟨[], p⟩) := by
  refine wp_tell.2 ⟨hw _ _ _ rfl (Disk.agreeOff_insert d f _), fun _ ↦ ?_⟩
  rw [ExtTreeMap.getElem?_insert_self]
  exact h

end Rules

end KeyValStore
