import KeyValStore.Manifest.Text
import KeyValStore.Records.Rules

/-!
# Replacing the MANIFEST

`wp_write` follows `Manifest::write` under any faults but that of `fsync`: while it runs, the
directory differs from the one it started in at most at the temporary file, except that a refused
rename makes it remove the MANIFEST (`Replacing`); when it returns, the MANIFEST holds what the
closing flush has kept of the new text (`Kept`).

`allOrNothing_iff` says under which faults that is all or nothing.
-/

set_option autoImplicit false

namespace KeyValStore

open Crash Std

namespace Manifest

/-- The directory once `bs` has become the MANIFEST. -/
def commit (bs : Bytes) (d : Disk) : Disk := (d.erase tmp).insert dest (.saved bs)

/-- What a write of the MANIFEST may have done to the directory before its rename works. -/
def Replacing (F : Faults Mark) (d d' : Disk) : Prop :=
  Disk.AgreeOff tmp d d' ∨ F.refuse (.rename tmp dest) ∧ Disk.AgreeOff tmp (d.erase dest) d'

/-- A write of the MANIFEST may be refused. -/
def Refuses (F : Faults Mark) : Prop :=
  F.refuse (.openTrunc tmp) ∨ (∃ bs, F.short (.write tmp bs)) ∨ F.refuse (.rename tmp dest)

/-- What a refused write throws. -/
def Throws (e : Error) : Prop :=
  e = .manifestTmpOpen ∨ e = .manifestTmpWrite ∨ e = .manifestRename

/-- What the closing flush may keep of a text. -/
def Kept (F : Faults Mark) (bs kept : Bytes) : Prop :=
  kept = bs ∨ F.short (.close tmp) ∧ ∃ k, kept = bs.take k

theorem commit_insert_tmp (bs : Bytes) (d : Disk) (f : File) :
    commit bs (d.insert tmp f) = commit bs d := by
  refine ExtTreeMap.ext_getElem? fun n ↦ ?_
  rw [commit, commit]
  by_cases hd : n = dest
  · rw [hd, ExtTreeMap.getElem?_insert_self, ExtTreeMap.getElem?_insert_self]
  rw [Disk.getElem?_insert_ne hd, Disk.getElem?_insert_ne hd]
  by_cases ht : n = tmp
  · rw [ht, ExtTreeMap.getElem?_erase_self, ExtTreeMap.getElem?_erase_self]
  · rw [Disk.getElem?_erase_ne ht, Disk.getElem?_erase_ne ht, Disk.getElem?_insert_ne ht]

theorem getElem?_commit_sst (bs : Bytes) (d : Disk) (id : ℕ) :
    (commit bs d)[DB.sstPath id]? = d[DB.sstPath id]? := by
  rw [commit, Disk.getElem?_insert_ne (DB.sstPath_ne_dest id),
    Disk.getElem?_erase_ne (DB.sstPath_ne_tmp id)]

theorem commit_erase_dest (bs : Bytes) (d : Disk) : commit bs (d.erase dest) = commit bs d := by
  refine ExtTreeMap.ext_getElem? fun n ↦ ?_
  rw [commit, commit]
  by_cases hd : n = dest
  · rw [hd, ExtTreeMap.getElem?_insert_self, ExtTreeMap.getElem?_insert_self]
  rw [Disk.getElem?_insert_ne hd, Disk.getElem?_insert_ne hd]
  by_cases ht : n = tmp
  · rw [ht, ExtTreeMap.getElem?_erase_self, ExtTreeMap.getElem?_erase_self]
  · rw [Disk.getElem?_erase_ne ht, Disk.getElem?_erase_ne ht, Disk.getElem?_erase_ne hd]

section Write

variable {F : Faults Mark} {μ : Type} {W : Watch (Call Mark) μ Disk} {E : Error → μ → Disk → Prop}
  {m : μ} {d : Disk}

theorem wp_insertAll {ps : List Bytes} {p : Bytes} {Q : Bool → μ → Disk → Prop}
    (hw : Allows W (Disk.AgreeOff tmp d))
    (hok : Q true m (d.insert tmp ⟨[], p ++ ps.flatten⟩))
    (hbad : ∀ p' bs, F.short (.write tmp bs) → Q false m (d.insert tmp ⟨[], p'⟩)) :
    (insertAll tmp ps : Io μ Bool).wp (device F) W Q E m (d.insert tmp ⟨[], p⟩) := by
  induction ps generalizing p with
  | nil => simpa [insertAll] using hok
  | cons q ps ih =>
    rw [insertAll, wp_bind]
    refine wp_write_short (hw _ _ _ rfl (Disk.agreeOff_insert d tmp _)) ?_ fun r hr hF ↦ ?_
    · rw [wp_ite, if_neg (lt_irrefl _), Disk.modify_insert]
      refine ih ?_
      simpa using hok
    · rw [wp_ite, if_pos hr, Disk.modify_insert]
      exact hbad _ q hF

/-- The rename of a temporary file that holds `kept`, in a directory that is `d` but for the
temporary file and perhaps the MANIFEST. -/
theorem wp_rename {d₀ : Disk} {kept : Bytes} {Q : Bool → μ → Disk → Prop}
    (hd₀ : commit kept d₀ = commit kept d)
    (hw : W.always ⟨.rename tmp dest, m, d₀.insert tmp (.saved kept)⟩)
    (hrefuse : F.refuse (.rename tmp dest) → Q false m (d₀.insert tmp (.saved kept)))
    (hok : Q true m (commit kept d)) :
    (rename tmp dest : Io μ Bool).wp (device F) W Q E m (d₀.insert tmp (.saved kept)) := by
  refine wp_rename_refuse ExtTreeMap.getElem?_insert_self hw hrefuse ?_
  rw [← hd₀, ← commit_insert_tmp kept d₀ (.saved kept)] at hok
  exact hok

/-- Syncing the temporary file and renaming it, with the second attempt for a rename that is
refused. -/
theorem wp_renameOver {kept : Bytes} {Q : Unit → μ → Disk → Prop}
    (hsync : ¬F.refuse (.sync tmp)) (hw : Allows W (Replacing F d))
    (hrename : ∀ d', Replacing F d d' → d'[tmp]? = some (.saved kept) →
      W.always ⟨.rename tmp dest, m, d'⟩)
    (hdiscard : ∀ d', F.refuse (.rename tmp dest) → Replacing F d d' →
      W.always ⟨.remove dest, m, d'⟩)
    (hthrew : ∀ d', F.refuse (.rename tmp dest) → Replacing F d d' → E .manifestRename m d')
    (hok : Q () m (commit kept d)) :
    (do
      call (.sync tmp)
      if !(← rename tmp dest) then
        call (.remove dest)
        if !(← rename tmp dest) then Prog.throw .manifestRename : Io μ Unit).wp (device F) W Q E m
      (d.insert tmp ⟨[], kept⟩) := by
  have hins : ∀ f, Replacing F d (d.insert tmp f) := fun f ↦ .inl (Disk.agreeOff_insert d tmp f)
  have hagain : ∀ d₀, F.refuse (.rename tmp dest) → commit kept d₀ = commit kept d →
      Replacing F d (d₀.insert tmp (.saved kept)) →
      (do if !(← rename tmp dest) then Prog.throw .manifestRename : Io μ Unit).wp (device F) W Q E m
        (d₀.insert tmp (.saved kept)) := by
    intro d₀ hf hd₀ hrep
    rw [wp_bind]
    exact wp_rename hd₀ (hrename _ hrep ExtTreeMap.getElem?_insert_self)
      (fun _ ↦ hthrew _ hf hrep) hok
  rw [wp_bind, wp_call, wp_sync hsync]
  refine ⟨hw _ _ _ rfl (hins _), fun _ ↦ ?_⟩
  rw [Disk.modify_insert, wp_bind]
  refine wp_rename rfl (hrename _ (hins _) ExtTreeMap.getElem?_insert_self) (fun hf ↦ ?_) hok
  simp only [Bool.not_false, if_true]
  rw [wp_bind, wp_call]
  refine wp_remove_refuse (hdiscard _ hf (hins _)) (fun _ ↦ hagain d hf rfl (hins _)) ?_
  rw [Disk.erase_insert_ne (Ne.symm dest_ne_tmp)]
  exact hagain _ hf (commit_erase_dest kept d) (.inr ⟨hf, Disk.agreeOff_insert _ _ _⟩)

/-- **What `Manifest::write` does**, as long as `fsync` works. -/
theorem wp_write {data : ManifestData} {Q : Unit → μ → Disk → Prop}
    (hsync : ¬F.refuse (.sync tmp)) (hw : Allows W (Replacing F d))
    (hrename : ∀ kept d', Kept F (text data) kept → Replacing F d d' →
      d'[tmp]? = some (.saved kept) → W.always ⟨.rename tmp dest, m, d'⟩)
    (hdiscard : ∀ d', F.refuse (.rename tmp dest) → Replacing F d d' →
      W.always ⟨.remove dest, m, d'⟩)
    (hthrew : ∀ e d', Throws e → Refuses F → Replacing F d d' → E e m d')
    (hok : ∀ kept, Kept F (text data) kept → Q () m (commit kept d)) :
    (write data : Io μ Unit).wp (device F) W Q E m d := by
  have hoff : Allows W (Disk.AgreeOff tmp d) := hw.mono fun _ ↦ .inl
  have hins : ∀ f, Replacing F d (d.insert tmp f) := fun f ↦ .inl (Disk.agreeOff_insert d tmp f)
  rw [write, wp_bind]
  refine wp_openTrunc (hoff _ _ _ rfl (.refl _ _)) (fun hf ↦ ?_) fun _ ↦ ?_
  · exact hthrew _ _ (.inl rfl) (.inl hf) (.inl (.refl _ _))
  simp only [Bool.not_true, Bool.false_eq_true, if_false]
  rw [wp_bind]
  refine wp_insertAll hoff ?_ fun p' bs hbs ↦ ?_
  · rw [List.nil_append, wp_bind, wp_call]
    have hrest := fun kept hkept ↦ wp_renameOver (Q := Q) hsync hw
      (fun d' hd' hk ↦ hrename kept d' hkept hd' hk) hdiscard
      (fun d' hf ↦ hthrew _ d' (.inr (.inr rfl)) (.inr (.inr hf))) (hok kept hkept)
    refine wp_close_short (hw _ _ _ rfl (hins _)) (hrest _ (.inl rfl)) fun k hk ↦ ?_
    rw [Disk.modify_insert]
    exact hrest _ (.inr ⟨hk, k, rfl⟩)
  · rw [wp_bind, wp_call]
    have hthrow : ∀ f, E .manifestTmpWrite m (d.insert tmp f) := fun f ↦
      hthrew _ _ (.inr (.inl rfl)) (.inr (.inl ⟨bs, hbs⟩)) (hins f)
    refine wp_close_short (hw _ _ _ rfl (hins _)) (hthrow _) fun k hk ↦ ?_
    rw [Disk.modify_insert]
    exact hthrow _

end Write

/-! ## All or nothing -/

/-- The MANIFEST is there, and is read as `data`. -/
def Reads (data : ManifestData) (d : Disk) : Prop :=
  dest ∈ d ∧ (read : Io Unit ManifestData).Returns reliable () d fun r _ _ ↦ r = data

/-- **All or nothing**: the new data after a return, the old data after an exception, and one of the
two when the process dies; now and after a crash. -/
def AllOrNothing {μ : Type} (old new : ManifestData) : Outcome μ Error Unit Disk → Prop
  | .ok _ _ d => ∀ d', d' = d ∨ d.Crashed d' → Reads new d'
  | .threw _ _ d => ∀ d', d' = d ∨ d.Crashed d' → Reads old d'
  | .cut d => ∀ d', d.Crashed d' → Reads old d' ∨ Reads new d'

theorem wp_read {d : Disk} {bs : Bytes} (hd : d[dest]? = some (.saved bs))
    {Q : ManifestData → Unit → Disk → Prop} {E : Error → Unit → Disk → Prop}
    (hok : ∀ data, parse bs = .ok data → Q data () d)
    (hthrew : ∀ e, parse bs = .error e → E e () d) :
    (read : Io Unit ManifestData).wp reliable .blind Q E () d := by
  rw [read, wp_bind]
  refine wp_readFile (fun hf ↦ hf.elim) trivial (fun _ hf ↦ hf.elim) fun _ ↦ ?_
  rw [hd, Option.map_some, File.content_saved]
  exact (wp_ofExcept _).2 ⟨hok, hthrew⟩

theorem reads_of_saved {data : ManifestData} (h : Writable data) {d d' : Disk}
    (hd : d[dest]? = some (.saved (text data))) (hd' : d' = d ∨ d.Crashed d') : Reads data d' := by
  have hget : d'[dest]? = some (.saved (text data)) := by
    rcases hd' with rfl | hc
    · exact hd
    · exact hc.get_saved hd
  have hmem : dest ∈ d' := by
    rw [ExtTreeMap.mem_iff_isSome_getElem?, hget]
    rfl
  refine ⟨hmem, Prog.returns_of_wp (wp_read hget ?_ ?_)⟩
  · rintro data' h'
    rw [parse_text h] at h'
    exact (Except.ok.inj h').symm
  · intro e h'
    rw [parse_text h] at h'
    cases h'

theorem commit_dest (bs : Bytes) (d : Disk) : (commit bs d)[dest]? = some (.saved bs) :=
  ExtTreeMap.getElem?_insert_self

section AllOrNothing

variable {F : Faults Mark} {μ : Type} {m : μ} {d : Disk}

theorem exec_insertAll (ps : List Bytes) (p : Bytes) : ∃ tr,
    Exec (device F) (insertAll tmp ps : Io μ Bool) m (d.insert tmp ⟨[], p⟩) tr
      (.ok true m (d.insert tmp ⟨[], p ++ ps.flatten⟩)) := by
  induction ps generalizing p with
  | nil =>
    rw [List.flatten_nil, List.append_nil]
    exact ⟨[], .pure⟩
  | cons q ps ih =>
    obtain ⟨tr, h⟩ := ih (p ++ q)
    refine ⟨_ ++ tr, Exec.bind (Exec.issue (.inl ⟨rfl, rfl⟩)) ?_⟩
    rw [if_neg (lt_irrefl _), Disk.modify_insert]
    simpa [File.append] using h

/-- A run of a write in which the closing flush keeps `kept` and the `fsync` is followed by a given
run of what is left of the program. -/
theorem exec_write (data : ManifestData) (kept : Bytes) (hkept : Kept F (text data) kept)
    {tr : List (Event (Call Mark) μ Disk)} {o : Outcome μ Error Unit Disk}
    (h : Exec (device F) (do
      if !(← rename tmp dest) then
        call (.remove dest)
        if !(← rename tmp dest) then Prog.throw .manifestRename : Io μ Unit) m
      (d.insert tmp (.saved kept)) tr o) :
    ∃ tr, Exec (device F) (write data : Io μ Unit) m d tr o := by
  obtain ⟨tr₁, hins⟩ := exec_insertAll (F := F) (m := m) (d := d) (pieces data) []
  have hclose : ∃ tr, Exec (device F) (call (.close tmp) : Io μ Unit) m
      (d.insert tmp ⟨[], text data⟩) tr (.ok () m (d.insert tmp ⟨[], kept⟩)) := by
    rcases hkept with rfl | ⟨hF, k, rfl⟩
    · exact ⟨_, exec_call (.inl ⟨rfl, rfl⟩)⟩
    · refine ⟨_, exec_call (r := false) (.inr ⟨hF, rfl, k, ?_⟩)⟩
      rw [Disk.modify_insert]
      rfl
  obtain ⟨tr₂, hclose⟩ := hclose
  have hsync : Exec (device F) (call (.sync tmp) : Io μ Unit) m (d.insert tmp ⟨[], kept⟩)
      [⟨.sync tmp, m, d.insert tmp ⟨[], kept⟩⟩] (.ok () m (d.insert tmp (.saved kept))) := by
    refine exec_call (r := true) (.inl ⟨rfl, ?_⟩)
    rw [Disk.modify_insert]
    rfl
  exact ⟨_, Exec.bind (Exec.issue (.inl ⟨rfl, rfl⟩)) (Exec.bind hins (Exec.bind hclose
    (Exec.bind hsync h)))⟩

/-- A closing flush that keeps only eleven bytes leaves a MANIFEST that cannot be read. -/
theorem not_allOrNothing_of_short (old new : ManifestData) (hF : F.short (.close tmp)) :
    ∃ tr o, Exec (device F) (write new : Io μ Unit) m d tr o ∧ ¬AllOrNothing old new o := by
  have hrename : Exec (device F) (rename tmp dest : Io μ Bool) m
      (d.insert tmp (.saved ((text new).take 11)))
      [⟨.rename tmp dest, m, d.insert tmp (.saved ((text new).take 11))⟩]
      (.ok true m (commit ((text new).take 11) d)) := by
    rw [← commit_insert_tmp _ d (.saved ((text new).take 11))]
    refine Exec.issue (.inl ?_)
    simp [Call.perform, commit]
  obtain ⟨tr, hx⟩ := exec_write new _ (.inr ⟨hF, 11, rfl⟩) (Exec.bind hrename .pure)
  have hunreadable : (read : Io Unit ManifestData).wp reliable .blind (fun _ _ _ ↦ False)
      (fun _ _ _ ↦ True) () (commit ((text new).take 11) d) := by
    refine wp_read (commit_dest _ d) (fun data hp ↦ ?_) fun _ _ ↦ trivial
    rw [parse_take_text] at hp
    cases hp
  refine ⟨tr, _, hx, fun h ↦ ?_⟩
  obtain ⟨-, hread⟩ := h _ (.inl rfl)
  obtain ⟨_, _, _, -, hf⟩ := hread.exists_ok (device_total _) hunreadable
  exact hf

/-- A refused rename takes the MANIFEST away before the second attempt. -/
theorem not_allOrNothing_of_refuse (old new : ManifestData) (hF : F.refuse (.rename tmp dest)) :
    ∃ tr o, Exec (device F) (write new : Io μ Unit) m d tr o ∧ ¬AllOrNothing old new o := by
  have hremove : Exec (device F) (call (.remove dest) : Io μ Unit) m
      (d.insert tmp (.saved (text new))) [⟨.remove dest, m, d.insert tmp (.saved (text new))⟩]
      (.ok () m ((d.insert tmp (.saved (text new))).erase dest)) := exec_call (.inl ⟨rfl, rfl⟩)
  obtain ⟨tr, hx⟩ := exec_write new (text new) (.inl rfl)
    (Exec.bind (Exec.issue (.inr ⟨hF, rfl, rfl⟩)) (Exec.bind hremove Exec.issue_cut))
  refine ⟨tr, _, hx, fun h ↦ ?_⟩
  have hnot : dest ∉ ((d.insert tmp (.saved (text new))).erase dest).map fun _ f ↦ f.sync := by
    simp
  rcases h _ (Disk.crashed_sync _) with ⟨hmem, -⟩ | ⟨hmem, -⟩
  · exact hnot hmem
  · exact hnot hmem

/-- **When a write of the MANIFEST is all or nothing**: exactly under the faults that neither let
the flush of the closing stream lose bytes nor refuse the rename over the MANIFEST. -/
theorem allOrNothing_iff (hF : ∀ n, ¬F.refuse (.sync n)) {old new : ManifestData}
    (hold : Writable old) (hnew : Writable new) (hd : d[dest]? = some (.saved (text old))) (m : μ) :
    (∀ tr o, Exec (device F) (write new) m d tr o → AllOrNothing old new o) ↔
      ¬F.short (.close tmp) ∧ ¬F.refuse (.rename tmp dest) := by
  constructor
  · intro h
    refine ⟨fun hf ↦ ?_, fun hf ↦ ?_⟩
    · obtain ⟨tr, o, hx, hno⟩ := not_allOrNothing_of_short old new hf
      exact hno (h tr o hx)
    · obtain ⟨tr, o, hx, hno⟩ := not_allOrNothing_of_refuse old new hf
      exact hno (h tr o hx)
  · rintro ⟨hclose, hrename⟩ tr o hx
    have hreads : ∀ {d' d'' : Disk}, Replacing F d d' → d'' = d' ∨ d'.Crashed d'' →
        Reads old d'' := by
      rintro d' d'' (hoff | ⟨hf, -⟩) hd''
      · exact reads_of_saved hold ((hoff _ dest_ne_tmp).trans hd) hd''
      · exact absurd hf hrename
    have hwp : (write new : Io μ Unit).wp (device F) ⟨fun _ ↦ True, fun ev ↦ Replacing F d ev.disk⟩
        (fun _ _ d' ↦ d' = commit (text new) d) (fun _ _ d' ↦ Replacing F d d') m d := by
      refine wp_write (hF tmp) (fun _ _ _ _ hd' ↦ hd') (fun _ _ _ hd' _ ↦ hd') (fun _ _ hd' ↦ hd')
        (fun _ _ _ _ hd' ↦ hd') ?_
      rintro kept (rfl | ⟨hf, -⟩)
      · rfl
      · exact absurd hf hclose
    obtain ⟨-, ho⟩ := hx.of_wp (fun _ _ ↦ trivial) hwp
    cases o with
    | ok a m' d' =>
      intro d'' hd''
      obtain rfl : d' = _ := ho
      exact reads_of_saved hnew (commit_dest _ d) hd''
    | threw e m' d' => exact fun d'' hd'' ↦ hreads ho hd''
    | cut d' =>
      obtain ⟨c, m', hrep⟩ := ho
      exact fun d'' hd'' ↦ .inl (hreads hrep (.inr hd''))

end AllOrNothing

/-- The directory of a store that has just been opened for the first time. -/
def firstDisk : Disk := (∅ : Disk).insert dest (.saved (text ⟨1, []⟩))

/-- The temporary file can perhaps not be opened, or not be written, and nothing be removed. -/
def fullDevice : Faults Mark :=
  ⟨fun c ↦ c = .openTrunc tmp ∨ ∃ n, c = .remove n, fun c ↦ ∃ bs, c = .write tmp bs⟩

theorem allOrNothing_fullDevice :
    fullDevice.refuse (.openTrunc tmp) ∧ fullDevice.short (.write tmp (ascii "generation ")) ∧
      ∀ tr o, Exec (device fullDevice) (write ⟨2, [DB.sstPath 0]⟩ : Io Unit Unit)
        () firstDisk tr o → AllOrNothing ⟨1, []⟩ ⟨2, [DB.sstPath 0]⟩ o := by
  refine ⟨.inl rfl, ⟨_, rfl⟩, (allOrNothing_iff ?_ (writable_sstPaths (by decide) [])
    (writable_sstPaths (by decide) [0]) ExtTreeMap.getElem?_insert_self ()).2 ⟨?_, ?_⟩⟩
  · rintro n (h | ⟨_, h⟩) <;> cases h
  · rintro ⟨_, h⟩
    cases h
  · rintro (h | ⟨_, h⟩) <;> cases h

/-- The faults of a closing flush that may lose bytes. -/
def lossyClose : Faults Mark := ⟨fun _ ↦ False, fun c ↦ c = .close tmp⟩

/-- A flush that fails when the stream closes is not noticed. -/
theorem not_allOrNothing_lossyClose :
    ¬∀ tr o, Exec (device lossyClose) (write ⟨2, [DB.sstPath 0]⟩ : Io Unit Unit) () firstDisk tr o →
      AllOrNothing ⟨1, []⟩ ⟨2, [DB.sstPath 0]⟩ o := by
  intro h
  obtain ⟨tr, o, hx, hno⟩ := not_allOrNothing_of_short ⟨1, []⟩ ⟨2, [DB.sstPath 0]⟩
    (show lossyClose.short (.close tmp) from rfl)
  exact hno (h tr o hx)

end Manifest

end KeyValStore
