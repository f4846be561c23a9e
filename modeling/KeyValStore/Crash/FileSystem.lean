import KeyValStore.Crash.Program

/-!
# A directory of files as a device

The device is one directory: a finite map from names to files.  A file knows which of its bytes
have been synced; a crash keeps those and any prefix of the bytes written since, and keeps every
completed creation, rename and removal.

A call may go wrong in two ways, and `Faults` says which calls may: a *refused* call has no effect
and answers that it failed, and a *short* call does part of its work.  `Faults.none` is the
reliable directory, on which every call does what it is asked.  The `mark` call does nothing at
all: it is a point of the program that a property wants to talk about.

Each call has a rule `wp_…` for `Crash.Prog.wp`, so that a proof about a program sees the
directory change by `insert`, `erase` and `modify` only.
-/

set_option autoImplicit false

namespace Crash

open Std

/-- A string of bytes: the content of a file, or a name. -/
abbrev Bytes := List UInt8

/-- The name of a file in the directory. -/
abbrev Name := Bytes

/-! ## Files -/

/-- A file: the bytes that are known to be on the medium, and those written since. -/
structure File where
  /-- The bytes that survive a crash. -/
  synced : Bytes := []
  /-- The bytes written since, of which a crash may lose any tail. -/
  pending : Bytes := []
  deriving DecidableEq, Repr

namespace File

/-- What a reader of the file sees. -/
def content (f : File) : Bytes := f.synced ++ f.pending

/-- Write at the end of the file. -/
def append (f : File) (bs : Bytes) : File := ⟨f.synced, f.pending ++ bs⟩

/-- Make everything that has been written durable. -/
def sync (f : File) : File := ⟨f.content, []⟩

/-- Lose all but the first `k` of the bytes not yet synced. -/
def keep (f : File) (k : ℕ) : File := ⟨f.synced, f.pending.take k⟩

/-- A file all of whose bytes are durable. -/
def saved (bs : Bytes) : File := ⟨bs, []⟩

/-- What may be left of a file after a crash. -/
def Crashed (f f' : File) : Prop := ∃ p, p <+: f.pending ∧ f' = saved (f.synced ++ p)

@[simp] theorem content_append (f : File) (bs : Bytes) :
    (f.append bs).content = f.content ++ bs := by
  simp [content, append]

@[simp] theorem content_saved (bs : Bytes) : (saved bs).content = bs := by
  simp [content, saved]

@[simp] theorem sync_eq_saved (f : File) : f.sync = saved f.content := rfl

@[simp] theorem pending_saved (bs : Bytes) : (saved bs).pending = [] := rfl

@[simp] theorem saved_inj {bs cs : Bytes} : saved bs = saved cs ↔ bs = cs := by
  simp [saved]

theorem crashed_saved_iff {bs : Bytes} {f : File} : (saved bs).Crashed f ↔ f = saved bs := by
  constructor
  · rintro ⟨p, hp, rfl⟩
    rw [pending_saved, List.prefix_nil] at hp
    simp [hp, saved]
  · rintro rfl
    exact ⟨[], List.prefix_rfl, by simp [saved]⟩

theorem Crashed.pending_eq {f f' : File} (h : f.Crashed f') : f'.pending = [] := by
  obtain ⟨p, -, rfl⟩ := h
  rfl

end File

/-! ## The directory -/

/-- A directory, as a finite map from names to files. -/
abbrev Disk := ExtTreeMap Name File compare

namespace Disk

/-- What may be left of a directory after a crash: the same names, and of each file what has been
synced with some prefix of what has not. -/
def Crashed (d d' : Disk) : Prop := ∀ n : Name, Option.Rel File.Crashed d[n]? d'[n]?

/-- Nothing in the directory is waiting to be synced. -/
def Settled (d : Disk) : Prop := ∀ (n : Name) (f : File), d[n]? = some f → f.pending = []

theorem Crashed.settled {d d' : Disk} (h : d.Crashed d') : d'.Settled := by
  intro n f hf
  have hr := h n
  rw [hf] at hr
  generalize d[n]? = x at hr
  cases hr with
  | some hc => exact hc.pending_eq

theorem Crashed.get_none {d d' : Disk} (h : d.Crashed d') {n : Name} (hn : d[n]? = none) :
    d'[n]? = none := by
  have hr := h n
  rw [hn] at hr
  generalize d'[n]? = x at hr
  cases hr
  rfl

theorem Crashed.get_some {d d' : Disk} (h : d.Crashed d') {n : Name} {f : File}
    (hn : d[n]? = some f) : ∃ f', d'[n]? = some f' ∧ f.Crashed f' := by
  have hr := h n
  rw [hn] at hr
  generalize d'[n]? = x at hr
  cases hr with
  | some hc => exact ⟨_, rfl, hc⟩

theorem Crashed.get_saved {d d' : Disk} (h : d.Crashed d') {n : Name} {bs : Bytes}
    (hn : d[n]? = some (.saved bs)) : d'[n]? = some (.saved bs) := by
  obtain ⟨f', hf', hc⟩ := h.get_some hn
  rw [hf', File.crashed_saved_iff.1 hc]

/-- A crash leaves no file that was not there. -/
theorem Crashed.get_of_some {d d' : Disk} (h : d.Crashed d') {n : Name} {f' : File}
    (hn : d'[n]? = some f') : ∃ f, d[n]? = some f ∧ f.Crashed f' := by
  cases hd : d[n]? with
  | none => simp [h.get_none hd] at hn
  | some f =>
    obtain ⟨f'', hf'', hc⟩ := h.get_some hd
    rw [hn, Option.some_inj] at hf''
    exact ⟨f, rfl, hf'' ▸ hc⟩

theorem Crashed.mem_iff {d d' : Disk} (h : d.Crashed d') (n : Name) : n ∈ d' ↔ n ∈ d := by
  rw [ExtTreeMap.mem_iff_isSome_getElem?, ExtTreeMap.mem_iff_isSome_getElem?]
  have hr := h n
  generalize d[n]? = x, d'[n]? = y at hr
  cases hr <;> simp

/-- A settled directory survives a crash as it is. -/
theorem Settled.crashed_iff {d d' : Disk} (hd : d.Settled) : d.Crashed d' ↔ d' = d := by
  have hsaved : ∀ f : File, f.pending = [] → f = .saved f.synced := fun f hf ↦ by
    rw [File.saved, ← hf]
  constructor
  · intro h
    refine ExtTreeMap.ext_getElem? fun n ↦ ?_
    cases hn : d[n]? with
    | none => exact h.get_none hn
    | some f =>
      have hf := hsaved f (hd n f hn)
      rw [hf] at hn ⊢
      exact h.get_saved hn
  · rintro rfl n
    cases hn : d'[n]? with
    | none => exact .none
    | some f =>
      refine .some ?_
      rw [hsaved f (hd n f hn), File.crashed_saved_iff]

/-- Everything that has been written may survive. -/
theorem crashed_sync (d : Disk) : d.Crashed (d.map fun _ f ↦ f.sync) := by
  intro n
  rw [ExtTreeMap.getElem?_map]
  cases d[n]? with
  | none => exact .none
  | some f => exact .some ⟨f.pending, List.prefix_rfl, rfl⟩

/-- Two directories agree on every name but `n`. -/
def AgreeOff (n : Name) (d d' : Disk) : Prop := ∀ n' : Name, n' ≠ n → d'[n']? = d[n']?

theorem AgreeOff.refl (n : Name) (d : Disk) : AgreeOff n d d := fun _ _ ↦ rfl

theorem AgreeOff.trans {n : Name} {d d' d'' : Disk} (h : AgreeOff n d d') (h' : AgreeOff n d' d'') :
    AgreeOff n d d'' := fun n' hn ↦ (h' n' hn).trans (h n' hn)

/-- Two directories agree on every name outside `J`. -/
def AgreeBut (J : Name → Prop) (d d' : Disk) : Prop := ∀ n : Name, ¬J n → d'[n]? = d[n]?

theorem AgreeBut.refl (J : Name → Prop) (d : Disk) : AgreeBut J d d := fun _ _ ↦ rfl

theorem AgreeBut.trans {J : Name → Prop} {d d' d'' : Disk} (h : AgreeBut J d d')
    (h' : AgreeBut J d' d'') : AgreeBut J d d'' := fun n hn ↦ (h' n hn).trans (h n hn)

theorem AgreeOff.agreeBut {J : Name → Prop} {n : Name} {d d' : Disk} (h : AgreeOff n d d')
    (hn : J n) : AgreeBut J d d' := fun n' hn' ↦ h n' fun heq ↦ hn' (heq ▸ hn)

theorem getElem?_insert_ne {d : Disk} {n n' : Name} {f : File} (h : n' ≠ n) :
    (d.insert n f)[n']? = d[n']? := by
  rw [ExtTreeMap.getElem?_insert, if_neg]
  exact fun hc ↦ h (LawfulEqCmp.eq_of_compare hc).symm

theorem getElem?_erase_ne {d : Disk} {n n' : Name} (h : n' ≠ n) : (d.erase n)[n']? = d[n']? := by
  rw [ExtTreeMap.getElem?_erase, if_neg]
  exact fun hc ↦ h (LawfulEqCmp.eq_of_compare hc).symm

theorem getElem?_modify_ne {d : Disk} {n n' : Name} {f : File → File} (h : n' ≠ n) :
    (d.modify n f)[n']? = d[n']? := by
  rw [ExtTreeMap.getElem?_modify, if_neg]
  exact fun hc ↦ h (LawfulEqCmp.eq_of_compare hc).symm

theorem getElem?_insertIfNew_ne {d : Disk} {n n' : Name} {f : File} (h : n' ≠ n) :
    (d.insertIfNew n f)[n']? = d[n']? := by
  rw [ExtTreeMap.getElem?_insertIfNew, if_neg]
  exact fun hc ↦ h (LawfulEqCmp.eq_of_compare hc.1).symm

theorem getElem?_insertIfNew_self (d : Disk) (n : Name) (f : File) :
    (d.insertIfNew n f)[n]? = some ((d[n]?).getD f) := by
  rw [ExtTreeMap.getElem?_insertIfNew]
  cases h : d[n]? with
  | none =>
    have hn : n ∉ d := by simpa using h
    simp [hn]
  | some f' =>
    have hn : n ∈ d := by
      rw [ExtTreeMap.mem_iff_isSome_getElem?, h]
      rfl
    simp [hn]

theorem insertIfNew_eq_self {d : Disk} {n : Name} {f : File} (h : d[n]? = some f) (g : File) :
    d.insertIfNew n g = d := by
  refine ExtTreeMap.ext_getElem? fun n' ↦ ?_
  by_cases hn : n' = n
  · rw [hn, getElem?_insertIfNew_self, h, Option.getD_some]
  · rw [getElem?_insertIfNew_ne hn]

theorem agreeOff_insert (d : Disk) (n : Name) (f : File) : AgreeOff n d (d.insert n f) :=
  fun _ h ↦ getElem?_insert_ne h

theorem agreeOff_erase (d : Disk) (n : Name) : AgreeOff n d (d.erase n) :=
  fun _ h ↦ getElem?_erase_ne h

theorem agreeOff_modify (d : Disk) (n : Name) (f : File → File) : AgreeOff n d (d.modify n f) :=
  fun _ h ↦ getElem?_modify_ne h

theorem AgreeOff.insert {n : Name} {d d' : Disk} (h : AgreeOff n d d') (n' : Name) (f : File) :
    AgreeOff n (d.insert n' f) (d'.insert n' f) := fun k hk ↦ by
  rw [ExtTreeMap.getElem?_insert, ExtTreeMap.getElem?_insert, h k hk]

theorem AgreeOff.erase {n : Name} {d d' : Disk} (h : AgreeOff n d d') (n' : Name) :
    AgreeOff n (d.erase n') (d'.erase n') := fun k hk ↦ by
  rw [ExtTreeMap.getElem?_erase, ExtTreeMap.getElem?_erase, h k hk]

theorem AgreeOff.insertIfNew {n n' : Name} {d d' : Disk} (h : AgreeOff n d d')
    (hn : n' ≠ n) (f : File) : AgreeOff n (d.insertIfNew n' f)
    (d'.insertIfNew n' f) := fun k hk ↦ by
  by_cases hkn : k = n'
  · rw [hkn, getElem?_insertIfNew_self, getElem?_insertIfNew_self, h n' hn]
  · rw [getElem?_insertIfNew_ne hkn, getElem?_insertIfNew_ne hkn, h k hk]

/-- A directory that agrees with `d` off `n` and holds `f` there is `d.insert n f`. -/
theorem AgreeOff.eq_insert {n : Name} {d d' : Disk} (h : AgreeOff n d d') {f : File}
    (hf : d'[n]? = some f) : d' = d.insert n f := by
  refine ExtTreeMap.ext_getElem? fun n' ↦ ?_
  by_cases hn : n' = n
  · rw [hn, hf, ExtTreeMap.getElem?_insert_self]
  · rw [h n' hn, getElem?_insert_ne hn]

theorem modify_insert (d : Disk) (n : Name) (f : File) (g : File → File) :
    (d.insert n f).modify n g = d.insert n (g f) := by
  refine (AgreeOff.trans (agreeOff_insert d n f) (agreeOff_modify _ n g)).eq_insert ?_
  rw [ExtTreeMap.getElem?_modify, if_pos ReflCmp.compare_self, ExtTreeMap.getElem?_insert_self]
  rfl

theorem modify_modify (d : Disk) (n : Name) (f g : File → File) :
    (d.modify n f).modify n g = d.modify n fun x ↦ g (f x) := by
  refine ExtTreeMap.ext_getElem? fun n' ↦ ?_
  by_cases h : n' = n
  · rw [h, ExtTreeMap.getElem?_modify_self, ExtTreeMap.getElem?_modify_self,
      ExtTreeMap.getElem?_modify_self, Option.map_map]
    rfl
  · rw [getElem?_modify_ne h, getElem?_modify_ne h, getElem?_modify_ne h]

theorem modify_append_nil (d : Disk) (n : Name) : d.modify n (·.append []) = d := by
  refine ExtTreeMap.ext_getElem? fun n' ↦ ?_
  by_cases h : n' = n
  · rw [h, ExtTreeMap.getElem?_modify_self]
    simp [File.append]
  · rw [getElem?_modify_ne h]

theorem erase_insert_ne {d : Disk} {n n' : Name} {f : File} (h : n ≠ n') :
    (d.insert n f).erase n' = (d.erase n').insert n f := by
  refine ExtTreeMap.ext_getElem? fun k ↦ ?_
  by_cases hk : k = n'
  · subst hk
    rw [ExtTreeMap.getElem?_erase_self, getElem?_insert_ne (Ne.symm h),
      ExtTreeMap.getElem?_erase_self]
  rw [getElem?_erase_ne hk]
  by_cases hn : k = n
  · rw [hn, ExtTreeMap.getElem?_insert_self, ExtTreeMap.getElem?_insert_self]
  · rw [getElem?_insert_ne hn, getElem?_insert_ne hn, getElem?_erase_ne hk]

end Disk

/-! ## The calls -/

/-- The calls a program can make.  `Mark` is the type of the points it can announce. -/
inductive Call (Mark : Type)
  | mark (m : Mark)
  | fileExists (n : Name)
  | listDir
  | readFile (n : Name)
  | openTrunc (n : Name)
  | openAppend (n : Name)
  | write (n : Name) (bs : Bytes)
  | tell (n : Name)
  | flush (n : Name)
  | sync (n : Name)
  | close (n : Name)
  | rename (old new : Name)
  | remove (n : Name)

/-- The answers: the content of a file, the number of bytes written, whether a call succeeded. -/
abbrev Reply {Mark : Type} : Call Mark → Type
  | .mark _ => Unit
  | .fileExists _ => Bool
  | .listDir => List Name
  | .readFile _ => Option Bytes
  | .openTrunc _ => Bool
  | .openAppend _ => Bool
  | .write _ _ => ℕ
  | .tell _ => ℕ
  | .flush _ => Bool
  | .sync _ => Bool
  | .close _ => Bool
  | .rename _ _ => Bool
  | .remove _ => Bool

variable {Mark : Type}

/-- The calls that may go wrong. -/
structure Faults (Mark : Type) where
  /-- The call may fail and leave everything as it was. -/
  refuse : Call Mark → Prop
  /-- The call may do part of its work: a read or a write may be cut short, and a flush may lose
  bytes that had been accepted. -/
  short : Call Mark → Prop

/-- No call goes wrong. -/
def Faults.none : Faults Mark := ⟨fun _ ↦ False, fun _ ↦ False⟩

/-- What a call that goes well answers, and what it leaves.  A directory is listed in the order of
its names. -/
def Call.perform : (c : Call Mark) → Disk → Reply c × Disk
  | .mark _, d => ((), d)
  | .fileExists n, d => (d.contains n, d)
  | .listDir, d => (d.keys, d)
  | .readFile n, d => ((d[n]?).map File.content, d)
  | .openTrunc n, d => (true, d.insert n {})
  | .openAppend n, d => (true, d.insertIfNew n {})
  | .write n bs, d => (bs.length, d.modify n (·.append bs))
  | .tell n, d => (((d[n]?).map fun f ↦ f.content.length).getD (0 : ℕ), d)
  | .flush _, d => (true, d)
  | .sync n, d => (true, d.modify n File.sync)
  | .close _, d => (true, d)
  | .rename old new, d =>
    match d[old]? with
    | some f => (true, (d.erase old).insert new f)
    | .none => (false, d)
  | .remove n, d => (d.contains n, d.erase n)

/-- What a call may answer and leave.  The order in which a directory is listed is anything. -/
def Step (F : Faults Mark) : (c : Call Mark) → Disk → Reply c → Disk → Prop
  | .listDir, d, r, d' => r.Perm d.keys ∧ d' = d
  | .readFile n, d, r, d' => d' = d ∧ (r = (d[n]?).map File.content ∨
      F.refuse (.readFile n) ∧ r = none ∨
      F.short (.readFile n) ∧ ∃ f bs, d[n]? = some f ∧ bs <+: f.content ∧ r = some bs)
  | .write n bs, d, r, d' => (r = bs.length ∧ d' = d.modify n (·.append bs)) ∨
      F.short (.write n bs) ∧ (r : ℕ) < bs.length ∧ d' = d.modify n (·.append (bs.take r))
  | .openTrunc n, d, r, d' => (r = true ∧ d' = d.insert n {}) ∨
      F.refuse (.openTrunc n) ∧ r = false ∧ d' = d
  | .openAppend n, d, r, d' => (r = true ∧ d' = d.insertIfNew n {}) ∨
      F.refuse (.openAppend n) ∧ r = false ∧ d' = d
  | .flush n, d, r, d' => (r = true ∧ d' = d) ∨
      F.short (.flush n) ∧ r = false ∧ ∃ k, d' = d.modify n (·.keep k)
  | .sync n, d, r, d' => (r = true ∧ d' = d.modify n File.sync) ∨
      F.refuse (.sync n) ∧ r = false ∧ d' = d
  | .close n, d, r, d' => (r = true ∧ d' = d) ∨
      F.short (.close n) ∧ r = false ∧ ∃ k, d' = d.modify n (·.keep k)
  | .rename old new, d, r, d' =>
      (r = (Call.perform (.rename old new : Call Mark) d).1 ∧
        d' = (Call.perform (.rename old new : Call Mark) d).2) ∨
      F.refuse (.rename old new) ∧ r = false ∧ d' = d
  | .remove n, d, r, d' => (r = d.contains n ∧ d' = d.erase n) ∨
      F.refuse (.remove n) ∧ r = false ∧ d' = d
  | c, d, r, d' => r = (c.perform d).1 ∧ d' = (c.perform d).2

/-- The directory as a device. -/
def device (F : Faults Mark) : Device (@Reply Mark) Disk := ⟨Step F, Disk.Crashed⟩

/-- The reliable directory. -/
def reliable : Device (@Reply Mark) Disk := device .none

theorem step_perform (F : Faults Mark) (c : Call Mark) (d : Disk) :
    Step F c d (c.perform d).1 (c.perform d).2 := by
  cases c <;> simp [Step, Call.perform]

/-- The faulty directory can do all that the reliable one can. -/
theorem step_of_none (F : Faults Mark) {c : Call Mark} {d d' : Disk} {r : Reply c}
    (h : Step .none c d r d') : Step F c d r d' := by
  cases c with
  | readFile n =>
    obtain ⟨rfl, rfl | ⟨hf, -⟩ | ⟨hf, -⟩⟩ := h
    · exact ⟨rfl, .inl rfl⟩
    · exact hf.elim
    · exact hf.elim
  | mark => exact h
  | fileExists => exact h
  | listDir => exact h
  | tell => exact h
  | openTrunc => exact .inl (h.resolve_right fun hf ↦ hf.1)
  | openAppend => exact .inl (h.resolve_right fun hf ↦ hf.1)
  | write => exact .inl (h.resolve_right fun hf ↦ hf.1)
  | flush => exact .inl (h.resolve_right fun hf ↦ hf.1)
  | sync => exact .inl (h.resolve_right fun hf ↦ hf.1)
  | close => exact .inl (h.resolve_right fun hf ↦ hf.1)
  | rename => exact .inl (h.resolve_right fun hf ↦ hf.1)
  | remove => exact .inl (h.resolve_right fun hf ↦ hf.1)

theorem device_total (F : Faults Mark) : (device F).Total := fun c d ↦
  ⟨_, _, step_perform F c d⟩

/-- The answer of an opening that has failed; any answer of another call. -/
def Call.Failed : (c : Call Mark) → Reply c → Prop
  | .readFile _, r => r = none
  | .openTrunc _, r => r = false
  | .openAppend _, r => r = false
  | _, _ => True

/-- A directory on which one call always fails. -/
def failing (c₀ : Call Mark) : Device (@Reply Mark) Disk where
  step c d r d' := Step ⟨(· = c₀), fun _ ↦ False⟩ c d r d' ∧ (c = c₀ → c.Failed r)
  crash := Disk.Crashed

theorem failing_total (c₀ : Call Mark) : (failing c₀).Total := by
  intro c d
  have hok : ∀ {c : Call Mark}, (∀ r, c.Failed r) → ∃ r d', (failing c₀).step c d r d' := fun h ↦
    ⟨_, _, step_perform _ _ d, fun _ ↦ h _⟩
  by_cases hc : c = c₀
  · subst hc
    cases c with
    | readFile n => exact ⟨none, d, ⟨rfl, .inr (.inl ⟨rfl, rfl⟩)⟩, fun _ ↦ rfl⟩
    | openTrunc n => exact ⟨false, d, .inr ⟨rfl, rfl, rfl⟩, fun _ ↦ rfl⟩
    | openAppend n => exact ⟨false, d, .inr ⟨rfl, rfl, rfl⟩, fun _ ↦ rfl⟩
    | _ => exact hok fun _ ↦ trivial
  · exact ⟨_, _, step_perform _ c d, fun h ↦ absurd h hc⟩

/-- What happens on it can happen on a directory on which the call may fail. -/
theorem exec_of_failing {c₀ : Call Mark} {μ ε α : Type} {p : Prog Reply μ ε α} {m : μ} {d : Disk}
    {tr : List (Event (Call Mark) μ Disk)} {o : Outcome μ ε α Disk}
    (h : Exec (failing c₀) p m d tr o) : Exec (device ⟨(· = c₀), fun _ ↦ False⟩) p m d tr o :=
  h.mono fun _ _ _ _ ↦ And.left

/-! ## A rule for each call -/

section Rules

variable {F : Faults Mark} {μ ε : Type} {W : Watch (Call Mark) μ Disk}
  {E : ε → μ → Disk → Prop} {m : μ} {d : Disk} {n : Name}

/-- A call that cannot go wrong and has a single answer. -/
theorem wp_perform {c : Call Mark} {Q : Reply c → μ → Disk → Prop}
    (h : ∀ r d', Step F c d r d' → r = (c.perform d).1 ∧ d' = (c.perform d).2) :
    (Prog.issue c : Prog Reply μ ε (Reply c)).wp (device F) W Q E m d ↔ W.always ⟨c, m, d⟩ ∧
      (W.assume ⟨c, m, d⟩ → Q (c.perform d).1 m (c.perform d).2) := by
  rw [wp_issue]
  refine and_congr_right fun _ ↦ imp_congr_right fun _ ↦ ⟨fun hq ↦ hq _ _ (step_perform F c d), ?_⟩
  intro hq r d' hs
  obtain ⟨rfl, rfl⟩ := h r d' hs
  exact hq

theorem wp_mark (p : Mark) {Q : Unit → μ → Disk → Prop} :
    (Prog.issue (.mark p) : Prog Reply μ ε _).wp (device F) W Q E m d ↔
      W.always ⟨.mark p, m, d⟩ ∧ (W.assume ⟨.mark p, m, d⟩ → Q () m d) :=
  wp_perform fun _ _ hs ↦ hs

theorem wp_fileExists {Q : Bool → μ → Disk → Prop} :
    (Prog.issue (.fileExists n) : Prog Reply μ ε _).wp (device F) W Q E m d ↔
      W.always ⟨.fileExists n, m, d⟩ ∧
        (W.assume ⟨.fileExists n, m, d⟩ → Q (d.contains n) m d) :=
  wp_perform fun _ _ hs ↦ hs

theorem wp_tell {Q : ℕ → μ → Disk → Prop} :
    (Prog.issue (.tell n) : Prog Reply μ ε _).wp (device F) W Q E m d ↔
      W.always ⟨.tell n, m, d⟩ ∧ (W.assume ⟨.tell n, m, d⟩ →
        Q (((d[n]?).map fun f ↦ f.content.length).getD 0) m d) :=
  wp_perform fun _ _ hs ↦ hs

theorem wp_listDir {Q : List Name → μ → Disk → Prop} :
    (Prog.issue .listDir : Prog Reply μ ε _).wp (device F) W Q E m d ↔
      W.always ⟨.listDir, m, d⟩ ∧
        (W.assume ⟨.listDir, m, d⟩ → ∀ l : List Name, l.Perm d.keys → Q l m d) := by
  refine wp_issue.trans (and_congr_right fun _ ↦ imp_congr_right fun _ ↦ ⟨?_, ?_⟩)
  · exact fun h l hl ↦ h l d ⟨hl, rfl⟩
  · rintro h r d' ⟨hr, rfl⟩
    exact h r hr

theorem wp_write {bs : Bytes} {Q : ℕ → μ → Disk → Prop} (h : ¬F.short (.write n bs)) :
    (Prog.issue (.write n bs) : Prog Reply μ ε _).wp (device F) W Q E m d ↔
      W.always ⟨.write n bs, m, d⟩ ∧
        (W.assume ⟨.write n bs, m, d⟩ → Q bs.length m (d.modify n (·.append bs))) :=
  wp_perform fun _ _ hs ↦ hs.resolve_right fun hf ↦ h hf.1

/-- A write that may be cut short. -/
theorem wp_write_short {bs : Bytes} {Q : ℕ → μ → Disk → Prop} (hw : W.always ⟨.write n bs, m, d⟩)
    (hok : Q bs.length m (d.modify n (·.append bs)))
    (hshort : ∀ r < bs.length, F.short (.write n bs) → Q r m (d.modify n (·.append (bs.take r)))) :
    (Prog.issue (.write n bs) : Prog Reply μ ε _).wp (device F) W Q E m d := by
  refine ⟨hw, fun _ r d' hs ↦ ?_⟩
  rcases hs with ⟨rfl, rfl⟩ | ⟨hf, hr, rfl⟩
  · exact hok
  · exact hshort r hr hf

theorem wp_flush {Q : Bool → μ → Disk → Prop} (h : ¬F.short (.flush n)) :
    (Prog.issue (.flush n) : Prog Reply μ ε _).wp (device F) W Q E m d ↔
      W.always ⟨.flush n, m, d⟩ ∧ (W.assume ⟨.flush n, m, d⟩ → Q true m d) :=
  wp_perform fun _ _ hs ↦ hs.resolve_right fun hf ↦ h hf.1

theorem wp_sync {Q : Bool → μ → Disk → Prop} (h : ¬F.refuse (.sync n)) :
    (Prog.issue (.sync n) : Prog Reply μ ε _).wp (device F) W Q E m d ↔
      W.always ⟨.sync n, m, d⟩ ∧
        (W.assume ⟨.sync n, m, d⟩ → Q true m (d.modify n File.sync)) :=
  wp_perform fun _ _ hs ↦ hs.resolve_right fun hf ↦ h hf.1

theorem wp_close {Q : Bool → μ → Disk → Prop} (h : ¬F.short (.close n)) :
    (Prog.issue (.close n) : Prog Reply μ ε _).wp (device F) W Q E m d ↔
      W.always ⟨.close n, m, d⟩ ∧ (W.assume ⟨.close n, m, d⟩ → Q true m d) :=
  wp_perform fun _ _ hs ↦ hs.resolve_right fun hf ↦ h hf.1

/-- Closing a file may lose bytes that had been accepted. -/
theorem wp_close_short {Q : Bool → μ → Disk → Prop} (hw : W.always ⟨.close n, m, d⟩)
    (hok : Q true m d) (hshort : ∀ k, F.short (.close n) → Q false m (d.modify n (·.keep k))) :
    (Prog.issue (.close n) : Prog Reply μ ε _).wp (device F) W Q E m d := by
  refine ⟨hw, fun _ r d' hs ↦ ?_⟩
  rcases hs with ⟨rfl, rfl⟩ | ⟨hf, rfl, k, rfl⟩
  · exact hok
  · exact hshort k hf

theorem wp_remove {Q : Bool → μ → Disk → Prop} (h : ¬F.refuse (.remove n)) :
    (Prog.issue (.remove n) : Prog Reply μ ε _).wp (device F) W Q E m d ↔
      W.always ⟨.remove n, m, d⟩ ∧
        (W.assume ⟨.remove n, m, d⟩ → Q (d.contains n) m (d.erase n)) :=
  wp_perform fun _ _ hs ↦ hs.resolve_right fun hf ↦ h hf.1

/-- A removal that may be refused. -/
theorem wp_remove_refuse {Q : Bool → μ → Disk → Prop} (hw : W.always ⟨.remove n, m, d⟩)
    (hrefuse : F.refuse (.remove n) → Q false m d) (hok : Q (d.contains n) m (d.erase n)) :
    (Prog.issue (.remove n) : Prog Reply μ ε _).wp (device F) W Q E m d := by
  refine ⟨hw, fun _ r d' hs ↦ ?_⟩
  rcases hs with ⟨rfl, rfl⟩ | ⟨hf, rfl, rfl⟩
  · exact hok
  · exact hrefuse hf

/-- A renaming that may be refused. -/
theorem wp_rename_refuse {n' : Name} {f : File} {Q : Bool → μ → Disk → Prop}
    (hf : d[n]? = some f) (hw : W.always ⟨.rename n n', m, d⟩)
    (hrefuse : F.refuse (.rename n n') → Q false m d)
    (hok : Q true m ((d.erase n).insert n' f)) :
    (Prog.issue (.rename n n') : Prog Reply μ ε _).wp (device F) W Q E m d := by
  have hp : Call.perform (.rename n n' : Call Mark) d = (true, (d.erase n).insert n' f) := by
    simp [Call.perform, hf]
  refine ⟨hw, fun _ r d' hs ↦ ?_⟩
  rcases hs with ⟨rfl, rfl⟩ | ⟨hr, rfl, rfl⟩
  · rw [hp]
    exact hok
  · exact hrefuse hr

theorem wp_rename {n' : Name} {f : File} {Q : Bool → μ → Disk → Prop}
    (h : ¬F.refuse (.rename n n')) (hf : d[n]? = some f) :
    (Prog.issue (.rename n n') : Prog Reply μ ε _).wp (device F) W Q E m d ↔
      W.always ⟨.rename n n', m, d⟩ ∧
        (W.assume ⟨.rename n n', m, d⟩ → Q true m ((d.erase n).insert n' f)) := by
  have hp : Call.perform (.rename n n' : Call Mark) d = (true, (d.erase n).insert n' f) := by
    simp [Call.perform, hf]
  refine (wp_perform (c := .rename n n') fun _ _ hs ↦ hs.resolve_right fun hf ↦ h hf.1).trans ?_
  rw [hp]

/-- Opening a file can always be refused; where it may not be, `hrefuse` is vacuous. -/
theorem wp_openTrunc {Q : Bool → μ → Disk → Prop} (hw : W.always ⟨.openTrunc n, m, d⟩)
    (hrefuse : F.refuse (.openTrunc n) → Q false m d)
    (hok : W.assume ⟨.openTrunc n, m, d⟩ → Q true m (d.insert n {})) :
    (Prog.issue (.openTrunc n) : Prog Reply μ ε _).wp (device F) W Q E m d := by
  refine ⟨hw, fun hA r d' hs ↦ ?_⟩
  rcases hs with ⟨rfl, rfl⟩ | ⟨hf, rfl, rfl⟩
  · exact hok hA
  · exact hrefuse hf

theorem wp_openAppend {Q : Bool → μ → Disk → Prop} (hw : W.always ⟨.openAppend n, m, d⟩)
    (hrefuse : F.refuse (.openAppend n) → Q false m d)
    (hok : W.assume ⟨.openAppend n, m, d⟩ → Q true m (d.insertIfNew n {})) :
    (Prog.issue (.openAppend n) : Prog Reply μ ε _).wp (device F) W Q E m d := by
  refine ⟨hw, fun hA r d' hs ↦ ?_⟩
  rcases hs with ⟨rfl, rfl⟩ | ⟨hf, rfl, rfl⟩
  · exact hok hA
  · exact hrefuse hf

/-- A read may be refused, but is not cut short. -/
theorem wp_readFile {Q : Option Bytes → μ → Disk → Prop} (hs : ¬F.short (.readFile n))
    (hw : W.always ⟨.readFile n, m, d⟩)
    (hrefuse : W.assume ⟨.readFile n, m, d⟩ → F.refuse (.readFile n) → Q none m d)
    (hok : W.assume ⟨.readFile n, m, d⟩ → Q ((d[n]?).map File.content) m d) :
    (Prog.issue (.readFile n) : Prog Reply μ ε _).wp (device F) W Q E m d := by
  refine ⟨hw, fun hA r d' hr ↦ ?_⟩
  obtain ⟨rfl, rfl | ⟨hf, rfl⟩ | ⟨hf, -⟩⟩ := hr
  · exact hok hA
  · exact hrefuse hA hf
  · exact absurd hf hs

end Rules

end Crash
