import KeyValStore.Wal.Log

/-!
# What a replay delivers

`replay_exact` says what `WAL::replay` hands over for a segment with any bytes in it: the longest
sequence of records whose encodings, as `WAL::append` writes them, the segment starts with.  When a
segment that was appended to is cut off at some byte, these are the records before the cut.
-/

set_option autoImplicit false

namespace KeyValStore

open Crash Std

namespace WAL

/-- Append the records to a segment. -/
def appendAll (f : Name) (rs : List WalRecord) : Io (List WalRecord) Unit :=
  forM rs fun r ↦ append f r.op r.key r.value

/-- Collect what a replay of a segment hands over. -/
def collect (f : Name) : Io (List WalRecord) Unit := replay f fun r ↦ modify (· ++ [r])

/-- The segment has the content. -/
def Reads (d : Disk) (f : Name) (bs : Bytes) : Prop := (d[f]?).map File.content = some bs

theorem returns_appendAll {d : Disk} {f : Name} {bs : Bytes} (hd : Reads d f bs)
    (rs : List WalRecord) (m : List WalRecord) : (appendAll f rs).Returns reliable m d fun _ _ d' ↦
      Reads d' f (bs ++ walCodec.encAll rs) := by
  refine Prog.returns_of_wp (wp_forM (fun left _ d' ↦ ∃ done, rs = done ++ left ∧
    Reads d' f (bs ++ walCodec.encAll done)) rs ⟨[], rfl, ?_⟩ ?_ ?_)
  · simpa using hd
  · rintro r left m d' - ⟨done, rfl, hd'⟩
    refine wp_append (fun _ ↦ id) (fun _ _ _ _ _ ↦ trivial) ⟨done ++ [r], by simp, ?_⟩
    rw [Reads, Option.map_eq_some_iff] at hd'
    obtain ⟨x, hx, hcontent⟩ := hd'
    rw [Reads, ExtTreeMap.getElem?_modify_self, hx, Option.map_some, Option.map_some,
      File.content_append, hcontent]
    simp [walCodec]
  · rintro m d' ⟨done, hdone, hd'⟩
    rw [List.append_nil] at hdone
    exact hdone ▸ hd'

theorem returns_collect {d : Disk} {f : Name} {bs : Bytes} (hd : Reads d f bs)
    (m : List WalRecord) :
    (collect f).Returns reliable m d fun _ read d' ↦ read = m ++ walCodec.all bs ∧ d' = d := by
  rw [Reads, Option.map_eq_some_iff] at hd
  obtain ⟨x, hx, rfl⟩ := hd
  refine Prog.returns_of_wp (wp_replay (fun hf ↦ hf) (fun hf ↦ hf) trivial hx ?_)
  rw [walRecords_eq]
  exact wp_collect ⟨rfl, rfl⟩

/-- **`WAL::replay` is exactly the maximal parse of the segment.**  `append` writes the encodings
one after the other; `replay` of any bytes hands over their longest parse; and of what was appended
and cut off, the records before the cut. -/
theorem replay_exact (f : Name) (bs : Bytes) (d : Disk) (hd : Reads d f bs) :
    (∀ rs, (appendAll f rs).Returns reliable [] d fun _ _ d' ↦
      Reads d' f (bs ++ walCodec.encAll rs)) ∧
    ((collect f).Returns reliable [] d fun _ read d' ↦ walCodec.LongestParse bs read ∧
      (∀ rs, walCodec.LongestParse bs rs → rs = read) ∧ d' = d) ∧
    ∀ (rs : List WalRecord) (n : ℕ), (∀ r ∈ rs, r.IsShort) → bs = (walCodec.encAll rs).take n →
      (collect f).Returns reliable [] d fun _ read _ ↦ read = walCodec.before rs n := by
  refine ⟨fun rs ↦ returns_appendAll hd rs [], ?_, ?_⟩
  · intro tr o hx
    rcases returns_collect hd [] tr o hx with hcut | ⟨a, read, d', rfl, rfl, rfl⟩
    · exact .inl hcut
    · have hlongest := Codec.SelfDelimiting.longestParse_all (C := walCodec) bs
      exact .inr ⟨a, _, _, rfl, hlongest, fun rs hrs ↦ hrs.unique hlongest, rfl⟩
  · rintro rs n hrs rfl tr o hx
    rcases returns_collect hd [] tr o hx with hcut | ⟨a, read, d', rfl, rfl, rfl⟩
    · exact .inl hcut
    · exact .inr ⟨a, _, _, rfl, Codec.SelfDelimiting.all_take_encAll hrs n⟩

theorem replay_exact_torn :
    (∀ rs, (appendAll [119] rs).Returns reliable [] ((∅ : Disk).insert [119] (.saved [0, 1]))
      fun _ _ d' ↦ Reads d' [119] ([0, 1] ++ walCodec.encAll rs)) ∧
    ((collect [119]).Returns reliable [] ((∅ : Disk).insert [119] (.saved [0, 1]))
      fun _ read d' ↦ walCodec.LongestParse [0, 1] read ∧
        (∀ rs, walCodec.LongestParse [0, 1] rs → rs = read) ∧
        d' = (∅ : Disk).insert [119] (.saved [0, 1])) ∧
    ∀ (rs : List WalRecord) (n : ℕ), (∀ r ∈ rs, r.IsShort) → [0, 1] = (walCodec.encAll rs).take n →
      (collect [119]).Returns reliable [] ((∅ : Disk).insert [119] (.saved [0, 1]))
        fun _ read _ ↦ read = walCodec.before rs n :=
  replay_exact [119] [0, 1] ((∅ : Disk).insert [119] (.saved [0, 1])) (by simp [Reads])

end WAL

end KeyValStore
