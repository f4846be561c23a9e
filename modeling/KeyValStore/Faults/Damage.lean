import KeyValStore.Faults.Reads
import KeyValStore.History.Stats

/-!
# What a get reads

`scanForReads` lists the stretches of a table that the forward scan of `lookup` reads, and
`DB.reads` those that a `get` reads, table by table, until one of them answers.

Nothing else matters: a `get` gives the same answer over files that are changed anywhere else,
whatever the tables are (`wp_getFrom_agreeing`).  In a store that has come about by running the
program they are few (`readsLittle`): sixteen entries of a table that answers, and seventeen of one
that does not, as the scan has to see the first entry of the next block to know that it is past the
key.
-/

set_option autoImplicit false

namespace KeyValStore

open Crash Std
open DB (sstPath tables Stored)

namespace SSTable

/-! ## The stretches that a lookup reads -/

/-- The stretches of the file that `scanFor` reads, one for each turn of the loop: where it starts
and where it ends.  A turn that finds no entry reads all that is left, and finds out that this is
all. -/
def scanForReads (bloomOffset : ℕ) (key : Bytes) (pos : ℕ) (s : Bytes) : List (ℕ × ℕ) :=
  if pos < bloomOffset then
    match _h : readEntry s with
    | none => [(pos, pos + s.length + 1)]
    | some ((k, _, _), t) =>
      (pos, pos + (s.length - t.length)) ::
        if k = key then []
        else if compare k key = .gt then []
        else scanForReads bloomOffset key (pos + (s.length - t.length)) t
  else []
termination_by s.length
decreasing_by exact readEntry_consumes _h

/-- Where the forward scan of `lookup` starts, if there is one. -/
def startsAt (t : SSTable) (key : Bytes) : Option ℕ :=
  if !t.bloom.mayContain key then none
  else if t.index.isEmpty then none
  else (t.seekPoint key).map fun ip ↦ if seekable ip.offset then ip.offset else 0

/-- What `lookup` reads of the file. -/
def reads (t : SSTable) (key bs : Bytes) : List (ℕ × ℕ) :=
  match t.startsAt key with
  | none => []
  | some pos => scanForReads t.bloomOffset key pos (bs.drop pos)

/-- What `lookup` answers from the file. -/
def finds (t : SSTable) (key bs : Bytes) : LookupResult :=
  match t.startsAt key with
  | none => .notFound
  | some pos => scanFor t.bloomOffset key pos (bs.drop pos)

theorem lookup_eq {μ : Type} (t : SSTable) (key : Bytes) : (t.lookup key : Io μ LookupResult) =
    match t.startsAt key with
    | none => pure .notFound
    | some pos => do
      match ← readFile t.path with
      | none => return .notFound
      | some bs => return scanFor t.bloomOffset key pos (bs.drop pos) := by
  rw [lookup, startsAt]
  cases t.bloom.mayContain key with
  | false => rfl
  | true =>
    cases t.index.isEmpty with
    | true => rfl
    | false => cases t.seekPoint key <;> rfl

section Loop

variable {off pos : ℕ} {key s t k v : Bytes} {fl : UInt8}

theorem scanForReads_of_ge (key s : Bytes) (hpos : off ≤ pos) :
    scanForReads off key pos s = [] := by
  rw [scanForReads, if_neg (by omega)]

theorem scanForReads_of_none (hpos : pos < off) (h : readEntry s = none) :
    scanForReads off key pos s = [(pos, pos + s.length + 1)] := by
  rw [scanForReads, if_pos hpos]
  split
  · rfl
  · rename_i hsome
    rw [h] at hsome
    cases hsome

theorem scanForReads_of_some (hpos : pos < off) (h : readEntry s = some ((k, fl, v), t)) :
    scanForReads off key pos s = (pos, pos + (s.length - t.length)) ::
      if k = key then [] else if compare k key = .gt then []
      else scanForReads off key (pos + (s.length - t.length)) t := by
  rw [scanForReads, if_pos hpos]
  split
  · rename_i hnone
    rw [h] at hnone
    cases hnone
  · rename_i hsome
    rw [h, Option.some_inj, Prod.mk.injEq, Prod.mk.injEq, Prod.mk.injEq] at hsome
    obtain ⟨⟨rfl, rfl, rfl⟩, rfl⟩ := hsome
    rfl

/-- The scan reads something, unless it starts at the end of the data section. -/
theorem scanForReads_ne_nil (key s : Bytes) (hpos : pos < off) :
    scanForReads off key pos s ≠ [] := by
  cases hr : readEntry s with
  | none =>
    rw [scanForReads_of_none hpos hr]
    exact List.cons_ne_nil _ _
  | some p =>
    rw [scanForReads_of_some hpos hr]
    exact List.cons_ne_nil _ _

end Loop

/-! ## Nothing else matters -/

/-- **The scan depends on what it reads.** -/
theorem scanFor_congr {off pos : ℕ} {key bs bs' : Bytes}
    (h : ∀ r ∈ scanForReads off key pos (bs.drop pos), stretch bs' r = stretch bs r) :
    scanFor off key pos (bs'.drop pos) = scanFor off key pos (bs.drop pos) := by
  induction hn : (bs.drop pos).length using Nat.strong_induction_on generalizing pos with
  | _ n ih =>
    by_cases hpos : pos < off
    · cases hr : readEntry (bs.drop pos) with
      | none =>
        rw [scanForReads_of_none hpos hr, List.forall_mem_singleton] at h
        rw [drop_of_stretch h]
      | some p =>
        obtain ⟨⟨k, fl, v⟩, t⟩ := p
        rw [scanForReads_of_some hpos hr, List.forall_mem_cons] at h
        obtain ⟨ht, hr', hstep⟩ := readEntry_of_stretch hr rfl h.1
        have hlt := readEntry_consumes hr
        rw [scanFor_of_some hpos hr, scanFor_of_some hpos hr', hstep]
        by_cases hk : k = key
        · rw [if_pos hk, if_pos hk]
        rw [if_neg hk, if_neg hk]
        by_cases hgt : compare k key = .gt
        · rw [if_pos hgt, if_pos hgt]
        rw [if_neg hgt, if_neg hgt]
        have hrest := h.2
        rw [if_neg hk, if_neg hgt] at hrest
        generalize (bs.drop pos).length - t.length = step at ht hrest
        subst ht
        exact ih _ (hn ▸ hlt) hrest rfl
    · rw [scanFor_of_ge _ (Nat.le_of_not_lt hpos), scanFor_of_ge _ (Nat.le_of_not_lt hpos)]

/-! ## How much a lookup reads -/

/-- The entries up to the first one that is not below the key. -/
def upTo (key : Bytes) : List (Bytes × MemEntry) → List (Bytes × MemEntry)
  | [] => []
  | e :: es => e :: if compare e.1 key = .lt then upTo key es else []

/-- **The scan reads** the entries up to the first one that is not below the key, and nothing behind
the last. -/
theorem scanForReads_dataBytes {es : List (Bytes × MemEntry)} (h : ∀ e ∈ es, ShortEntry e)
    (key : Bytes) (pos : ℕ) (s : Bytes) :
    (scanForReads (pos + (dataBytes es).length) key pos (dataBytes es ++ s)).length =
      (upTo key es).length ∧
        ∀ r ∈ scanForReads (pos + (dataBytes es).length) key pos (dataBytes es ++ s),
        r.2 ≤ pos + (dataBytes es).length := by
  induction es generalizing pos with
  | nil =>
    rw [dataBytes_nil, List.length_nil, scanForReads_of_ge _ _ (Nat.add_zero pos).le]
    exact ⟨rfl, fun _ h ↦ absurd h List.not_mem_nil⟩
  | cons e es ih =>
    rw [List.forall_mem_cons] at h
    obtain ⟨hlt, hsplit, hstep, hend⟩ := scan_step pos e es s
    rw [hsplit, scanForReads_of_some hlt (readEntry_entryBytes h.1 _), hstep, hend, upTo,
      List.length_cons, List.length_cons, List.forall_mem_cons]
    obtain ⟨hlen, hinside⟩ := ih h.2 (pos + (entryBytes e).length)
    cases hc : compare e.1 key with
    | lt =>
      have hgt : Ordering.lt ≠ .gt := by decide
      rw [if_neg (ne_of_compare_lt hc), if_neg hgt, if_pos rfl, hlen]
      exact ⟨rfl, Nat.le_add_right _ _, hinside⟩
    | eq =>
      rw [if_pos (LawfulEqCmp.eq_of_compare hc), if_neg (by decide)]
      exact ⟨rfl, Nat.le_add_right _ _, fun _ h ↦ absurd h List.not_mem_nil⟩
    | gt =>
      rw [if_pos rfl, ite_self, if_neg (by decide)]
      exact ⟨rfl, Nat.le_add_right _ _, fun _ h ↦ absurd h List.not_mem_nil⟩

section Count

variable {es : List (Bytes × MemEntry)} {key : Bytes} {n : ℕ}

/-- An entry above the key ends it. -/
theorem length_upTo_le (hn : ∀ e ∈ es[n]?, compare key e.1 = .lt) :
    (upTo key es).length ≤ n + 1 := by
  induction es generalizing n with
  | nil => exact Nat.zero_le _
  | cons e es ih =>
    rw [upTo, List.length_cons, Nat.add_le_add_iff_right]
    split
    · rename_i hlt
      cases n with
      | zero =>
        have hgt : compare key e.1 = .lt := hn e rfl
        rw [OrientedCmp.gt_of_lt hgt] at hlt
        cases hlt
      | succ n => exact ih hn
    · exact Nat.zero_le _

/-- If the key is there, it is not read. -/
theorem length_upTo_le_of_mem (hn : ∀ e ∈ es[n]?, compare key e.1 = .lt) (hs : Sorted es)
    (hmem : ∃ e ∈ es, e.1 = key) : (upTo key es).length ≤ n := by
  induction es generalizing n with
  | nil =>
    obtain ⟨_, h, -⟩ := hmem
    cases h
  | cons e es ih =>
    rw [Sorted, List.pairwise_cons] at hs
    cases n with
    | zero =>
      have hlt : compare key e.1 = .lt := hn e rfl
      obtain ⟨e', he', rfl⟩ := hmem
      rcases List.mem_cons.1 he' with rfl | he'
      · exact absurd rfl (ne_of_compare_lt hlt)
      · exact absurd rfl (ne_of_compare_lt (TransCmp.lt_trans hlt (hs.1 e' he')))
    | succ n =>
      rw [upTo, List.length_cons, Nat.add_le_add_iff_right]
      split
      · rename_i hlt
        refine ih hn hs.2 ?_
        obtain ⟨e', he', hkey⟩ := hmem
        rcases List.mem_cons.1 he' with rfl | he'
        · exact absurd hkey (ne_of_compare_lt hlt)
        · exact ⟨e', he', hkey⟩
      · exact Nat.zero_le _

end Count

/-! ## The blocks of a table -/

/-- **The index points** are those of every so many entries. -/
theorem mem_sparseFrom_iff {es : List (Bytes × MemEntry)} {off n : ℕ} {ip : IndexPoint} :
    ip ∈ sparseFrom off n es ↔ ∃ as e bs, es = as ++ e :: bs ∧ (n + as.length) % indexStride = 0 ∧
      ip = ⟨e.1, off + (dataBytes as).length⟩ := by
  induction es generalizing off n with
  | nil => simp [sparseFrom]
  | cons e es ih =>
    rw [sparseFrom, List.mem_append, ih]
    constructor
    · rintro (h | ⟨as, e', bs, rfl, hn, rfl⟩)
      · split at h
        · rename_i hn
          exact ⟨[], e, es, rfl, hn, List.mem_singleton.1 h⟩
        · cases h
      · refine ⟨e :: as, e', bs, rfl, ?_, ?_⟩
        · rw [← hn, List.length_cons, Nat.add_assoc, Nat.add_comm 1]
        · rw [dataBytes_cons, List.length_append, Nat.add_assoc]
    · rintro ⟨as, e', bs, heq, hn, rfl⟩
      cases as with
      | nil =>
        obtain ⟨rfl, rfl⟩ := List.cons.inj heq
        rw [List.length_nil, Nat.add_zero] at hn
        rw [if_pos hn]
        exact .inl List.mem_cons_self
      | cons a as =>
        obtain ⟨rfl, rfl⟩ := List.cons.inj heq
        refine .inr ⟨as, e', bs, rfl, ?_, ?_⟩
        · rw [← hn, List.length_cons, Nat.add_assoc, Nat.add_comm 1]
        · rw [dataBytes_cons, List.length_append, Nat.add_assoc]

/-- Index points above the one that is found are above the key. -/
theorem lt_of_seekPoint {t : SSTable} {key : Bytes}
    (ht : t.index.Pairwise fun a b ↦ compare a.key b.key = .lt)
    {ip ip' : IndexPoint} (h : t.seekPoint key = some ip) (hip' : ip' ∈ t.index)
    (hlt : compare ip.key ip'.key = .lt) : compare key ip'.key = .lt := by
  have hspec := (@seek_spec t key ht).2
  have hle :=
    (Search.upperBound_mem (fun i ↦ compare key (t.index.getD i {}).key = .lt) 0 t.index.length).2
  simp only [seekPoint] at h
  split at h
  · cases h
  · rename_i hne
    rw [Option.some_inj, List.getD_eq_getElem _ _ (by omega)] at h
    obtain ⟨j, hj, rfl⟩ := List.getElem_of_mem hip'
    rw [← List.getD_eq_getElem _ {} hj]
    refine hspec j ?_ hj
    by_contra hbelow
    -- it would be the one that is found, or one below it
    rcases Nat.eq_or_lt_of_le (Nat.le_sub_one_of_lt (Nat.lt_of_not_le hbelow)) with heq | hlow
    · simp only [← h, heq] at hlt
      exact ne_of_compare_lt hlt rfl
    · rw [← h] at hlt
      have hbefore := List.pairwise_iff_getElem.1 ht j _ hj (by omega) hlow
      exact ne_of_compare_lt (TransCmp.lt_trans hlt hbefore) rfl

section Built

variable {sz : Sizing} {entries : Entries} {path : Name} {key : Bytes}

/-- **Where the scan starts**, the entries before are below the key, and the next block is above
it. -/
theorem exists_block {ip : IndexPoint} (hip : (tableOf sz path entries).seekPoint key = some ip) :
    ∃ as es, entries.toList = as ++ es ∧ ip.offset = (dataBytes as).length ∧ (∀ e ∈ as, e.1 ≠ key) ∧
      ∀ e ∈ es[indexStride]?, compare key e.1 = .lt := by
  obtain ⟨hmem, hge⟩ :=
    seekPoint_eq_some (t := tableOf sz path entries) (sorted_sparseOf entries) hip
  obtain ⟨as, e, bs, hes, hn, rfl⟩ := mem_sparseFrom_iff.1 hmem
  have hsorted := sorted_toList entries
  rw [hes, Sorted, List.pairwise_append] at hsorted
  refine ⟨as, e :: bs, hes, Nat.zero_add _, ?_, fun e' he' ↦ ?_⟩
  · rintro e' he' rfl
    exact hge (hsorted.2.2 e' he' e List.mem_cons_self)
  -- the first entry of the next block has an index point
  obtain ⟨hlt, rfl⟩ := List.getElem?_eq_some_iff.1 he'
  refine lt_of_seekPoint (t := tableOf sz path entries) (sorted_sparseOf entries) hip
    (mem_sparseFrom_iff.2 ⟨as ++ (e :: bs).take indexStride, (e :: bs)[indexStride],
      (e :: bs).drop (indexStride + 1), ?_, ?_, rfl⟩)
      (List.pairwise_iff_getElem.1 hsorted.2.1 0 indexStride (Nat.zero_lt_of_lt hlt)
        hlt (by decide))
  · rw [List.append_assoc, ← List.drop_eq_getElem_cons hlt, List.take_append_drop, hes]
  · rw [List.length_append, List.length_take_of_le hlt.le, ← Nat.add_assoc, Nat.add_mod_right, hn]

/-- **How much a lookup reads.** -/
theorem Fits.reads_image (h : Fits sz entries) (path : Name) (key : Bytes) :
    ((tableOf sz path entries).reads key (image sz entries)).length ≤
      (if entries.answer key = .notFound then indexStride + 1 else indexStride) ∧
    ∀ r ∈ (tableOf sz path entries).reads key (image sz entries), r.2 ≤ bloomStart entries := by
  rw [reads]
  cases hstart : (tableOf sz path entries).startsAt key with
  | none => exact ⟨Nat.zero_le _, fun _ h ↦ absurd h List.not_mem_nil⟩
  | some pos =>
    rw [startsAt] at hstart
    split at hstart
    · cases hstart
    split at hstart
    · cases hstart
    obtain ⟨ip, hip, rfl⟩ := Option.map_eq_some_iff.1 hstart
    obtain ⟨hoff, -⟩ := h.scanFor_seekPoint hip
    obtain ⟨as, es, hes, hpos, hbelow, hnext⟩ := exists_block hip
    have hshort : ∀ e ∈ es, ShortEntry e := fun e he ↦ h.shortEntry e (by
      rw [hes]
      exact List.mem_append_right as he)
    have hdrop : (image sz entries).drop ip.offset = dataBytes es ++
        (bloomBytes (bloomOf sz entries) ++ (indexBytes (sparseOf entries) ++
          (Codec.le 8 (bloomStart entries) ++ Codec.le 8 (indexStart sz entries)))) := by
      rw [image, hes, dataBytes_append]
      simp only [List.append_assoc]
      rw [List.drop_left' hpos.symm]
    have hend : bloomStart entries = ip.offset + (dataBytes es).length := by
      rw [bloomStart, hes, dataBytes_append, List.length_append, hpos]
    have hreads := scanForReads_dataBytes hshort key ip.offset (bloomBytes (bloomOf sz entries) ++
      (indexBytes (sparseOf entries) ++
        (Codec.le 8 (bloomStart entries) ++ Codec.le 8 (indexStart sz entries))))
    rw [← hdrop, ← hend] at hreads
    simp only [hoff, if_true]
    refine ⟨hreads.1.trans_le ?_, hreads.2⟩
    split
    · exact length_upTo_le hnext
    · rename_i hknown
      have hsorted := sorted_toList entries
      rw [hes, Sorted, List.pairwise_append] at hsorted
      refine length_upTo_le_of_mem hnext hsorted.2.1 ?_
      by_contra habsent
      refine hknown (answer_eq_notFound fun e he hkey ↦ ?_)
      rw [hes, List.mem_append] at he
      exact he.elim (fun he ↦ hbelow e he hkey) fun he ↦ habsent ⟨e, he, hkey⟩

theorem Fits.finds_image (h : Fits sz entries) (path : Name) (key : Bytes) :
    (tableOf sz path entries).finds key (image sz entries) = entries.answer key := by
  rw [finds, startsAt]
  cases hb : (tableOf sz path entries).bloom.mayContain key with
  | false => exact (answer_of_not_mayContain hb).symm
  | true =>
    cases hi : (tableOf sz path entries).index.isEmpty with
    | true => exact (answer_of_index_isEmpty hi).symm
    | false =>
      cases hsp : (tableOf sz path entries).seekPoint key with
      | none => exact (answer_of_seekPoint_eq_none hsp).symm
      | some ip =>
        obtain ⟨hoff, hscan⟩ := h.scanFor_seekPoint hsp
        simp only [Bool.not_true, Bool.false_eq_true, if_false, Option.map_some, hoff, if_true]
        exact hscan

end Built

end SSTable

/-! ## What a get reads -/

/-- The bytes of a stretch of a file, if the file is there. -/
def stretchOf (d : Disk) (x : Name × ℕ × ℕ) : Option Bytes :=
  (d[x.1]?).map fun f ↦ SSTable.stretch f.content x.2

namespace SSTable

section Agreeing

variable {μ : Type} {E : Error → μ → Disk → Prop} {m : μ} {d d' : Disk} {t : SSTable}
  {key bs : Bytes}

/-- **A lookup depends on what it reads.** -/
theorem wp_lookup_agreeing {Q : LookupResult → μ → Disk → Prop}
    (hd : (d[t.path]?).map File.content = some bs)
    (h : ∀ r ∈ t.reads key bs, stretchOf d' (t.path, r) = stretchOf d (t.path, r))
    (hok : Q (t.finds key bs) m d') : (t.lookup key : Io μ _).wp reliable .blind Q E m d' := by
  obtain ⟨f, hf, rfl⟩ := Option.map_eq_some_iff.1 hd
  rw [reads] at h
  rw [finds] at hok
  rw [lookup_eq]
  cases hstart : t.startsAt key with
  | none =>
    rw [hstart] at hok
    exact hok
  | some pos =>
    rw [hstart] at h hok
    simp only at h hok ⊢
    rw [wp_bind]
    refine wp_readFile id trivial (fun _ hf ↦ hf.elim) fun _ ↦ ?_
    cases hf' : d'[t.path]? with
    | none =>
      -- then the scan reads nothing
      have hpos : t.bloomOffset ≤ pos := by
        by_contra hlt
        obtain ⟨r, hr⟩ := List.exists_mem_of_ne_nil _ (scanForReads_ne_nil key (f.content.drop pos)
          (Nat.lt_of_not_le hlt))
        have hsame := h r hr
        rw [stretchOf, stretchOf, hf, hf'] at hsame
        cases hsame
      rw [scanFor_of_ge _ hpos] at hok
      exact hok
    | some f' =>
      have hsame : ∀ r ∈ scanForReads t.bloomOffset key pos (f.content.drop pos),
          stretch f'.content r = stretch f.content r := fun r hr ↦ by
        have hsame := h r hr
        rw [stretchOf, stretchOf, hf, hf'] at hsame
        exact Option.some.inj hsame
      rw [← scanFor_congr hsame] at hok
      exact hok

end Agreeing

end SSTable

namespace DB

/-- What the loop of `DB::get` reads: the file, where it starts and where it ends. -/
def readsFrom (key : Bytes) (d : Disk) : List SSTable → List (Name × ℕ × ℕ)
  | [] => []
  | t :: ts =>
    match (d[t.path]?).map File.content with
    | none => readsFrom key d ts
    | some bs =>
      (t.reads key bs).map (t.path, ·) ++
        match t.finds key bs with
        | .notFound => readsFrom key d ts
        | _ => []

/-- What `DB::get` reads. -/
def reads (db : DB) (d : Disk) (key : Bytes) : List (Name × ℕ × ℕ) :=
  match db.memtable.raw key with
  | some _ => []
  | none => readsFrom key d db.sstables

/-- What the loop answers. -/
def findsFrom (key : Bytes) (d : Disk) : List SSTable → Option Bytes
  | [] => none
  | t :: ts =>
    match (d[t.path]?).map (t.finds key ·.content) with
    | none => findsFrom key d ts
    | some .notFound => findsFrom key d ts
    | some .tombstone => none
    | some (.found v) => some v

/-- What `DB::get` answers. -/
def finds (db : DB) (d : Disk) (key : Bytes) : Option Bytes :=
  match db.memtable.raw key with
  | some e => if e.tombstone then none else some e.value
  | none => findsFrom key d db.sstables

section Agreeing

variable {E : Error → DB → Disk → Prop} {Q : Option Bytes → DB → Disk → Prop}
  {db : DB} {d d' : Disk} {ts : List SSTable} {key : Bytes}

/-- **The loop depends on what it reads.** -/
theorem wp_getFrom_agreeing (hts : ∀ t ∈ ts, d[t.path]? ≠ none)
    (h : ∀ x ∈ readsFrom key d ts, stretchOf d' x = stretchOf d x)
    (hok : Q (findsFrom key d ts) db d') : (getFrom key ts).wp reliable .blind Q E db d' := by
  induction ts with
  | nil => exact hok
  | cons t ts ih =>
    rw [List.forall_mem_cons] at hts
    obtain ⟨f, hf⟩ := Option.ne_none_iff_exists'.1 hts.1
    rw [readsFrom, hf] at h
    rw [findsFrom, hf] at hok
    simp only [Option.map_some, List.forall_mem_append, List.forall_mem_map] at h hok
    rw [getFrom, wp_bind]
    refine SSTable.wp_lookup_agreeing (by rw [hf, Option.map_some]) h.1 ?_
    cases hfinds : t.finds key f.content with
    | notFound =>
      rw [hfinds] at h hok
      exact ih hts.2 h.2 hok
    | tombstone =>
      rw [hfinds] at hok
      exact hok
    | found v =>
      rw [hfinds] at hok
      exact hok

/-- **A get depends on what it reads.** -/
theorem wp_get_agreeing (hts : ∀ t ∈ db.sstables, d[t.path]? ≠ none)
    (h : ∀ x ∈ reads db d key, stretchOf d' x = stretchOf d x) (hok : Q (finds db d key) db d') :
    (get key).wp reliable .blind Q E db d' := by
  rw [get, wp_bind, Crash.wp_get]
  rw [reads] at h
  rw [finds] at hok
  cases hraw : db.memtable.raw key with
  | some e =>
    rw [hraw] at hok
    exact hok
  | none =>
    rw [hraw] at h hok
    exact wp_getFrom_agreeing hts h hok

theorem finds_eq_of_answers (hts : ∀ t ∈ db.sstables, d[t.path]? ≠ none) {v : Bytes → Option Bytes}
    (h : Answers db d v) (key : Bytes) : finds db d key = v key := by
  obtain ⟨tr, _, _, _, hx, -, rfl⟩ := Exec.exists_ok (device_total .none) (fun _ ↦ trivial)
    (wp_get_agreeing (Q := fun r _ _ ↦ r = finds db d key) (E := fun _ _ _ ↦ False) hts
      (fun _ _ ↦ rfl) rfl)
  rcases h key _ _ hx with ⟨_, hcut⟩ | ⟨_, _, _, hend, hr, -⟩
  · cases hcut
  · cases hend
    exact hr

/-- At most so many stretches of each table. -/
theorem length_readsFrom_le {n : ℕ}
    (h : ∀ t ∈ ts, ∀ bs, (d[t.path]?).map File.content = some bs → (t.reads key bs).length ≤ n) :
    (readsFrom key d ts).length ≤ n * ts.length := by
  induction ts with
  | nil => exact Nat.zero_le _
  | cons t ts ih =>
    rw [List.forall_mem_cons] at h
    have hrest := ih h.2
    rw [readsFrom, List.length_cons, Nat.mul_succ]
    cases hbs : (d[t.path]?).map File.content with
    | none => exact hrest.trans (Nat.le_add_right _ _)
    | some bs =>
      have hfirst := h.1 bs hbs
      simp only [List.length_append, List.length_map]
      cases t.finds key bs with
      | notFound => exact Nat.add_comm n _ ▸ Nat.add_le_add hfirst hrest
      | _ => exact hfirst.trans (Nat.le_add_left _ _)

end Agreeing

end DB

/-! ## What the program makes -/

/-- **A get reads little**, and nothing else matters to it, if `v` is what the store shows. -/
structure ReadsLittle (db : DB) (d : Disk) (v : Bytes → Option Bytes) : Prop where
  /-- The store shows `v`. -/
  answers : Answers db d v
  /-- A table that answers is read one block at most, and one that does not at most one entry
  more. -/
  few : ∀ key, ∀ t ∈ db.sstables, ∀ bs, (d[t.path]?).map File.content = some bs →
    (t.reads key bs).length ≤
    if t.finds key bs = .notFound then SSTable.indexStride + 1 else SSTable.indexStride
  /-- Nothing is read behind the data section. -/
  inside : ∀ key, ∀ t ∈ db.sstables, ∀ bs, (d[t.path]?).map File.content = some bs →
    ∀ r ∈ t.reads key bs, r.2 ≤ t.bloomOffset
  /-- All that is read by a get. -/
  total : ∀ key, (DB.reads db d key).length ≤ (SSTable.indexStride + 1) * db.sstables.length
  /-- Whatever becomes of the rest of the files, the answer is the same. -/
  same : ∀ key d', (∀ x ∈ DB.reads db d key, stretchOf d' x = stretchOf d x) →
    (DB.get key).Returns reliable db d' fun r db' d'' ↦ r = v key ∧ db' = db ∧ d'' = d'

section History

variable {sz : Sizing} {db : DB} {d : Disk}

/-- **In every history** from an empty directory, crashes at any call included. -/
theorem readsLittle {hist : List (Label × Trace)} (hrun : Run sz (.closed ∅) hist (.opened db d))
    (hhist : ∀ s ∈ hist, Sane sz s) : ∃ v, ReadsLittle db d v := by
  obtain ⟨C, hC⟩ := readable_of_run hrun hhist
  have hstored := hC.holds.tables.stored
  have hanswers := answers_shown hC.tables hstored hC.short
  have htable : ∀ t ∈ db.sstables, ∃ path entries, SSTable.Fits sz entries ∧
      t = .tableOf sz path entries ∧
      (d[t.path]?).map File.content = some (SSTable.image sz entries) := fun t ht ↦ by
    rw [hC.tables] at ht
    obtain ⟨s, hs, rfl⟩ := List.mem_map.1 ht
    obtain ⟨hopen, hfile⟩ := hstored s hs
    have hfits := hopen.fits (hC.short s hs)
    exact ⟨sstPath s.1, s.2, hfits, hfits.loaded_eq _, hfile⟩
  have hthere : ∀ t ∈ db.sstables, d[t.path]? ≠ none := fun t ht hnone ↦ by
    obtain ⟨_, _, -, -, hfile⟩ := htable t ht
    rw [hnone] at hfile
    cases hfile
  have hreads : ∀ key, ∀ t ∈ db.sstables, ∀ bs, (d[t.path]?).map File.content = some bs →
      ((t.reads key bs).length ≤
        if t.finds key bs = .notFound then SSTable.indexStride + 1 else SSTable.indexStride) ∧
      ∀ r ∈ t.reads key bs, r.2 ≤ t.bloomOffset := fun key t ht bs hbs ↦ by
    obtain ⟨path, entries, hfits, rfl, hfile⟩ := htable t ht
    obtain rfl := Option.some.inj (hbs.symm.trans hfile)
    rw [hfits.finds_image]
    exact hfits.reads_image path key
  refine ⟨_, hanswers, fun key t ht bs hbs ↦ (hreads key t ht bs hbs).1,
    fun key t ht bs hbs ↦ (hreads key t ht bs hbs).2, fun key ↦ ?_, fun key d' hd' ↦ ?_⟩
  · rw [DB.reads]
    cases db.memtable.raw key with
    | some _ => exact Nat.zero_le _
    | none =>
      refine DB.length_readsFrom_le fun t ht bs hbs ↦ (hreads key t ht bs hbs).1.trans ?_
      split
      · exact le_rfl
      · exact Nat.le_succ _
  · refine Prog.returns_of_wp (DB.wp_get_agreeing hthere hd' ?_)
    exact ⟨DB.finds_eq_of_answers hthere hanswers key, rfl, rfl⟩

theorem readsLittle_stale : ∃ db d v, db.sstables ≠ [] ∧ ReadsLittle db d v := by
  obtain ⟨hist, d, hrun, hmeets, ho⟩ := Snapshot.reaches_stale Label.IsShort
    (P := fun entries db _ ↦ BloomFits .onePercent entries ∧ NoWrap db) trivial trivial (fun _ ↦ id)
    fun _ _ _ hopen hwrap ↦ ⟨hopen.bloom, hwrap⟩
  obtain ⟨v, hv⟩ := readsLittle hrun fun s hs ↦ ⟨(hmeets s hs).label, (hmeets s hs).build⟩
  exact ⟨_, d, v, List.cons_ne_nil _ _, hv⟩

end History

end KeyValStore
