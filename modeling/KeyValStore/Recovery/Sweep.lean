import KeyValStore.Store.Contents

/-!
# What recovery deletes

Steps 1, 2 and 4 of `recover` list the directory and remove some of the files they find.  `J` says
which names these steps may touch: what is known of the other files stays true
(`wp_removeLeftovers`, `wp_removeOrphans`).
-/

set_option autoImplicit false

namespace KeyValStore

open Crash Std

namespace DB

section Sweep

variable {W : Watch (Call Mark) DB Disk} {E : Error → DB → Disk → Prop} {db : DB} {d : Disk}
  {J : Name → Prop}

theorem mem_of_perm_keys {d : Disk} {names : List Name} (h : names.Perm d.keys) (n : Name) :
    n ∈ names ↔ ∃ f, d[n]? = some f := by
  rw [h.mem_iff, ExtTreeMap.mem_keys, ExtTreeMap.mem_iff_isSome_getElem?, Option.isSome_iff_exists]

/-- Removing the names of a list that satisfy a condition. -/
theorem wp_removeSome {Q : PUnit → DB → Disk → Prop} {names : List Name} {c : Name → Prop}
    [DecidablePred c] (hc : ∀ n ∈ names, c n → J n) (hJ : ¬J Manifest.dest)
    (hw : Allows W (Disk.AgreeBut J d)) (h : ∀ d', Disk.AgreeBut J d d' → Q () db d') :
    (forM names fun p ↦ if c p then call (.remove p) else pure () : Io DB PUnit).wp reliable W Q E
      db d := by
  refine wp_forM (fun _ m d' ↦ m = db ∧ Disk.AgreeBut J d d') names ⟨rfl, .refl J d⟩ ?_ ?_
  · rintro p left m d' hsuffix ⟨rfl, hd'⟩
    rw [wp_ite]
    by_cases hp : c p
    · have hmem : J p := hc p (hsuffix.subset List.mem_cons_self) hp
      rw [if_pos hp]
      exact wp_call_remove id (hw _ _ _ (isPlain_remove fun heq ↦ hJ (heq ▸ hmem)) hd')
        ⟨rfl, hd'.trans ((Disk.agreeOff_erase d' p).agreeBut hmem)⟩
    · rw [if_neg hp]
      exact ⟨rfl, hd'⟩
  · rintro m d' ⟨rfl, hd'⟩
    exact h d' hd'

/-- **Steps 1 and 2.** -/
theorem wp_removeLeftovers {Q : Unit → DB → Disk → Prop} (hdest : ¬J Manifest.dest)
    (htmp : J Manifest.tmp) (hsealed : ∀ n f, d[n]? = some f → isSealed n = true → J n)
    (hw : Allows W (Disk.AgreeBut J d)) (h : ∀ d', Disk.AgreeBut J d d' → Q () db d') :
    removeLeftovers.wp reliable W Q E db d := by
  have herase : Disk.AgreeBut J d (d.erase Manifest.tmp) :=
    (Disk.agreeOff_erase d _).agreeBut htmp
  rw [removeLeftovers, wp_bind]
  refine wp_call_remove id (hw _ _ _ (isPlain_remove Manifest.dest_ne_tmp.symm) (.refl J d)) ?_
  rw [wp_bind]
  refine wp_listDir.2 ⟨hw _ _ _ rfl herase, fun _ names hnames ↦ ?_⟩
  refine wp_removeSome (fun n hn hs ↦ ?_) hdest (hw.mono fun _ ↦ herase.trans) fun d' hd' ↦
    h d' (herase.trans hd')
  obtain ⟨f, hf⟩ := (mem_of_perm_keys hnames n).1 hn
  by_cases hJ : J n
  · exact hJ
  · exact hsealed n f (herase n hJ ▸ hf) hs

/-- **Step 4.** -/
theorem wp_removeOrphans {Q : Unit → DB → Disk → Prop} (hdest : ¬J Manifest.dest)
    (horphan : ∀ n f, d[n]? = some f → extension n = ascii ".sst" →
      n ∉ db.sstables.map (·.path) → J n)
    (hw : Allows W (Disk.AgreeBut J d)) (h : ∀ d', Disk.AgreeBut J d d' → Q () db d') :
    removeOrphans.wp reliable W Q E db d := by
  rw [removeOrphans, wp_bind, Crash.wp_get, wp_bind]
  refine wp_listDir.2 ⟨hw _ _ _ rfl (.refl J d), fun _ names hnames ↦ ?_⟩
  refine wp_removeSome (fun n hn hs ↦ ?_) hdest hw h
  obtain ⟨f, hf⟩ := (mem_of_perm_keys hnames n).1 hn
  exact horphan n f hf hs.1 hs.2

end Sweep

end DB

end KeyValStore
