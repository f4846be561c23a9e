import Mathlib

/-!
# Self-delimiting encodings

A `Decoder` takes one item off the front of a stream of symbols, or fails; `Decoder.all` repeats it
until it fails.  A decoder is `SelfDelimiting` when it comes with an encoder it inverts on the
`valid` items: an encoding followed by anything decodes to its item, and whatever decodes was an
encoding of a valid item.

From these two facts alone everything a log or a table of records needs follows: a sequence of
valid items reads back as it was written (`all_encAll_append`), exactly the valid sequences do
(`all_encAll_iff`), a strict prefix of an encoding holds no item (`run_strict_prefix`), and what is
read off a stream is the longest sequence of items it starts with (`all_eq_iff`,
`prefix_all_of_encAll_prefix`).
-/

set_option autoImplicit false

namespace Codec

variable {σ α : Type}

/-- Takes an item off the front of a stream, and with it at least one symbol. -/
structure Decoder (σ α : Type) where
  /-- The item and what is left of the stream, if there is an item. -/
  run : List σ → Option (α × List σ)
  /-- An item takes up room. -/
  consumes : ∀ {s : List σ} {a : α} {t : List σ}, run s = some (a, t) → t.length < s.length

/-- All the items at the front of a stream. -/
def Decoder.all (D : Decoder σ α) (s : List σ) : List α :=
  match _h : D.run s with
  | none => []
  | some (a, t) => a :: D.all t
termination_by s.length
decreasing_by exact D.consumes _h

theorem Decoder.all_of_run_none {D : Decoder σ α} {s : List σ} (h : D.run s = none) :
    D.all s = [] := by
  rw [Decoder.all]
  split
  · rfl
  · simp_all

theorem Decoder.all_of_run_some {D : Decoder σ α} {s t : List σ} {a : α}
    (h : D.run s = some (a, t)) : D.all s = a :: D.all t := by
  rw [Decoder.all]
  split
  · simp_all
  · rename_i b u hb
    rw [h, Option.some_inj, Prod.mk.injEq] at hb
    rw [hb.1, hb.2]

/-- A decoder with the encoder it inverts. -/
structure SelfDelimiting (σ α : Type) extends Decoder σ α where
  /-- The encoding of an item. -/
  enc : α → List σ
  /-- The items whose encoding can be read back. -/
  valid : α → Prop
  /-- An encoding followed by anything decodes. -/
  run_enc : ∀ {a : α} (s : List σ), valid a → run (enc a ++ s) = some (a, s)
  /-- What decodes was an encoding. -/
  enc_of_run : ∀ {s t : List σ} {a : α}, run s = some (a, t) → valid a ∧ s = enc a ++ t

namespace SelfDelimiting

variable (C : SelfDelimiting σ α)

/-- The encodings of a sequence of items, one after the other. -/
def encAll (as : List α) : List σ := as.flatMap C.enc

@[simp] theorem encAll_nil : C.encAll [] = [] := rfl

@[simp] theorem encAll_cons (a : α) (as : List α) : C.encAll (a :: as) = C.enc a ++ C.encAll as :=
  rfl

@[simp] theorem encAll_append (as bs : List α) :
    C.encAll (as ++ bs) = C.encAll as ++ C.encAll bs :=
  List.flatMap_append

variable {C}

/-- What is read off a stream is read off a longer one, too. -/
theorem run_append {s t : List σ} {a : α} (h : C.run s = some (a, t)) (u : List σ) :
    C.run (s ++ u) = some (a, t ++ u) := by
  obtain ⟨ha, rfl⟩ := C.enc_of_run h
  rw [List.append_assoc, C.run_enc _ ha]

/-- **Reading back.**  A sequence of valid items is read back as it was written, whatever
follows. -/
theorem all_encAll_append {as : List α} (has : ∀ a ∈ as, C.valid a) (s : List σ) :
    C.all (C.encAll as ++ s) = as ++ C.all s := by
  induction as with
  | nil => rfl
  | cons a as ih =>
    rw [List.forall_mem_cons] at has
    rw [encAll_cons, List.append_assoc, Decoder.all_of_run_some (C.run_enc _ has.1), ih has.2,
      List.cons_append]

theorem all_nil : C.all [] = [] := by
  refine Decoder.all_of_run_none ?_
  cases h : C.run [] with
  | none => rfl
  | some p => simpa using C.consumes (show C.run [] = some (p.1, p.2) from h)

theorem all_encAll {as : List α} (has : ∀ a ∈ as, C.valid a) : C.all (C.encAll as) = as := by
  simpa [all_nil] using all_encAll_append has []

/-- Whatever is read off a stream is valid, and is what the stream starts with. -/
theorem all_spec (s : List σ) :
    (∀ a ∈ C.all s, C.valid a) ∧ ∃ t, s = C.encAll (C.all s) ++ t ∧ C.run t = none := by
  induction h : s.length using Nat.strong_induction_on generalizing s with
  | _ n ih =>
    cases hr : C.run s with
    | none => simp [Decoder.all_of_run_none hr, hr]
    | some p =>
      obtain ⟨a, t⟩ := p
      obtain ⟨hva, hs⟩ := C.enc_of_run hr
      obtain ⟨hv, u, hu, hun⟩ := ih t.length (h ▸ C.consumes hr) t rfl
      rw [Decoder.all_of_run_some hr]
      refine ⟨List.forall_mem_cons.2 ⟨hva, hv⟩, u, ?_, hun⟩
      rw [encAll_cons, List.append_assoc, ← hu, hs]

theorem valid_of_mem_all {s : List σ} {a : α} (h : a ∈ C.all s) : C.valid a :=
  (all_spec s).1 a h

theorem encAll_all_prefix (s : List σ) : C.encAll (C.all s) <+: s := by
  obtain ⟨-, t, ht, -⟩ := all_spec (C := C) s
  exact ⟨t, ht.symm⟩

/-- **Exactly the valid sequences are read back.** -/
theorem all_encAll_iff {as : List α} : C.all (C.encAll as) = as ↔ ∀ a ∈ as, C.valid a :=
  ⟨fun h _ ha ↦ valid_of_mem_all (h ▸ ha), all_encAll⟩

/-- Any sequence of valid items a stream starts with starts what is read off it. -/
theorem prefix_all_of_encAll_prefix {as : List α} {s : List σ} (has : ∀ a ∈ as, C.valid a)
    (h : C.encAll as <+: s) : as <+: C.all s := by
  obtain ⟨t, rfl⟩ := h
  exact ⟨C.all t, (all_encAll_append has t).symm⟩

/-- What is read off a stream, characterised: the stream starts with it, and no further item
follows. -/
theorem all_eq_iff {as : List α} {s : List σ} (has : ∀ a ∈ as, C.valid a) :
    C.all s = as ↔ ∃ t, s = C.encAll as ++ t ∧ C.run t = none := by
  constructor
  · rintro rfl
    exact (all_spec s).2
  · rintro ⟨t, rfl, ht⟩
    rw [all_encAll_append has, Decoder.all_of_run_none ht, List.append_nil]

/-- **Self-delimiting**: a strict prefix of a valid encoding holds no item. -/
theorem run_strict_prefix {a : α} (ha : C.valid a) {t : List σ} (ht : t <+: C.enc a)
    (hne : t ≠ C.enc a) : C.run t = none := by
  obtain ⟨v, hv⟩ := ht
  cases hr : C.run t with
  | none => rfl
  | some p =>
    obtain ⟨b, u⟩ := p
    obtain ⟨hb, rfl⟩ := C.enc_of_run hr
    have h1 := C.run_enc [] ha
    rw [List.append_nil, ← hv, List.append_assoc, C.run_enc _ hb, Option.some_inj,
      Prod.mk.injEq] at h1
    obtain ⟨rfl, huv⟩ := h1
    rw [List.append_eq_nil_iff] at huv
    simp [huv.1] at hne

theorem all_strict_prefix {a : α} (ha : C.valid a) {t : List σ} (ht : t <+: C.enc a)
    (hne : t ≠ C.enc a) : C.all t = [] :=
  Decoder.all_of_run_none ( run_strict_prefix ha ht hne)

/-- After a sequence of valid items, the beginning of another one adds nothing. -/
theorem all_encAll_append_strict_prefix {as : List α} (has : ∀ a ∈ as, C.valid a) {a : α}
    (ha : C.valid a) {t : List σ} (ht : t <+: C.enc a) (hne : t ≠ C.enc a) :
    C.all (C.encAll as ++ t) = as := by
  rw [all_encAll_append has, all_strict_prefix ha ht hne, List.append_nil]

/-! ### Longest parses, and cuts -/

variable (C) in
/-- The items whose encodings, one after the other, lie within the first `n` symbols. -/
def before : List α → ℕ → List α
  | [], _ => []
  | a :: as, n => if (C.enc a).length ≤ n then a :: before as (n - (C.enc a).length) else []

variable (C) in
/-- **The longest parse**: valid items whose encodings a stream starts with, and more of them than
in any other such sequence. -/
structure LongestParse (s : List σ) (as : List α) : Prop where
  /-- The items are valid. -/
  valid : ∀ a ∈ as, C.valid a
  /-- The stream starts with their encodings. -/
  encAll_prefix : C.encAll as <+: s
  /-- Every other such sequence is shorter. -/
  longest : ∀ bs, (∀ b ∈ bs, C.valid b) → C.encAll bs <+: s → bs ≠ as → bs.length < as.length

/-- **What is read off a stream is its longest parse.** -/
theorem longestParse_all (s : List σ) : C.LongestParse s (C.all s) where
  valid _ := valid_of_mem_all
  encAll_prefix := encAll_all_prefix s
  longest bs hbs hpre hne := by
    have h := prefix_all_of_encAll_prefix hbs hpre
    exact lt_of_le_of_ne h.length_le fun hlen ↦ hne (h.eq_of_length hlen)

theorem LongestParse.unique {s : List σ} {as bs : List α} (ha : C.LongestParse s as)
    (hb : C.LongestParse s bs) : as = bs := by
  by_contra hne
  exact (ha.longest bs hb.valid hb.encAll_prefix (Ne.symm hne)).asymm
    (hb.longest as ha.valid ha.encAll_prefix hne)

/-- **Cutting a stream off** leaves the items that lie before the cut. -/
theorem all_take_encAll {as : List α} (has : ∀ a ∈ as, C.valid a) (n : ℕ) :
    C.all ((C.encAll as).take n) = C.before as n := by
  induction as generalizing n with
  | nil => rw [encAll_nil, List.take_nil, all_nil, before]
  | cons a as ih =>
    rw [List.forall_mem_cons] at has
    rw [encAll_cons, before]
    split
    · rename_i hle
      rw [List.take_append, List.take_of_length_le hle, Decoder.all_of_run_some (C.run_enc _ has.1),
        ih has.2]
    · rename_i hlt
      have hcut : (C.enc a ++ C.encAll as).take n = (C.enc a).take n := by
        rw [List.take_append_of_le_length (not_le.1 hlt).le]
      rw [hcut]
      refine all_strict_prefix has.1 (List.take_prefix _ _) fun heq ↦ hlt ?_
      rw [← heq]
      exact List.length_take_le _ _

end SelfDelimiting

end Codec
