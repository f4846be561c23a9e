import Mathlib

/-!
# Words in a text

`token` reads a text as a stream of words: it skips separators, takes a word, and leaves what
follows.  `token_eq_iff` and `token_eq_nil_iff` say how a text must be spelled for a word to be
read, or for none to be left; `dropWhile_eq_iff` is the same for what skipping separators leaves.
-/

set_option autoImplicit false

namespace Codec

variable {α : Type} {sep : α → Bool} {s t b w : List α}

/-- Skip separators, and take what comes up to the next one; with it comes what is left. -/
def token (sep : α → Bool) (s : List α) : List α × List α :=
  ((s.dropWhile sep).takeWhile (!sep ·), (s.dropWhile sep).dropWhile (!sep ·))

/-- Nothing but separators. -/
def IsBlank (sep : α → Bool) (s : List α) : Prop := ∀ c ∈ s, sep c = true

/-- Something without separators. -/
structure IsWord (sep : α → Bool) (w : List α) : Prop where
  /-- There is something. -/
  ne_nil : w ≠ []
  /-- It has no separators. -/
  not_sep : ∀ c ∈ w, sep c = false

/-- Nothing, or something that starts with a separator. -/
def Breaks (sep : α → Bool) (s : List α) : Prop := ∀ c ∈ s.head?, sep c = true

/-- Nothing, or something that does not. -/
def Begins (sep : α → Bool) (s : List α) : Prop := ∀ c ∈ s.head?, sep c = false

theorem begins_dropWhile (sep : α → Bool) (s : List α) : Begins sep (s.dropWhile sep) := by
  intro c hc
  have h := List.head?_dropWhile_not sep s
  rw [Option.mem_def.1 hc] at h
  simpa using h

theorem breaks_dropWhile (sep : α → Bool) (s : List α) : Breaks sep (s.dropWhile (!sep ·)) := by
  intro c hc
  have h := List.head?_dropWhile_not (!sep ·) s
  rw [Option.mem_def.1 hc] at h
  simpa using h

theorem dropWhile_of_begins (h : Begins sep s) : s.dropWhile sep = s := by
  cases s with
  | nil => rfl
  | cons c s => exact List.dropWhile_cons_of_neg (by rw [h c rfl]; exact Bool.false_ne_true)

/-- **What skipping separators leaves.** -/
theorem dropWhile_eq_iff : s.dropWhile sep = t ↔
    ∃ b, s = b ++ t ∧ IsBlank sep b ∧ Begins sep t := by
  constructor
  · rintro rfl
    exact ⟨s.takeWhile sep, List.takeWhile_append_dropWhile.symm, fun _ ↦ List.mem_takeWhile_imp,
      begins_dropWhile sep s⟩
  · rintro ⟨b, rfl, hb, ht⟩
    rw [List.dropWhile_append_of_pos hb, dropWhile_of_begins ht]

/-- A word is taken whole. -/
theorem takeWhile_word (hw : IsWord sep w) (ht : Breaks sep t) :
    (w ++ t).takeWhile (!sep ·) = w ∧ (w ++ t).dropWhile (!sep ·) = t := by
  have hpos : ∀ c ∈ w, (!sep c) = true := fun c hc ↦ by rw [hw.not_sep c hc]; rfl
  rw [List.takeWhile_append_of_pos hpos, List.dropWhile_append_of_pos hpos]
  cases t with
  | nil => simp
  | cons c t =>
    have hc : ¬(!sep c) = true := by
      rw [ht c rfl]
      exact Bool.false_ne_true
    rw [List.takeWhile_cons_of_neg (p := (!sep ·)) hc,
      List.dropWhile_cons_of_neg (p := (!sep ·)) hc, List.append_nil]
    exact ⟨rfl, rfl⟩

theorem IsWord.begins (h : IsWord sep w) (t : List α) : Begins sep (w ++ t) := by
  obtain ⟨c, w, rfl⟩ := List.exists_cons_of_ne_nil h.ne_nil
  rintro _ ⟨⟩
  exact h.not_sep c List.mem_cons_self

/-- **A word is read** from a text in which it follows separators, if any, and is followed by one or
by nothing. -/
theorem token_eq_iff (hw : w ≠ []) :
    token sep s = (w, t) ↔ ∃ b, s = b ++ (w ++ t) ∧ IsBlank sep b ∧ IsWord sep w ∧
      Breaks sep t := by
  constructor
  · intro h
    obtain ⟨rfl, rfl⟩ := Prod.mk.inj h
    refine ⟨s.takeWhile sep, ?_, fun _ ↦ List.mem_takeWhile_imp, ⟨hw, fun c hc ↦ ?_⟩,
      breaks_dropWhile sep _⟩
    · rw [List.takeWhile_append_dropWhile, List.takeWhile_append_dropWhile]
    · simpa using List.mem_takeWhile_imp hc
  · rintro ⟨b, rfl, hb, hw, ht⟩
    obtain ⟨htake, hdrop⟩ := takeWhile_word hw ht
    rw [token, List.dropWhile_append_of_pos hb, dropWhile_of_begins (hw.begins t), htake, hdrop]

/-- **No word is left** in a text of separators. -/
theorem token_eq_nil_iff : token sep s = ([], t) ↔ IsBlank sep s ∧ t = [] := by
  have hnil : (s.dropWhile sep).takeWhile (!sep ·) = [] ↔ s.dropWhile sep = [] := by
    refine ⟨fun h ↦ ?_, fun h ↦ by rw [h, List.takeWhile_nil]⟩
    cases hs : s.dropWhile sep with
    | nil => rfl
    | cons c r =>
      have hc : (!sep c) = true := by
        rw [begins_dropWhile sep s c (by rw [hs]; rfl)]
        rfl
      rw [hs, List.takeWhile_cons_of_pos (p := (!sep ·)) hc] at h
      cases h
  rw [token, Prod.mk.injEq, hnil, List.dropWhile_eq_nil_iff]
  refine and_congr_right fun hs ↦ ?_
  rw [List.dropWhile_eq_nil_iff.2 hs, List.dropWhile_nil]
  exact eq_comm

end Codec
