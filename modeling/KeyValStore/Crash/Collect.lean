import KeyValStore.Crash.Program

/-!
# Loops that collect

A loop over a list that passes over some elements, adds what it finds under others to the memory,
and throws at the first it cannot read.  `collect f l` is what such a loop finds, or nothing if it
throws; `wp_forM_collect` is the rule for it.  The order of the list changes the order of what is
found, and nothing else (`collect_perm`).
-/

set_option autoImplicit false

namespace Crash

variable {ι β : Type}

/-- What `f` finds under the elements of a list; nothing at all if it fails for one of them. -/
def collect (f : ι → Option (Option β)) (l : List ι) : Option (List β) :=
  if ∀ a ∈ l, (f a).isSome = true then some (l.filterMap fun a ↦ (f a).join) else none

theorem collect_eq_some {f : ι → Option (Option β)} {l : List ι} {bs : List β} :
    collect f l = some bs ↔
      (∀ a ∈ l, (f a).isSome = true) ∧ (l.filterMap fun a ↦ (f a).join) = bs := by
  rw [collect]
  split
  · rename_i h
    exact ⟨fun hs ↦ ⟨h, Option.some.inj hs⟩, fun hs ↦ congrArg some hs.2⟩
  · rename_i h
    exact ⟨nofun, fun hs ↦ absurd hs.1 h⟩

@[simp] theorem collect_nil (f : ι → Option (Option β)) : collect f [] = some [] :=
  collect_eq_some.2 ⟨fun _ h ↦ absurd h List.not_mem_nil, rfl⟩

theorem collect_cons (f : ι → Option (Option β)) (a : ι) (l : List ι) : collect f (a :: l) =
    (f a).bind fun o ↦ (collect f l).map (o.toList ++ ·) := by
  cases ha : f a with
  | none => simp [collect, ha]
  | some o =>
    by_cases h : ∀ a ∈ l, (f a).isSome = true
    · cases o <;> simp [collect, ha]
    · simp [collect, ha, h]

theorem mem_of_collect {f : ι → Option (Option β)} {l : List ι} {bs : List β}
    (h : collect f l = some bs) {b : β} (hb : b ∈ bs) : ∃ a ∈ l, f a = some (some b) := by
  obtain ⟨-, rfl⟩ := collect_eq_some.1 h
  obtain ⟨a, ha, hjoin⟩ := List.mem_filterMap.1 hb
  refine ⟨a, ha, ?_⟩
  cases hf : f a with
  | none => simp [hf] at hjoin
  | some o => rw [← hjoin, hf, Option.join_some]

/-- **The order of the list** changes nothing but the order of what is found. -/
theorem collect_perm {f : ι → Option (Option β)} {l l' : List ι} (h : l.Perm l') {bs : List β}
    (hbs : collect f l = some bs) : ∃ bs', collect f l' = some bs' ∧ bs'.Perm bs := by
  obtain ⟨hall, rfl⟩ := collect_eq_some.1 hbs
  exact ⟨_, collect_eq_some.2 ⟨fun a ha ↦ hall a (h.mem_iff.2 ha), rfl⟩, (h.filterMap _).symm⟩

theorem collect_eq_none_of_perm {f : ι → Option (Option β)} {l l' : List ι} (h : l.Perm l')
    (hl : collect f l = none) : collect f l' = none := by
  cases hl' : collect f l' with
  | none => rfl
  | some bs =>
    obtain ⟨bs', hbs', -⟩ := collect_perm h.symm hl'
    rw [hl] at hbs'
    cases hbs'

/-- Elements under which nothing is found can be left out. -/
theorem collect_filter {f : ι → Option (Option β)} {p : ι → Bool} {l : List ι}
    (h : ∀ a ∈ l, p a = false → f a = some none) : collect f (l.filter p) = collect f l := by
  induction l with
  | nil => rfl
  | cons a l ih =>
    rw [List.forall_mem_cons] at h
    rw [List.filter_cons, collect_cons f a l]
    cases hp : p a with
    | true => rw [if_pos rfl, collect_cons, ih h.2]
    | false =>
      rw [if_neg Bool.false_ne_true, ih h.2, h.1 hp]
      simp

theorem collect_congr {f g : ι → Option (Option β)} {l : List ι} (h : ∀ a ∈ l, f a = g a) :
    collect f l = collect g l := by
  induction l with
  | nil => rfl
  | cons a l ih =>
    rw [List.forall_mem_cons] at h
    rw [collect_cons, collect_cons, h.1, ih h.2]

/-- A list of which every element is found. -/
theorem collect_map {κ : Type} {f : ι → Option (Option β)} {g : κ → ι} {b : κ → β} {l : List κ}
    (h : ∀ k ∈ l, f (g k) = some (some (b k))) : collect f (l.map g) = some (l.map b) := by
  induction l with
  | nil => rfl
  | cons k l ih =>
    rw [List.forall_mem_cons] at h
    rw [List.map_cons, collect_cons, h.1, ih h.2]
    rfl

section Rule

variable {Γ : Type} {ρ : Γ → Type} {μ ε δ : Type} {D : Device ρ δ} {W : Watch Γ μ δ}
  {Q : PUnit → μ → δ → Prop} {E : ε → μ → δ → Prop} {m : μ} {d : δ}

/-- **The rule for a loop that collects.**  It leaves the device alone; what is found under an
element changes the memory as `g` says. -/
theorem wp_forM_collect {f : ι → Option (Option β)} (g : β → μ → μ) {body : ι → Prog ρ μ ε PUnit}
    {l : List ι} (hbody : ∀ a ∈ l, ∀ (Q' : PUnit → μ → δ → Prop) (m : μ),
      (f a = none → ∀ e m', E e m' d) → (f a = some none → Q' () m d) →
      (∀ b, f a = some (some b) → Q' () (g b m) d) → (body a).wp D W Q' E m d)
    (hthrew : collect f l = none → ∀ e m', E e m' d)
    (hok : ∀ bs, collect f l = some bs → Q () (bs.foldl (fun m b ↦ g b m) m) d) :
    (forM l body : Prog ρ μ ε PUnit).wp D W Q E m d := by
  induction l generalizing m with
  | nil => exact hok [] (collect_nil f)
  | cons a l ih =>
    rw [List.forall_mem_cons] at hbody
    simp only [collect_cons] at hthrew hok
    rw [List.forM_cons, wp_bind]
    refine hbody.1 _ m (fun ha ↦ ?_) (fun ha ↦ ?_) fun b ha ↦ ?_
    · exact hthrew (by rw [ha]; rfl)
    · refine ih hbody.2 (fun hl ↦ hthrew (by rw [ha, hl]; rfl)) fun bs hl ↦ ?_
      exact hok bs (by rw [ha, hl]; rfl)
    · refine ih hbody.2 (fun hl ↦ hthrew (by rw [ha, hl]; rfl)) fun bs hl ↦ ?_
      exact hok (b :: bs) (by rw [ha, hl]; rfl)

end Rule

end Crash
