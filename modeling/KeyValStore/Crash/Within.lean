import KeyValStore.Crash.Program

/-!
# Programs on a part of the memory

A program can be run by a process whose memory is larger: it reads and replaces a `Part` of that
memory, and leaves the rest alone.  Such a program has the weakest precondition it has on its own
memory (`wp_within`), under the watch of the larger process as it is with that rest
(`Watch.within`).
-/

set_option autoImplicit false

namespace Crash

variable {Γ : Type} {ρ : Γ → Type} {μ ν ε α δ : Type}

/-- A part of a memory, of type `μ`, that can be read and replaced. -/
structure Part (μ ν : Type) where
  /-- Read it. -/
  get : ν → μ
  /-- Replace it. -/
  set : μ → ν → ν
  /-- What has been put there can be read. -/
  get_set : ∀ m n, get (set m n) = m
  /-- Putting back what has been read changes nothing. -/
  set_get : ∀ n, set (get n) n = n
  /-- What is put there last counts. -/
  set_set : ∀ m m' n, set m (set m' n) = set m n

namespace Prog

/-- The program as one of the larger process. -/
def within (P : Part μ ν) : Prog ρ μ ε α → Prog ρ ν ε α
  | pure a => pure a
  | throw e => throw e
  | get k => get fun n ↦ (k (P.get n)).within P
  | set m p => get fun n ↦ set (P.set m n) (p.within P)
  | call c k => call c fun r ↦ (k r).within P

end Prog

/-- The watch of the larger process, as far as it is about the part, when the memory is `n`
besides. -/
def Watch.within (P : Part μ ν) (n : ν) (W : Watch Γ ν δ) : Watch Γ μ δ where
  assume ev := W.assume ⟨ev.call, P.set ev.mem n, ev.disk⟩
  always ev := W.always ⟨ev.call, P.set ev.mem n, ev.disk⟩

/-- A call, as one of a process that has no memory but the part. -/
def Event.part (P : Part μ ν) (ev : Event Γ ν δ) : Event Γ μ δ := ⟨ev.call, P.get ev.mem, ev.disk⟩

/-- A watch that is about the part alone, as one of the larger process. -/
def Watch.onPart (P : Part μ ν) (W : Watch Γ μ δ) : Watch Γ ν δ where
  assume ev := W.assume (ev.part P)
  always ev := W.always (ev.part P)

theorem Watch.within_onPart (P : Part μ ν) (n : ν) (W : Watch Γ μ δ) :
    (W.onPart P).within P n = W := by
  simp only [Watch.within, onPart, Event.part, P.get_set]

theorem Watch.within_set (P : Part μ ν) (m : μ) (n : ν) (W : Watch Γ ν δ) :
    W.within P (P.set m n) = W.within P n := by
  simp only [Watch.within, P.set_set]

/-- **A program on a part of the memory** does to that part what it does on its own, and nothing
besides. -/
theorem wp_within {D : Device ρ δ} {W : Watch Γ ν δ} {Q : α → ν → δ → Prop} {E : ε → ν → δ → Prop}
    (P : Part μ ν) (p : Prog ρ μ ε α) (n : ν) (d : δ) :
    (p.within P).wp D W Q E n d ↔ p.wp D (W.within P n) (fun a m d ↦ Q a (P.set m n) d)
      (fun e m d ↦ E e (P.set m n) d) (P.get n) d := by
  induction p generalizing n d with
  | pure a =>
    show Q a n d ↔ Q a (P.set (P.get n) n) d
    rw [P.set_get]
  | throw e =>
    show E e n d ↔ E e (P.set (P.get n) n) d
    rw [P.set_get]
  | get k ih => exact ih (P.get n) n d
  | set m p ih =>
    refine (ih (P.set m n) d).trans ?_
    rw [Watch.within_set, P.get_set]
    simp only [P.set_set]
    exact Iff.rfl
  | call c k ih =>
    refine and_congr ?_ (imp_congr ?_ (forall_congr' fun r ↦ forall_congr' fun d' ↦
      imp_congr_right fun _ ↦ ih r n d'))
    · show W.always ⟨c, n, d⟩ ↔ W.always ⟨c, P.set (P.get n) n, d⟩
      rw [P.set_get]
    · show W.assume ⟨c, n, d⟩ ↔ W.assume ⟨c, P.set (P.get n) n, d⟩
      rw [P.set_get]

end Crash
