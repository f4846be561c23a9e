import KeyValStore.Crash.Program

/-!
# Threads that share a lock

A `Service` answers requests with programs that run under a lock, which many readers or a single
writer may hold.  `Threads` interleaves the requests of any number of threads, call by call and
access by access: a thread makes a request, waits until it gets the lock, goes through the program
step by step while other threads do the same, and gives the lock back when the program returns or
throws.

Nothing of this can be seen from outside.  `Serial` is what happens when the requests are answered
one at a time, each by a whole run of its program, and `Threads.linear` says that at every moment
the requests that have been answered could have been answered so, in the order in which the lock was
given back, with the same answers.  Besides them no more than a single writer has left a trace
(`Threads.exists_serial`), and while no thread has the lock there is nothing else
(`threads_idle_iff`).
-/

set_option autoImplicit false

namespace Crash

variable {Γ : Type} {ρ : Γ → Type} {μ ε α δ κ ι : Type}

/-! ## One step of a program -/

/-- A step of a program: it reads or replaces the memory, or a call is answered.  The calls are of
the kind `A`. -/
inductive Move (D : Device ρ δ) (A : Event Γ μ δ → Prop) :
    Prog ρ μ ε α → μ → δ → Prog ρ μ ε α → μ → δ → Prop
  | get {k : μ → Prog ρ μ ε α} {m : μ} {d : δ} : Move D A (.get k) m d (k m) m d
  | set {p : Prog ρ μ ε α} {m m' : μ} {d : δ} : Move D A (.set m' p) m d p m' d
  | call {c : Γ} {k : ρ c → Prog ρ μ ε α} {r : ρ c} {m : μ} {d d' : δ} (hs : D.step c d r d')
      (hA : A ⟨c, m, d⟩) : Move D A (.call c k) m d (k r) m d'

/-- The program `p'` is what is left to do of `p`: what it does from here, `p` does from the
start. -/
def LeftOf (D : Device ρ δ) (A : Event Γ μ δ → Prop) (p : Prog ρ μ ε α) (m : μ) (d : δ)
    (p' : Prog ρ μ ε α) (m' : μ) (d' : δ) : Prop :=
  ∀ tr' o, Exec D p' m' d' tr' o → (∀ ev ∈ tr', A ev) → ∃ tr, Exec D p m d tr o ∧ ∀ ev ∈ tr, A ev

/-- The outcome of a run that gives an answer or throws. -/
def Outcome.ofExcept : Except ε α → μ → δ → Outcome μ ε α δ
  | .ok a, m, d => .ok a m d
  | .error e, m, d => .threw e m d

theorem Outcome.ofExcept_eq_ok {r : Except ε α} {m m' : μ} {d d' : δ} {a : α} :
    Outcome.ofExcept r m d = .ok a m' d' ↔ r = .ok a ∧ m = m' ∧ d = d' := by
  cases r <;> simp [ofExcept]

theorem Outcome.ofExcept_eq_threw {r : Except ε α} {m m' : μ} {d d' : δ} {e : ε} :
    Outcome.ofExcept r m d = .threw e m' d' ↔ r = .error e ∧ m = m' ∧ d = d' := by
  cases r <;> simp [ofExcept]

section Move

variable {D : Device ρ δ} {A : Event Γ μ δ → Prop} {p p' p'' : Prog ρ μ ε α}
  {m m' m'' : μ} {d d' d'' : δ}

theorem LeftOf.refl (p : Prog ρ μ ε α) (m : μ) (d : δ) : LeftOf D A p m d p m d :=
  fun tr _ hx hA ↦ ⟨tr, hx, hA⟩

theorem Move.leftOf (h : Move D A p m d p' m' d') : LeftOf D A p m d p' m' d' := by
  intro tr o hx hA
  cases h with
  | get => exact ⟨tr, .get hx, hA⟩
  | set => exact ⟨tr, .set hx, hA⟩
  | call hs hA' => exact ⟨_, .call hs hx, List.forall_mem_cons.2 ⟨hA', hA⟩⟩

theorem LeftOf.move (h : LeftOf D A p m d p' m' d') (hm : Move D A p' m' d' p'' m'' d'') :
    LeftOf D A p m d p'' m'' d'' := by
  intro tr o hx hA
  obtain ⟨tr', hx', hA'⟩ := hm.leftOf tr o hx hA
  exact h tr' o hx' hA'

/-- The end of a program that gives an answer or throws. -/
theorem Exec.ofExcept (r : Except ε α) (m : μ) (d : δ) :
    Exec D (Prog.ofExcept r : Prog ρ μ ε α) m d [] (.ofExcept r m d) := by
  cases r with
  | ok a => exact .pure
  | error e => exact .throw

/-- A program can be stopped where it is: it is cut at its next call, or ends before. -/
theorem Exec.exists_here (D : Device ρ δ) (p : Prog ρ μ ε α) (m : μ) (d : δ) :
    ∃ o, Exec D p m d [] o ∧ o.device = d := by
  induction p generalizing m with
  | pure a => exact ⟨_, .pure, rfl⟩
  | throw e => exact ⟨_, .throw, rfl⟩
  | get k ih =>
    obtain ⟨o, hx, ho⟩ := ih m m
    exact ⟨o, .get hx, ho⟩
  | set m' p ih =>
    obtain ⟨o, hx, ho⟩ := ih m'
    exact ⟨o, .set hx, ho⟩
  | call c k _ => exact ⟨_, .cut, rfl⟩

end Move

/-! ## The lock -/

/-- Programs that answer requests.  Those that share the lock change nothing. -/
structure Service (D : Device ρ δ) (κ μ ε α : Type) where
  /-- The program that answers a request. -/
  body : κ → Prog ρ μ ε α
  /-- The request is answered under a shared lock. -/
  shared : κ → Prop
  /-- The calls such a program makes. -/
  quiet : Γ → Prop
  /-- They leave the device alone. -/
  step_quiet : ∀ {c d r d'}, quiet c → D.step c d r d' → d' = d
  /-- It makes no others, and leaves the memory alone. -/
  silent : ∀ {q}, shared q → (body q).Silent quiet

/-- What a thread is doing. -/
inductive Thread (ρ : Γ → Type) (κ μ ε α : Type)
  /-- Nothing. -/
  | idle
  /-- It waits for the lock. -/
  | waiting (q : κ)
  /-- It has the lock, and `p` is left to do. -/
  | holding (q : κ) (p : Prog ρ μ ε α)

/-- A request that has been answered. -/
structure Done (ι κ ε α : Type) where
  /-- The thread. -/
  thread : ι
  /-- The request. -/
  request : κ
  /-- The answer, or what was thrown. -/
  result : Except ε α

/-- **Interleaved requests**: what threads that start idle, with the memory `m` and the device `d`,
may have come to.  The log has the requests that have been answered, in the order in which the lock
was given back; the calls are of the kind `A`. -/
inductive Threads {D : Device ρ δ} (S : Service D κ μ ε α) (A : Event Γ μ δ → Prop)
    [DecidableEq ι] (m : μ) (d : δ) : List (Done ι κ ε α) → (ι → Thread ρ κ μ ε α) → μ → δ → Prop
  | start : Threads S A m d [] (fun _ ↦ .idle) m d
  | request {log : List (Done ι κ ε α)} {T : ι → Thread ρ κ μ ε α} {m' : μ} {d' : δ}
      (h : Threads S A m d log T m' d') (i : ι) (q : κ) (hi : T i = .idle) :
      Threads S A m d log (Function.update T i (.waiting q)) m' d'
  | acquire {log : List (Done ι κ ε α)} {T : ι → Thread ρ κ μ ε α} {m' : μ} {d' : δ} {i : ι} {q : κ}
      (h : Threads S A m d log T m' d') (hi : T i = .waiting q)
      (hfree : ∀ j q' p, T j = .holding q' p → S.shared q ∧ S.shared q') :
      Threads S A m d log (Function.update T i (.holding q (S.body q))) m' d'
  | move {log : List (Done ι κ ε α)} {T : ι → Thread ρ κ μ ε α} {m' m'' : μ} {d' d'' : δ}
      {i : ι} {q : κ} {p p' : Prog ρ μ ε α} (h : Threads S A m d log T m' d')
      (hi : T i = .holding q p) (hm : Move D A p m' d' p' m'' d'') :
      Threads S A m d log (Function.update T i (.holding q p')) m'' d''
  | release {log : List (Done ι κ ε α)} {T : ι → Thread ρ κ μ ε α} {m' : μ} {d' : δ} {i : ι} {q : κ}
      {r : Except ε α} (h : Threads S A m d log T m' d') (hi : T i = .holding q (Prog.ofExcept r)) :
      Threads S A m d (log ++ [⟨i, q, r⟩]) (Function.update T i .idle) m' d'

/-- **Requests one at a time**, each answered by a whole run of its program. -/
inductive Serial {D : Device ρ δ} (S : Service D κ μ ε α) (A : Event Γ μ δ → Prop) (m : μ) (d : δ) :
    List (Done ι κ ε α) → μ → δ → Prop
  | nil : Serial S A m d [] m d
  | snoc {log : List (Done ι κ ε α)} {m₁ m₂ : μ} {d₁ d₂ : δ} {i : ι} {q : κ} {r : Except ε α}
      {tr : List (Event Γ μ δ)} (h : Serial S A m d log m₁ d₁)
      (hx : Exec D (S.body q) m₁ d₁ tr (.ofExcept r m₂ d₂)) (hA : ∀ ev ∈ tr, A ev) :
      Serial S A m d (log ++ [⟨i, q, r⟩]) m₂ d₂

/-- **What holds at every moment**, when answering the requests of the log one at a time leaves the
memory `m₀` and the device `d₀`. -/
structure Linear {D : Device ρ δ} (S : Service D κ μ ε α) (A : Event Γ μ δ → Prop)
    (T : ι → Thread ρ κ μ ε α) (m' : μ) (d' : δ) (m₀ : μ) (d₀ : δ) : Prop where
  /-- A thread that has the lock has begun after them. -/
  left : ∀ {i q p}, T i = .holding q p → LeftOf D A (S.body q) m₀ d₀ p m' d'
  /-- A reader goes on reading. -/
  silent : ∀ {i q p}, T i = .holding q p → S.shared q → p.Silent S.quiet
  /-- A writer is alone. -/
  alone : ∀ {i q p}, T i = .holding q p → ¬S.shared q → ∀ {j q' p'}, T j = .holding q' p' → j = i
  /-- While there are only readers, nothing changes. -/
  still : (∀ i q p, T i = .holding q p → S.shared q) → m' = m₀ ∧ d' = d₀

section Linear

variable {D : Device ρ δ} {S : Service D κ μ ε α} {A : Event Γ μ δ → Prop} {m m' m'' m₀ : μ}
  {d d' d'' d₀ : δ} {T : ι → Thread ρ κ μ ε α} {i : ι} {q : κ} {p p' : Prog ρ μ ε α} [DecidableEq ι]

/-- A step of a reader changes nothing. -/
theorem Move.silent (h : Move D A p m d p' m' d') (hp : p.Silent S.quiet) :
    p'.Silent S.quiet ∧ m' = m ∧ d' = d := by
  cases h with
  | get => exact ⟨hp _, rfl, rfl⟩
  | set => exact hp.elim
  | call hs _ => exact ⟨hp.2 _, rfl, S.step_quiet hp.1 hs⟩

/-- A thread that has the lock after one thread has done something. -/
theorem holding_update {t : Thread ρ κ μ ε α} {j : ι} (h : Function.update T i t j = .holding q p) :
    j = i ∧ t = .holding q p ∨ j ≠ i ∧ T j = .holding q p := by
  by_cases hj : j = i
  · subst hj
    rw [Function.update_self] at h
    exact .inl ⟨rfl, h⟩
  · rw [Function.update_of_ne hj] at h
    exact .inr ⟨hj, h⟩

namespace Linear

/-- A thread makes a request. -/
theorem request (h : Linear S A T m' d' m₀ d₀) (hi : T i = .idle) :
    Linear S A (Function.update T i (.waiting q)) m' d' m₀ d₀ := by
  have hback : ∀ {j q' p}, Function.update T i (.waiting q) j = .holding q' p →
      T j = .holding q' p := by
    intro j q' p hj
    rcases holding_update hj with ⟨-, ⟨⟩⟩ | ⟨-, hj⟩
    exact hj
  refine ⟨fun hj ↦ h.left (hback hj), fun hj ↦ h.silent (hback hj),
    fun hj hq _ _ _ hk ↦ h.alone (hback hj) hq (hback hk), fun hall ↦ h.still fun j q' p hj ↦ ?_⟩
  have hne : j ≠ i := by
    rintro rfl
    rw [hi] at hj
    cases hj
  exact hall j q' p ((Function.update_of_ne hne _ _).trans hj)

/-- A thread gets the lock. -/
theorem acquire (h : Linear S A T m' d' m₀ d₀) (hi : T i = .waiting q)
    (hfree : ∀ j q' p, T j = .holding q' p → S.shared q ∧ S.shared q') :
    Linear S A (Function.update T i (.holding q (S.body q))) m' d' m₀ d₀ := by
  obtain ⟨rfl, rfl⟩ := h.still fun j q' p hj ↦ (hfree j q' p hj).2
  refine ⟨fun hj ↦ ?_, fun hj ↦ ?_, fun hj hq _ _ _ hk ↦ ?_, fun _ ↦ ⟨rfl, rfl⟩⟩
  · rcases holding_update hj with ⟨-, ⟨⟩⟩ | ⟨-, hj⟩
    · exact .refl _ _ _
    · exact h.left hj
  · rcases holding_update hj with ⟨-, ⟨⟩⟩ | ⟨-, hj⟩
    · exact S.silent
    · exact h.silent hj
  · rcases holding_update hj with ⟨rfl, ⟨⟩⟩ | ⟨-, hj⟩
    · rcases holding_update hk with ⟨hk, -⟩ | ⟨-, hk⟩
      · exact hk
      · exact absurd (hfree _ _ _ hk).1 hq
    · exact absurd (hfree _ _ _ hj).2 hq

/-- A thread that has the lock takes a step. -/
theorem move (h : Linear S A T m' d' m₀ d₀) (hi : T i = .holding q p)
    (hm : Move D A p m' d' p' m'' d'') :
    Linear S A (Function.update T i (.holding q p')) m'' d'' m₀ d₀ := by
  have hback : ∀ {j q' p''}, Function.update T i (.holding q p') j = .holding q' p'' →
      ∃ p, T j = .holding q' p := by
    intro j q' p'' hj
    rcases holding_update hj with ⟨rfl, ⟨⟩⟩ | ⟨-, hj⟩
    · exact ⟨p, hi⟩
    · exact ⟨p'', hj⟩
  -- a reader has changed nothing, and a writer is alone
  have hother : ∀ {j q' p''}, j ≠ i → T j = .holding q' p'' →
      S.shared q ∧ m'' = m' ∧ d'' = d' := by
    intro j q' p'' hne hj
    by_cases hq : S.shared q
    · exact ⟨hq, (hm.silent (h.silent hi hq)).2⟩
    · exact absurd (h.alone hi hq hj) hne
  refine ⟨fun hj ↦ ?_, fun hj hq ↦ ?_, fun hj hq _ _ _ hk ↦ ?_, fun hall ↦ ?_⟩
  · rcases holding_update hj with ⟨rfl, ⟨⟩⟩ | ⟨hne, hj⟩
    · exact (h.left hi).move hm
    · obtain ⟨-, rfl, rfl⟩ := hother hne hj
      exact h.left hj
  · rcases holding_update hj with ⟨rfl, ⟨⟩⟩ | ⟨-, hj⟩
    · exact (hm.silent (h.silent hi hq)).1
    · exact h.silent hj hq
  · obtain ⟨_, hj⟩ := hback hj
    obtain ⟨_, hk⟩ := hback hk
    exact h.alone hj hq hk
  · have hq := hall i q p' (Function.update_self ..)
    obtain ⟨-, rfl, rfl⟩ := hm.silent (h.silent hi hq)
    refine h.still fun j q' p'' hj ↦ ?_
    by_cases hj' : j = i
    · obtain ⟨rfl, -⟩ : q = q' ∧ p = p'' := by
        rw [hj', hi] at hj
        injection hj with hqq hpp
        exact ⟨hqq, hpp⟩
      exact hq
    · exact hall j q' p'' ((Function.update_of_ne hj' _ _).trans hj)

/-- A thread gives the lock back: its request is the last one of those that have been answered. -/
theorem release {r : Except ε α} (h : Linear S A T m' d' m₀ d₀)
    (hi : T i = .holding q (Prog.ofExcept r)) :
    (∃ tr, Exec D (S.body q) m₀ d₀ tr (.ofExcept r m' d') ∧ ∀ ev ∈ tr, A ev) ∧
      Linear S A (Function.update T i .idle) m' d' m' d' := by
  refine ⟨h.left hi [] _ (Exec.ofExcept r m' d') fun _ hev ↦ absurd hev List.not_mem_nil, ?_⟩
  have hback : ∀ {j q' p}, Function.update T i .idle j = .holding q' p →
      j ≠ i ∧ T j = .holding q' p := by
    intro j q' p hj
    rcases holding_update hj with ⟨-, ⟨⟩⟩ | hj
    exact hj
  refine ⟨fun hj ↦ ?_, fun hj ↦ h.silent (hback hj).2,
    fun hj hq _ _ _ hk ↦ h.alone (hback hj).2 hq (hback hk).2, fun _ ↦ ⟨rfl, rfl⟩⟩
  -- if another thread has the lock, too, all are readers
  obtain ⟨hne, hj⟩ := hback hj
  obtain ⟨rfl, rfl⟩ := h.still fun k q' p hk ↦ by
    by_contra hq
    exact hne ((h.alone hk hq hj).trans (h.alone hk hq hi).symm)
  exact h.left hj

end Linear

/-- **Interleaved requests are linearizable**: at every moment, the requests that have been answered
could have been answered one at a time, in the order in which the lock was given back. -/
theorem Threads.linear {log : List (Done ι κ ε α)} (h : Threads S A m d log T m' d') :
    ∃ m₀ d₀, Serial S A m d log m₀ d₀ ∧ Linear S A T m' d' m₀ d₀ := by
  induction h with
  | start =>
    refine ⟨m, d, .nil, ?_, ?_, ?_, fun _ ↦ ⟨rfl, rfl⟩⟩
    · rintro i q p ⟨⟩
    · rintro i q p ⟨⟩
    · rintro i q p ⟨⟩
  | request _ i q hi ih =>
    obtain ⟨m₀, d₀, hs, hl⟩ := ih
    exact ⟨m₀, d₀, hs, hl.request hi⟩
  | acquire _ hi hfree ih =>
    obtain ⟨m₀, d₀, hs, hl⟩ := ih
    exact ⟨m₀, d₀, hs, hl.acquire hi hfree⟩
  | move _ hi hm ih =>
    obtain ⟨m₀, d₀, hs, hl⟩ := ih
    exact ⟨m₀, d₀, hs, hl.move hi hm⟩
  | release _ hi ih =>
    obtain ⟨m₀, d₀, hs, hl⟩ := ih
    obtain ⟨⟨tr, hx, hA⟩, hl'⟩ := hl.release hi
    exact ⟨_, _, .snoc hs hx hA, hl'⟩

/-- **What may have been done besides**: if the requests that have been answered do not account for
the memory and the device, a single writer is under way, and a run of its program does. -/
theorem Threads.exists_serial {log : List (Done ι κ ε α)} (h : Threads S A m d log T m' d') :
    ∃ m₀ d₀, Serial S A m d log m₀ d₀ ∧ ((m' = m₀ ∧ d' = d₀) ∨
      ∃ i q p tr o, T i = .holding q p ∧ ¬S.shared q ∧ Exec D (S.body q) m₀ d₀ tr o ∧
        (∀ ev ∈ tr, A ev) ∧ o.device = d') := by
  obtain ⟨m₀, d₀, hs, hl⟩ := h.linear
  refine ⟨m₀, d₀, hs, ?_⟩
  by_cases hall : ∀ i q p, T i = .holding q p → S.shared q
  · exact .inl (hl.still hall)
  · obtain ⟨i, hi⟩ := not_forall.1 hall
    obtain ⟨q, hq⟩ := not_forall.1 hi
    obtain ⟨p, hp⟩ := not_forall.1 hq
    obtain ⟨hT, hunique⟩ := Classical.not_imp.1 hp
    obtain ⟨o, hx, ho⟩ := Exec.exists_here D p m' d'
    obtain ⟨tr, hx', hA⟩ := hl.left hT [] o hx fun _ hev ↦ absurd hev List.not_mem_nil
    exact .inr ⟨i, q, p, tr, o, hT, hunique, hx', hA, ho⟩

end Linear

/-! ## One at a time -/

section Idle

variable {D : Device ρ δ} {S : Service D κ μ ε α} {A : Event Γ μ δ → Prop} {m m' m'' : μ}
  {d d' d'' : δ} {T : ι → Thread ρ κ μ ε α} {i : ι} {q : κ} {p : Prog ρ μ ε α} [DecidableEq ι]
  {log : List (Done ι κ ε α)}

/-- A thread that has the lock goes through the rest of its program, and gives the lock back. -/
theorem Threads.finish {tr : List (Event Γ μ δ)} {r : Except ε α} (h : Threads S A m d log T m' d')
    (hi : T i = .holding q p) (hx : Exec D p m' d' tr (.ofExcept r m'' d''))
    (hA : ∀ ev ∈ tr, A ev) :
    Threads S A m d (log ++ [⟨i, q, r⟩]) (Function.update T i .idle) m'' d'' := by
  generalize ho : Outcome.ofExcept r m'' d'' = o at hx
  induction hx generalizing T with
  | pure =>
    obtain ⟨rfl, rfl, rfl⟩ := Outcome.ofExcept_eq_ok.1 ho
    exact h.release hi
  | throw =>
    obtain ⟨rfl, rfl, rfl⟩ := Outcome.ofExcept_eq_threw.1 ho
    exact h.release hi
  | cut => cases r <;> cases ho
  | get _ ih =>
    have hdone := ih (h.move hi .get) (Function.update_self ..) hA ho
    rwa [Function.update_idem] at hdone
  | set _ ih =>
    have hdone := ih (h.move hi .set) (Function.update_self ..) hA ho
    rwa [Function.update_idem] at hdone
  | call hs _ ih =>
    rw [List.forall_mem_cons] at hA
    have hdone := ih (h.move hi (.call hs hA.1)) (Function.update_self ..) hA.2 ho
    rwa [Function.update_idem] at hdone

/-- **While no thread has the lock**, what may have been done is what the requests of the log do one
at a time. -/
theorem threads_idle_iff :
    Threads S A m d log (fun _ : ι ↦ .idle) m' d' ↔ Serial S A m d log m' d' := by
  constructor
  · intro h
    obtain ⟨_, _, hs, hl⟩ := h.linear
    obtain ⟨rfl, rfl⟩ := hl.still fun i q p hi ↦ nomatch hi
    exact hs
  · intro h
    induction h with
    | nil => exact .start
    | @snoc log m₁ m₂ d₁ d₂ i q r tr _ hx hA ih =>
      have hgot := (ih.request i q rfl).acquire (Function.update_self ..) fun j q' p hj ↦ by
        rcases holding_update hj with ⟨-, ⟨⟩⟩ | ⟨-, ⟨⟩⟩
      have hdone := hgot.finish (Function.update_self ..) hx hA
      rwa [Function.update_idem, Function.update_idem, Function.update_eq_self_iff.2 rfl] at hdone

end Idle

end Crash
