import Mathlib

/-!
# Programs over a volatile memory and a durable device

A `Prog` is a program that owns a memory `μ`, lost when the process dies, and issues calls to a
device whose state `δ` outlives it.  Nothing here says what the calls are: a `Device` gives each
call a relation between the state it is issued in, the answer and the state it leaves, so one
program can be run on a device whose calls always succeed and on one whose calls may fail.

* `Exec D p m d tr o` — the program `p`, started with memory `m` on the device state `d`, issues
  the calls of the trace `tr` and ends in the outcome `o`.  Besides returning and throwing, a run
  may be `cut`: the process dies just before some call, and all that is left is the device.
* `Prog.wp` — the weakest precondition, with one postcondition for each way of ending and a
  `Watch`, which says what every call may assume and what has to hold whenever one is issued.
* `Exec.of_wp` — the two agree: what `wp` promises holds of every run.

The rules (`wp_bind`, `wp_mono`, `wp_forM`) are what proofs about programs use; they never unfold
`Exec`.  `wp_silent` passes over a program that leaves the memory alone, when all that matters is
which calls it makes.
-/

set_option autoImplicit false

namespace Crash

/-- A program whose calls `c : Γ` are answered by a value of `ρ c`, which owns a memory `μ` and may
throw an `ε`. -/
inductive Prog {Γ : Type} (ρ : Γ → Type) (μ ε α : Type) : Type
  | pure (a : α)
  | throw (e : ε)
  | get (k : μ → Prog ρ μ ε α)
  | set (m : μ) (p : Prog ρ μ ε α)
  | call (c : Γ) (k : ρ c → Prog ρ μ ε α)

variable {Γ : Type} {ρ : Γ → Type} {μ ε α β δ : Type}

/-! ## The monad -/

namespace Prog

/-- Run `p`, then `f` on what it returns. -/
protected def bind : Prog ρ μ ε α → (α → Prog ρ μ ε β) → Prog ρ μ ε β
  | pure a, f => f a
  | throw e, _ => throw e
  | get k, f => get fun m ↦ (k m).bind f
  | set m p, f => set m (p.bind f)
  | call c k, f => call c fun r ↦ (k r).bind f

instance : Monad (Prog ρ μ ε) where
  pure := Prog.pure
  bind := Prog.bind

instance : MonadStateOf μ (Prog ρ μ ε) where
  get := Prog.get Prog.pure
  set m := Prog.set m (Prog.pure ())
  modifyGet f := Prog.get fun m ↦ Prog.set (f m).2 (Prog.pure (f m).1)

/-- Issue a single call. -/
def issue (c : Γ) : Prog ρ μ ε (ρ c) := Prog.call c Prog.pure

/-- Throw what a pure computation throws, and return what it returns. -/
def ofExcept : Except ε α → Prog ρ μ ε α
  | .ok a => Prog.pure a
  | .error e => Prog.throw e

end Prog

theorem Prog.bind_assoc {γ : Type} (p : Prog ρ μ ε α) (f : α → Prog ρ μ ε β)
    (g : β → Prog ρ μ ε γ) : p >>= f >>= g = p >>= fun a ↦ f a >>= g := by
  show (p.bind f).bind g = p.bind fun a ↦ (f a).bind g
  induction p with
  | pure a => rfl
  | throw e => rfl
  | get k ih => exact congrArg Prog.get (funext fun m ↦ ih m)
  | set m p ih => exact congrArg (Prog.set m) ih
  | call c k ih => exact congrArg (Prog.call c) (funext fun r ↦ ih r)

/-! ## Running a program -/

/-- What the calls do.  `step c d r d'` says that `c`, issued in the state `d`, may answer `r` and
leave the state `d'`; `crash d d'` says that `d'` may be found where `d` was when the power went. -/
structure Device (ρ : Γ → Type) (δ : Type) where
  /-- What a call may answer and what it may leave behind. -/
  step : (c : Γ) → δ → ρ c → δ → Prop
  /-- What may survive a crash. -/
  crash : δ → δ → Prop

/-- A call at the moment it is issued. -/
structure Event (Γ μ δ : Type) where
  /-- The call. -/
  call : Γ
  /-- The memory of the process that issues it. -/
  mem : μ
  /-- The state of the device before the call. -/
  disk : δ

/-- How a run ends: it returns, it throws, or the process dies and only the device is left. -/
inductive Outcome (μ ε α δ : Type)
  | ok (a : α) (m : μ) (d : δ)
  | threw (e : ε) (m : μ) (d : δ)
  | cut (d : δ)

/-- The runs of a program.  A run can be cut before any call, so the device states a crash can hit
are exactly those in which some call is issued. -/
inductive Exec (D : Device ρ δ) :
    Prog ρ μ ε α → μ → δ → List (Event Γ μ δ) → Outcome μ ε α δ → Prop
  | pure {a : α} {m : μ} {d : δ} : Exec D (.pure a) m d [] (.ok a m d)
  | throw {e : ε} {m : μ} {d : δ} : Exec D (.throw e) m d [] (.threw e m d)
  | get {k : μ → Prog ρ μ ε α} {m : μ} {d : δ} {tr : List (Event Γ μ δ)}
      {o : Outcome μ ε α δ} (h : Exec D (k m) m d tr o) : Exec D (.get k) m d tr o
  | set {p : Prog ρ μ ε α} {m m' : μ} {d : δ} {tr : List (Event Γ μ δ)}
      {o : Outcome μ ε α δ} (h : Exec D p m' d tr o) : Exec D (.set m' p) m d tr o
  | cut {c : Γ} {k : ρ c → Prog ρ μ ε α} {m : μ} {d : δ} : Exec D (.call c k) m d [] (.cut d)
  | call {c : Γ} {k : ρ c → Prog ρ μ ε α} {m : μ} {d d' : δ} {r : ρ c}
      {tr : List (Event Γ μ δ)} {o : Outcome μ ε α δ} (hs : D.step c d r d')
      (h : Exec D (k r) m d' tr o) : Exec D (.call c k) m d (⟨c, m, d⟩ :: tr) o

/-- Every call of the device can be answered. -/
def Device.Total (D : Device ρ δ) : Prop := ∀ c d, ∃ r d', D.step c d r d'

/-- **A program always runs to an end**: on a device that answers every call there is a run that is
not cut. -/
theorem Exec.exists_run {D : Device ρ δ} (hD : D.Total) (p : Prog ρ μ ε α) (m : μ) (d : δ) :
    ∃ tr o, Exec D p m d tr o ∧ ∀ d', o ≠ .cut d' := by
  induction p generalizing m d with
  | pure a => exact ⟨[], _, .pure, by simp⟩
  | throw e => exact ⟨[], _, .throw, by simp⟩
  | get k ih =>
    obtain ⟨tr, o, h, ho⟩ := ih m m d
    exact ⟨tr, o, .get h, ho⟩
  | set m' p ih =>
    obtain ⟨tr, o, h, ho⟩ := ih m' d
    exact ⟨tr, o, .set h, ho⟩
  | call c k ih =>
    obtain ⟨r, d', hs⟩ := hD c d
    obtain ⟨tr, o, h, ho⟩ := ih r m d'
    exact ⟨_, o, .call hs h, ho⟩

/-- Runs can be put together. -/
theorem Exec.bind {D : Device ρ δ} {p : Prog ρ μ ε α} {f : α → Prog ρ μ ε β} {m m' : μ} {d d' : δ}
    {a : α} {tr tr' : List (Event Γ μ δ)} {o : Outcome μ ε β δ} (hp : Exec D p m d tr (.ok a m' d'))
    (hf : Exec D (f a) m' d' tr' o) : Exec D (p >>= f) m d (tr ++ tr') o := by
  show Exec D (p.bind f) m d (tr ++ tr') o
  generalize ho : Outcome.ok a m' d' = o' at hp
  induction hp with
  | pure =>
    cases ho
    exact hf
  | throw => cases ho
  | get _ ih => exact .get (ih ho)
  | set _ ih => exact .set (ih ho)
  | cut => cases ho
  | call hs _ ih => exact .call hs (ih ho)

/-- What the first of two programs throws, both throw. -/
theorem Exec.bind_threw {D : Device ρ δ} {p : Prog ρ μ ε α} {f : α → Prog ρ μ ε β} {m m' : μ}
    {d d' : δ} {e : ε} {tr : List (Event Γ μ δ)} (hp : Exec D p m d tr (.threw e m' d')) :
    Exec D (p >>= f) m d tr (.threw e m' d') := by
  show Exec D (p.bind f) m d tr _
  generalize ho : Outcome.threw e m' d' = o at hp
  induction hp with
  | pure => cases ho
  | throw =>
    cases ho
    exact .throw
  | get _ ih => exact .get (ih ho)
  | set _ ih => exact .set (ih ho)
  | cut => cases ho
  | call hs _ ih => exact .call hs (ih ho)

/-- A run of two programs that returns is a run of the one and then of the other. -/
theorem Exec.of_bind {D : Device ρ δ} {p : Prog ρ μ ε α} {f : α → Prog ρ μ ε β} {m m'' : μ}
    {d d'' : δ} {b : β} {tr : List (Event Γ μ δ)} (h : Exec D (p >>= f) m d tr (.ok b m'' d'')) :
    ∃ tr₁ tr₂ a m' d', tr = tr₁ ++ tr₂ ∧ Exec D p m d tr₁ (.ok a m' d') ∧
      Exec D (f a) m' d' tr₂ (.ok b m'' d'') := by
  change Exec D (p.bind f) m d tr _ at h
  induction p generalizing m d tr with
  | pure a => exact ⟨[], tr, a, m, d, rfl, .pure, h⟩
  | throw e => cases h
  | get k ih =>
    cases h with
    | get h =>
      obtain ⟨tr₁, tr₂, a, m', d', rfl, hp, hf⟩ := ih m h
      exact ⟨tr₁, tr₂, a, m', d', rfl, .get hp, hf⟩
  | set m₁ p ih =>
    cases h with
    | set h =>
      obtain ⟨tr₁, tr₂, a, m', d', rfl, hp, hf⟩ := ih h
      exact ⟨tr₁, tr₂, a, m', d', rfl, .set hp, hf⟩
  | call c k ih =>
    cases h with
    | call hs h =>
      obtain ⟨tr₁, tr₂, a, m', d', rfl, hp, hf⟩ := ih _ h
      exact ⟨_ :: tr₁, tr₂, a, m', d', rfl, .call hs hp, hf⟩

/-- What is left of the device when a run ends. -/
def Outcome.device : Outcome μ ε α δ → δ
  | .ok _ _ d => d
  | .threw _ _ d => d
  | .cut d => d

/-- The calls of a trace follow one another: each is issued in the state the one before has left. -/
inductive Chain (D : Device ρ δ) : δ → List (Event Γ μ δ) → δ → Prop
  | nil {d : δ} : Chain D d [] d
  | cons {c : Γ} {m : μ} {r : ρ c} {d d' d'' : δ} {tr : List (Event Γ μ δ)} (hs : D.step c d r d')
      (h : Chain D d' tr d'') : Chain D d (⟨c, m, d⟩ :: tr) d''

theorem Exec.chain {D : Device ρ δ} {p : Prog ρ μ ε α} {m : μ} {d : δ} {tr : List (Event Γ μ δ)}
    {o : Outcome μ ε α δ} (h : Exec D p m d tr o) : Chain D d tr o.device := by
  induction h with
  | pure => exact .nil
  | throw => exact .nil
  | get _ ih => exact ih
  | set _ ih => exact ih
  | cut => exact .nil
  | call hs _ ih => exact .cons hs ih

/-- The first state of a chain is one of those in which a call is issued, or the last one. -/
theorem Chain.start {D : Device ρ δ} {J : δ → Prop} {d d' : δ} {tr : List (Event Γ μ δ)}
    (h : Chain D d tr d') (hev : ∀ ev ∈ tr, J ev.disk) (hend : J d') : J d := by
  cases h with
  | nil => exact hend
  | cons _ _ => exact hev _ List.mem_cons_self

/-- What one device can do, a device that can do more can do. -/
theorem Exec.mono {D D' : Device ρ δ} (hD : ∀ c d r d', D.step c d r d' → D'.step c d r d')
    {p : Prog ρ μ ε α} {m : μ} {d : δ} {tr : List (Event Γ μ δ)} {o : Outcome μ ε α δ}
    (h : Exec D p m d tr o) : Exec D' p m d tr o := by
  induction h with
  | pure => exact .pure
  | throw => exact .throw
  | get _ ih => exact .get ih
  | set _ ih => exact .set ih
  | cut => exact .cut
  | call hs _ ih => exact .call (hD _ _ _ _ hs) ih

/-- A call that is carried out. -/
theorem Exec.issue {D : Device ρ δ} {c : Γ} {r : ρ c} {m : μ} {d d' : δ} (hs : D.step c d r d') :
    Exec D (Prog.issue c : Prog ρ μ ε (ρ c)) m d [⟨c, m, d⟩] (.ok r m d') :=
  .call hs .pure

/-- A call before which the process dies. -/
theorem Exec.issue_cut {D : Device ρ δ} {c : Γ} {m : μ} {d : δ} {f : ρ c → Prog ρ μ ε β} :
    Exec D ((Prog.issue c : Prog ρ μ ε (ρ c)) >>= f) m d [] (.cut d) :=
  .cut

/-! ## Weakest preconditions -/

/-- What is watched while a program runs: `assume` is taken for granted of every call that is
carried out, `always` has to hold whenever a call is issued. -/
structure Watch (Γ μ δ : Type) where
  /-- Taken for granted of every call that is carried out. -/
  assume : Event Γ μ δ → Prop
  /-- Has to hold whenever a call is issued. -/
  always : Event Γ μ δ → Prop

/-- The weakest precondition of a program: `Q` of what it returns, `E` of what it throws, and
`W.always` of every call it issues on the way. -/
def Prog.wp (D : Device ρ δ) (W : Watch Γ μ δ) (Q : α → μ → δ → Prop) (E : ε → μ → δ → Prop) :
    Prog ρ μ ε α → μ → δ → Prop
  | .pure a, m, d => Q a m d
  | .throw e, m, d => E e m d
  | .get k, m, d => (k m).wp D W Q E m d
  | .set m' p, _, d => p.wp D W Q E m' d
  | .call c k, m, d => W.always ⟨c, m, d⟩ ∧
      (W.assume ⟨c, m, d⟩ → ∀ r d', D.step c d r d' → (k r).wp D W Q E m d')

/-- What the postconditions say about an outcome. -/
def Outcome.Meets (W : Watch Γ μ δ) (Q : α → μ → δ → Prop) (E : ε → μ → δ → Prop) :
    Outcome μ ε α δ → Prop
  | .ok a m d => Q a m d
  | .threw e m d => E e m d
  | .cut d => ∃ c m, W.always ⟨c, m, d⟩

/-- **Every run keeps what the weakest precondition promises.** -/
theorem Exec.of_wp {D : Device ρ δ} {W : Watch Γ μ δ} {Q : α → μ → δ → Prop}
    {E : ε → μ → δ → Prop} {p : Prog ρ μ ε α} {m : μ} {d : δ} {tr : List (Event Γ μ δ)}
    {o : Outcome μ ε α δ} (hx : Exec D p m d tr o) (hA : ∀ ev ∈ tr, W.assume ev)
    (h : p.wp D W Q E m d) : (∀ ev ∈ tr, W.always ev) ∧ o.Meets W Q E := by
  induction hx with
  | pure => exact ⟨by simp, h⟩
  | throw => exact ⟨by simp, h⟩
  | get _ ih => exact ih hA h
  | set _ ih => exact ih hA h
  | cut => exact ⟨by simp, _, _, h.1⟩
  | call hs _ ih =>
    rw [List.forall_mem_cons] at hA
    obtain ⟨hev, ho⟩ := ih hA.2 (h.2 hA.1 _ _ hs)
    exact ⟨List.forall_mem_cons.2 ⟨h.1, hev⟩, ho⟩

/-- **A program that cannot throw has a run that returns**, on a device that answers every call. -/
theorem Exec.exists_ok {D : Device ρ δ} (hD : D.Total) {W : Watch Γ μ δ} {Q : α → μ → δ → Prop}
    {p : Prog ρ μ ε α} {m : μ} {d : δ} (hA : ∀ ev, W.assume ev)
    (h : p.wp D W Q (fun _ _ _ ↦ False) m d) :
    ∃ tr a m' d', Exec D p m d tr (.ok a m' d') ∧ (∀ ev ∈ tr, W.always ev) ∧ Q a m' d' := by
  obtain ⟨tr, o, hx, ho⟩ := Exec.exists_run hD p m d
  obtain ⟨hw, hQ⟩ := hx.of_wp (fun ev _ ↦ hA ev) h
  cases o with
  | ok a m' d' => exact ⟨tr, a, m', d', hx, hw, hQ⟩
  | threw e m' d' => exact hQ.elim
  | cut d' => exact absurd rfl (ho d')

/-- Every run of `p` that is not cut returns, and `Q` holds of how it does. -/
def Prog.Returns (D : Device ρ δ) (p : Prog ρ μ ε α) (m : μ) (d : δ) (Q : α → μ → δ → Prop) :
    Prop :=
  ∀ tr o, Exec D p m d tr o → (∃ d', o = .cut d') ∨ ∃ a m' d', o = .ok a m' d' ∧ Q a m' d'

/-- A watch that sees nothing. -/
def Watch.blind : Watch Γ μ δ := ⟨fun _ ↦ True, fun _ ↦ True⟩

theorem Prog.returns_of_wp {D : Device ρ δ} {Q : α → μ → δ → Prop} {p : Prog ρ μ ε α} {m : μ}
    {d : δ} (h : p.wp D .blind Q (fun _ _ _ ↦ False) m d) : p.Returns D m d Q := by
  intro tr o hx
  obtain ⟨-, ho⟩ := hx.of_wp (fun _ _ ↦ trivial) h
  cases o with
  | ok a m' d' => exact .inr ⟨a, m', d', rfl, ho⟩
  | threw e m' d' => exact ho.elim
  | cut d' => exact .inl ⟨d', rfl⟩

/-- Every run of `p` whose calls are as assumed and that is not cut returns, and `Q` holds of how it
does. -/
def Prog.ReturnsIf (D : Device ρ δ) (A : Event Γ μ δ → Prop) (p : Prog ρ μ ε α) (m : μ) (d : δ)
    (Q : α → μ → δ → Prop) : Prop :=
  ∀ tr o, Exec D p m d tr o → (∀ ev ∈ tr, A ev) →
    (∃ d', o = .cut d') ∨ ∃ a m' d', o = .ok a m' d' ∧ Q a m' d'

theorem Prog.returnsIf_of_wp {D : Device ρ δ} {A : Event Γ μ δ → Prop} {Q : α → μ → δ → Prop}
    {p : Prog ρ μ ε α} {m : μ} {d : δ}
    (h : p.wp D ⟨A, fun _ ↦ True⟩ Q (fun _ _ _ ↦ False) m d) : p.ReturnsIf D A m d Q := by
  intro tr o hx hA
  obtain ⟨-, ho⟩ := hx.of_wp hA h
  cases o with
  | ok a m' d' => exact .inr ⟨a, m', d', rfl, ho⟩
  | threw e m' d' => exact ho.elim
  | cut d' => exact .inl ⟨d', rfl⟩

/-- On a device that answers every call, a program that returns has a run that does, and what the
weakest precondition says of it agrees with what is known of all runs. -/
theorem Prog.Returns.exists_ok {D : Device ρ δ} (hD : D.Total) {Q Q' : α → μ → δ → Prop}
    {E : ε → μ → δ → Prop} {p : Prog ρ μ ε α} {m : μ} {d : δ} (h : p.Returns D m d Q)
    (hwp : p.wp D .blind Q' E m d) : ∃ a m' d', Q a m' d' ∧ Q' a m' d' := by
  obtain ⟨tr, o, hx, ho⟩ := Exec.exists_run hD p m d
  rcases h tr o hx with ⟨d', rfl⟩ | ⟨a, m', d', rfl, hq⟩
  · exact absurd rfl (ho d')
  · exact ⟨a, m', d', hq, (hx.of_wp (fun _ _ ↦ trivial) hwp).2⟩

/-! ## The rules -/

section Rules

variable {D : Device ρ δ} {W : Watch Γ μ δ} {Q : α → μ → δ → Prop} {E : ε → μ → δ → Prop}
  {m : μ} {d : δ}

@[simp] theorem wp_pure (a : α) : (Pure.pure a : Prog ρ μ ε α).wp D W Q E m d ↔ Q a m d :=
  Iff.rfl

@[simp] theorem wp_throw (e : ε) : (Prog.throw e : Prog ρ μ ε α).wp D W Q E m d ↔ E e m d :=
  Iff.rfl

/-- **Sequencing.** -/
@[simp] theorem wp_bind {Q : β → μ → δ → Prop} (p : Prog ρ μ ε α) (f : α → Prog ρ μ ε β) :
    (p >>= f).wp D W Q E m d ↔ p.wp D W (fun a m d ↦ (f a).wp D W Q E m d) E m d := by
  show (p.bind f).wp D W Q E m d ↔ _
  induction p generalizing m d with
  | pure a => exact Iff.rfl
  | throw e => exact Iff.rfl
  | get k ih => exact ih m
  | set m' p ih => exact ih
  | call c k ih =>
    exact and_congr_right fun _ ↦ imp_congr_right fun _ ↦
      forall_congr' fun r ↦ forall_congr' fun d' ↦ imp_congr_right fun _ ↦ ih r

@[simp] theorem wp_get {Q : μ → μ → δ → Prop} :
    (MonadState.get : Prog ρ μ ε μ).wp D W Q E m d ↔ Q m m d :=
  Iff.rfl

@[simp] theorem wp_set {Q : PUnit → μ → δ → Prop} (m' : μ) :
    (MonadStateOf.set m' : Prog ρ μ ε PUnit).wp D W Q E m d ↔ Q () m' d :=
  Iff.rfl

@[simp] theorem wp_modify {Q : PUnit → μ → δ → Prop} (f : μ → μ) :
    (modify f : Prog ρ μ ε PUnit).wp D W Q E m d ↔ Q () (f m) d :=
  Iff.rfl

theorem wp_issue {c : Γ} {Q : ρ c → μ → δ → Prop} :
    (Prog.issue c : Prog ρ μ ε (ρ c)).wp D W Q E m d ↔ W.always ⟨c, m, d⟩ ∧
      (W.assume ⟨c, m, d⟩ → ∀ r d', D.step c d r d' → Q r m d') :=
  Iff.rfl

@[simp] theorem wp_ofExcept (x : Except ε α) :
    (Prog.ofExcept x : Prog ρ μ ε α).wp D W Q E m d ↔
      (∀ a, x = .ok a → Q a m d) ∧ ∀ e, x = .error e → E e m d := by
  cases x with
  | ok a => exact ⟨fun h ↦ ⟨by rintro _ ⟨⟩; exact h, by rintro _ ⟨⟩⟩, fun h ↦ h.1 a rfl⟩
  | error e => exact ⟨fun h ↦ ⟨by rintro _ ⟨⟩, by rintro _ ⟨⟩; exact h⟩, fun h ↦ h.2 e rfl⟩

theorem wp_ofExcept_ok (a : α) :
    (Prog.ofExcept (.ok a) : Prog ρ μ ε α).wp D W Q E m d ↔ Q a m d :=
  Iff.rfl

@[simp] theorem wp_ite (c : Prop) [Decidable c] (p q : Prog ρ μ ε α) :
    (if c then p else q).wp D W Q E m d ↔ if c then p.wp D W Q E m d else q.wp D W Q E m d := by
  split <;> exact Iff.rfl

/-- **Consequence.** -/
theorem wp_mono {Q' : α → μ → δ → Prop} {E' : ε → μ → δ → Prop} {p : Prog ρ μ ε α}
    (h : p.wp D W Q E m d) (hQ : ∀ a m d, Q a m d → Q' a m d) (hE : ∀ e m d, E e m d → E' e m d) :
    p.wp D W Q' E' m d := by
  induction p generalizing m d with
  | pure a => exact hQ a m d h
  | throw e => exact hE e m d h
  | get k ih => exact ih m h
  | set m' p ih => exact ih h
  | call c k ih => exact ⟨h.1, fun hA r d' hs ↦ ih r (h.2 hA r d' hs)⟩

/-- Consequence for the watch: more may be assumed, and less has to hold. -/
theorem wp_watch {W' : Watch Γ μ δ} {p : Prog ρ μ ε α} (h : p.wp D W Q E m d)
    (hA : ∀ ev, W'.assume ev → W.assume ev) (hC : ∀ ev, W.always ev → W'.always ev) :
    p.wp D W' Q E m d := by
  induction p generalizing m d with
  | pure a => exact h
  | throw e => exact h
  | get k ih => exact ih m h
  | set m' p ih => exact ih h
  | call c k ih => exact ⟨hC _ h.1, fun hA' r d' hs ↦ ih r (h.2 (hA _ hA') r d' hs)⟩

/-- What two weakest preconditions promise holds together, under the watch of the first. -/
theorem wp_and {Q' : α → μ → δ → Prop} {E' : ε → μ → δ → Prop} {p : Prog ρ μ ε α}
    (h : p.wp D W Q E m d) (h' : p.wp D .blind Q' E' m d) :
    p.wp D W (fun a m d ↦ Q a m d ∧ Q' a m d) (fun e m d ↦ E e m d ∧ E' e m d) m d := by
  induction p generalizing m d with
  | pure a => exact ⟨h, h'⟩
  | throw e => exact ⟨h, h'⟩
  | get k ih => exact ih m h h'
  | set m' p ih => exact ih h h'
  | call c k ih => exact ⟨h.1, fun hA r d' hs ↦ ih r (h.2 hA r d' hs) (h'.2 trivial r d' hs)⟩

/-- **The loop rule**: an invariant indexed by what is left to do. -/
theorem wp_forM {ι : Type} {f : ι → Prog ρ μ ε PUnit} (I : List ι → μ → δ → Prop) (l : List ι)
    {Q : PUnit → μ → δ → Prop} (h0 : I l m d)
    (hstep : ∀ x xs m d, x :: xs <:+ l → I (x :: xs) m d →
      (f x).wp D W (fun _ m d ↦ I xs m d) E m d)
    (hend : ∀ m d, I [] m d → Q () m d) : (forM l f : Prog ρ μ ε PUnit).wp D W Q E m d := by
  induction l generalizing m d with
  | nil => exact hend m d h0
  | cons x xs ih =>
    rw [List.forM_cons, wp_bind]
    refine wp_mono (hstep x xs m d List.suffix_rfl h0) (fun _ m d h ↦ ?_) fun _ _ _ h ↦ h
    exact ih h fun y ys m d hy ↦ hstep y ys m d (hy.trans (List.suffix_cons x xs))

end Rules

/-! ## The calls a program makes -/

/-- The program makes no calls but those of the kind `ok`. -/
def Prog.Makes (ok : Γ → Prop) : Prog ρ μ ε α → Prop
  | .pure _ => True
  | .throw _ => True
  | .get k => ∀ m, (k m).Makes ok
  | .set _ p => p.Makes ok
  | .call c k => ok c ∧ ∀ r, (k r).Makes ok

/-- The program leaves the memory alone, and makes no calls but those of the kind `ok`. -/
def Prog.Silent (ok : Γ → Prop) : Prog ρ μ ε α → Prop
  | .pure _ => True
  | .throw _ => True
  | .get k => ∀ m, (k m).Silent ok
  | .set _ _ => False
  | .call c k => ok c ∧ ∀ r, (k r).Silent ok

section Silent

variable {ok : Γ → Prop}

theorem silent_pure (a : α) : (Pure.pure a : Prog ρ μ ε α).Silent ok := trivial

theorem silent_ofExcept (x : Except ε α) : (Prog.ofExcept x : Prog ρ μ ε α).Silent ok := by
  cases x <;> trivial

theorem silent_issue {c : Γ} (h : ok c) : (Prog.issue c : Prog ρ μ ε (ρ c)).Silent ok :=
  ⟨h, fun _ ↦ trivial⟩

theorem Prog.Silent.bind {p : Prog ρ μ ε α} {f : α → Prog ρ μ ε β} (hp : p.Silent ok)
    (hf : ∀ a, (f a).Silent ok) : (p >>= f).Silent ok := by
  show (p.bind f).Silent ok
  induction p with
  | pure a => exact hf a
  | throw e => trivial
  | get k ih => exact fun m ↦ ih m (hp m)
  | set m p ih => exact hp.elim
  | call c k ih => exact ⟨hp.1, fun r ↦ ih r (hp.2 r)⟩

theorem silent_forM {ι : Type} {f : ι → Prog ρ μ ε PUnit} {l : List ι}
    (h : ∀ x ∈ l, (f x).Silent ok) : (forM l f : Prog ρ μ ε PUnit).Silent ok := by
  induction l with
  | nil => trivial
  | cons x xs ih =>
    rw [List.forall_mem_cons] at h
    rw [List.forM_cons]
    exact h.1.bind fun _ ↦ ih h.2

/-- **What a silent program does**: nothing to the memory, and to the device nothing but what its
calls may do. -/
theorem wp_silent {D : Device ρ δ} {W : Watch Γ μ δ} {Q : α → μ → δ → Prop} {E : ε → μ → δ → Prop}
    {I : δ → Prop} {p : Prog ρ μ ε α} {m : μ} {d : δ} (h : p.Silent ok)
    (hstep : ∀ c d r d', ok c → I d → D.step c d r d' → I d')
    (hw : ∀ c d, ok c → I d → W.always ⟨c, m, d⟩) (hd : I d) (hQ : ∀ a d, I d → Q a m d)
    (hE : ∀ e d, I d → E e m d) : p.wp D W Q E m d := by
  induction p generalizing d with
  | pure a => exact hQ a d hd
  | throw e => exact hE e d hd
  | get k ih => exact ih m (h m) hd
  | set m' p ih => exact h.elim
  | call c k ih =>
    exact ⟨hw c d h.1 hd, fun _ r d' hs ↦ ih r (h.2 r) (hstep c d r d' h.1 hd hs)⟩

theorem Prog.Silent.makes {p : Prog ρ μ ε α} (h : p.Silent ok) : p.Makes ok := by
  induction p with
  | pure a => trivial
  | throw e => trivial
  | get k ih => exact fun m ↦ ih m (h m)
  | set m p ih => exact h.elim
  | call c k ih => exact ⟨h.1, fun r ↦ ih r (h.2 r)⟩

theorem Prog.Makes.bind {p : Prog ρ μ ε α} {f : α → Prog ρ μ ε β} (hp : p.Makes ok)
    (hf : ∀ a, (f a).Makes ok) : (p >>= f).Makes ok := by
  show (p.bind f).Makes ok
  induction p with
  | pure a => exact hf a
  | throw e => trivial
  | get k ih => exact fun m ↦ ih m (hp m)
  | set m p ih => exact ih hp
  | call c k ih => exact ⟨hp.1, fun r ↦ ih r (hp.2 r)⟩

theorem makes_forM {ι : Type} {f : ι → Prog ρ μ ε PUnit} {l : List ι}
    (h : ∀ x ∈ l, (f x).Makes ok) : (forM l f : Prog ρ μ ε PUnit).Makes ok := by
  induction l with
  | nil => trivial
  | cons x xs ih =>
    rw [List.forall_mem_cons] at h
    rw [List.forM_cons]
    exact h.1.bind fun _ ↦ ih h.2

/-- A program issues no calls but those it makes, and does to the device nothing but what they may
do. -/
theorem wp_makes {D : Device ρ δ} {W : Watch Γ μ δ} {I : δ → Prop} {p : Prog ρ μ ε α}
    {m : μ} {d : δ} (h : p.Makes ok) (hstep : ∀ c d r d', ok c → I d → D.step c d r d' → I d')
    (hw : ∀ c m d, ok c → I d → W.always ⟨c, m, d⟩) (hd : I d) :
    p.wp D W (fun _ _ d ↦ I d) (fun _ _ d ↦ I d) m d := by
  induction p generalizing m d with
  | pure a => exact hd
  | throw e => exact hd
  | get k ih => exact ih m (h m) hd
  | set m' p ih => exact ih h hd
  | call c k ih =>
    exact ⟨hw c m d h.1 hd, fun _ r d' hs ↦ ih r (h.2 r) (hstep c d r d' h.1 hd hs)⟩

end Silent

end Crash
