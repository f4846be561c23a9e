import Mathlib

/-!
# Layered maps

A *layer* says of each key that it knows nothing about it, that the key has been deleted, or what
its value is.  Layers are put over one another (`above`, `stack`), and what can be seen through them
is a map (`visible`): the topmost layer that knows a key decides.

Writing into the top layer is writing into the map that is seen (`visible_write_above`), it does not
matter whether a layer is there once or twice (`above_above_self`), and what lies at the bottom
needs no deletion marks (`visible_live`).
-/

set_option autoImplicit false

namespace Overlay

variable {K V : Type}

/-- What is known of each key: `none` nothing, `some none` that it is deleted, `some (some v)` that
its value is `v`. -/
abbrev Layer (K V : Type) := K → Option (Option V)

/-- The map that is seen through a layer. -/
def visible (l : Layer K V) : K → Option V := fun k ↦ (l k).join

/-- The layer that knows nothing. -/
def blank : Layer K V := fun _ ↦ none

/-- One layer above another. -/
def above (a b : Layer K V) : Layer K V := fun k ↦ (a k).or (b k)

/-- Layers over one another, the topmost first. -/
def stack (ls : List (Layer K V)) : Layer K V := ls.foldr above blank

/-- The values of a layer, without its deletion marks. -/
def live (l : Layer K V) : Layer K V := fun k ↦ (l k).join.map some

/-! ## Stacking -/

@[simp] theorem blank_above (a : Layer K V) : above blank a = a := by
  funext k
  simp [above, blank]

@[simp] theorem above_blank (a : Layer K V) : above a blank = a := by
  funext k
  simp [above, blank]

/-- **A layer twice is a layer once.** -/
@[simp] theorem above_above_self (a b : Layer K V) : above a (above a b) = above a b := by
  funext k
  cases h : a k <;> simp [above, h]

@[simp] theorem stack_nil : stack ([] : List (Layer K V)) = blank := rfl

@[simp] theorem stack_cons (a : Layer K V) (ls : List (Layer K V)) :
    stack (a :: ls) = above a (stack ls) := rfl

/-- **The bottom needs no deletion marks.** -/
@[simp] theorem visible_live (l : Layer K V) : visible (live l) = visible l := by
  funext k
  cases h : l k with
  | none => simp [visible, live, h]
  | some w => cases w <;> simp [visible, live, h]

/-- What is seen through two layers, when the upper one is asked first. -/
theorem visible_above (a b : Layer K V) (k : K) :
    visible (above a b) k = match a k with | some w => w | none => visible b k := by
  cases h : a k <;> simp [visible, above, h]

theorem visible_above_congr (a : Layer K V) {b c : Layer K V} (h : visible b = visible c) :
    visible (above a b) = visible (above a c) := by
  funext k
  rw [visible_above, visible_above, h]

/-! ## Writing -/

section Write

variable [DecidableEq K]

/-- Write into a layer: a value, or a deletion mark. -/
def write (l : Layer K V) (w : K × Option V) : Layer K V := Function.update l w.1 (some w.2)

/-- A sequence of writes. -/
def writes (l : Layer K V) (ws : List (K × Option V)) : Layer K V := ws.foldl write l

@[simp] theorem writes_nil (l : Layer K V) : writes l [] = l := rfl

@[simp] theorem writes_cons (l : Layer K V) (w : K × Option V) (ws : List (K × Option V)) :
    writes l (w :: ws) = writes (write l w) ws := rfl

theorem writes_append (l : Layer K V) (as bs : List (K × Option V)) :
    writes l (as ++ bs) = writes (writes l as) bs :=
  List.foldl_append

theorem write_above (a b : Layer K V) (w : K × Option V) :
    write (above a b) w = above (write a w) b := by
  funext k
  by_cases h : k = w.1
  · subst h
    simp [write, above]
  · simp [write, above, Function.update_of_ne h]

/-- **Writing into the top layer is writing into what is seen.** -/
theorem visible_write (l : Layer K V) (w : K × Option V) :
    visible (write l w) = Function.update (visible l) w.1 w.2 := by
  funext k
  by_cases h : k = w.1
  · subst h
    simp [visible, write]
  · simp [visible, write, Function.update_of_ne h]

/-- A layer knows a key after some writes exactly if it did before or the key was written. -/
theorem writes_eq_none_iff {l : Layer K V} {ws : List (K × Option V)} {k : K} :
    writes l ws k = none ↔ l k = none ∧ ∀ w ∈ ws, w.1 ≠ k := by
  induction ws generalizing l with
  | nil => simp
  | cons w ws ih =>
    rw [writes_cons, ih, List.forall_mem_cons]
    by_cases h : w.1 = k
    · simp [write, h]
    · simp [write, h, Function.update_of_ne (Ne.symm h)]

end Write

end Overlay
