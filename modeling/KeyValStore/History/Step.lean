import KeyValStore.Records.Codecs
import KeyValStore.Model.DB

/-!
# Histories

A history is a sequence of steps of the world: a store is opened on a directory, operations are
carried out one after the other, and the session ends with a close or a crash.  Each step is a run
of a program of the model on a reliable directory, and it is recorded with the calls it made.  A
program may be cut short before any call, and may throw.
-/

set_option autoImplicit false

namespace KeyValStore

open Crash

/-- The calls made in a step. -/
abbrev Trace := List (Event (Call Mark) DB Disk)

/-! ## Operations -/

/-- The operations that change a store. -/
inductive Op
  | put (key value : Bytes)
  | del (key : Bytes)
  | flush
  | compact
  deriving DecidableEq

namespace Op

/-- The program of an operation. -/
def run (sz : Sizing) : Op → Io DB Unit
  | put key value => DB.put sz key value
  | del key => DB.del sz key
  | flush => DB.flushMemtable sz
  | compact => DB.compact sz

/-- The record an operation logs. -/
def record : Op → Option WalRecord
  | put key value => some ⟨WalOp.put, key, value⟩
  | del key => some ⟨WalOp.del, key, []⟩
  | flush => none
  | compact => none

/-- What an operation does to a key: nothing, or give it a value, or delete it. -/
def effect (key : Bytes) : Op → Option (Option Bytes)
  | put k value => if k = key then some (some value) else none
  | del k => if k = key then some none else none
  | flush => none
  | compact => none

/-- What an operation makes of a map. -/
def apply (op : Op) (v : Bytes → Option Bytes) : Bytes → Option Bytes := fun key ↦
  (op.effect key).getD (v key)

/-- What a sequence of operations makes of a map. -/
def applyAll (ops : List Op) (v : Bytes → Option Bytes) : Bytes → Option Bytes :=
  ops.foldl (fun v op ↦ op.apply v) v

/-- The last `put` or `del` of a key in a sequence of operations. -/
def last (ops : List Op) (key : Bytes) : Option (Option Bytes) :=
  ops.reverse.findSome? (effect key)

/-- **A sequence of operations writes the last value that is written.** -/
theorem applyAll_apply (ops : List Op) (v : Bytes → Option Bytes) (key : Bytes) :
    applyAll ops v key = (last ops key).getD (v key) := by
  induction ops generalizing v with
  | nil => rfl
  | cons op ops ih =>
    have hlast : last (op :: ops) key = (last ops key).or (op.effect key) := by
      rw [last, List.reverse_cons, List.findSome?_append, List.findSome?_cons,
        List.findSome?_nil, last]
      cases op.effect key <;> rfl
    rw [applyAll, List.foldl_cons, ← applyAll, ih, hlast]
    cases last ops key <;> rfl

theorem applyAll_append (ops ops' : List Op) (v : Bytes → Option Bytes) :
    applyAll (ops ++ ops') v = applyAll ops' (applyAll ops v) :=
  List.foldl_append

end Op

/-! ## Steps -/

/-- A directory on which no store is open, or an open store. -/
inductive World
  | closed (d : Disk)
  | opened (db : DB) (d : Disk)

/-- What happens in a step. -/
inductive Label
  | opened (opts : Options)
  | openCut (opts : Options)
  | openThrew (opts : Options)
  | did (op : Op)
  | didCut (op : Op)
  | threw (op : Op)
  | crashed
  | closed
  | closeCut
  | closeThrew

/-- **The steps of the world.**  A crash may come between two operations, or cut an operation short.
An exception leaves the object as it is; when it leaves the destructor the process is terminated. -/
inductive Step (sz : Sizing) : World → Label → Trace → World → Prop
  | opened {opts : Options} {d d' : Disk} {db : DB} {tr : Trace}
      (h : Exec reliable DB.recover { opts } d tr (.ok () db d')) :
      Step sz (.closed d) (.opened opts) tr (.opened db d')
  | openCut {opts : Options} {d d' d'' : Disk} {tr : Trace}
      (h : Exec reliable DB.recover { opts } d tr (.cut d')) (hc : d'.Crashed d'') :
      Step sz (.closed d) (.openCut opts) tr (.closed d'')
  | openThrew {opts : Options} {d d' : Disk} {db : DB} {e : Error} {tr : Trace}
      (h : Exec reliable DB.recover { opts } d tr (.threw e db d')) :
      Step sz (.closed d) (.openThrew opts) tr (.closed d')
  | did {op : Op} {db db' : DB} {d d' : Disk} {tr : Trace}
      (h : Exec reliable (op.run sz) db d tr (.ok () db' d')) :
      Step sz (.opened db d) (.did op) tr (.opened db' d')
  | didCut {op : Op} {db : DB} {d d' d'' : Disk} {tr : Trace}
      (h : Exec reliable (op.run sz) db d tr (.cut d')) (hc : d'.Crashed d'') :
      Step sz (.opened db d) (.didCut op) tr (.closed d'')
  | threw {op : Op} {db db' : DB} {d d' : Disk} {e : Error} {tr : Trace}
      (h : Exec reliable (op.run sz) db d tr (.threw e db' d')) :
      Step sz (.opened db d) (.threw op) tr (.opened db' d')
  | crashed {db : DB} {d d' : Disk} (hc : d.Crashed d') :
      Step sz (.opened db d) .crashed [] (.closed d')
  | closed {db db' : DB} {d d' : Disk} {tr : Trace}
      (h : Exec reliable (DB.close sz) db d tr (.ok () db' d')) :
      Step sz (.opened db d) .closed tr (.closed d')
  | closeCut {db : DB} {d d' d'' : Disk} {tr : Trace}
      (h : Exec reliable (DB.close sz) db d tr (.cut d')) (hc : d'.Crashed d'') :
      Step sz (.opened db d) .closeCut tr (.closed d'')
  | closeThrew {db db' : DB} {d d' d'' : Disk} {e : Error} {tr : Trace}
      (h : Exec reliable (DB.close sz) db d tr (.threw e db' d')) (hc : d'.Crashed d'') :
      Step sz (.opened db d) .closeThrew tr (.closed d'')

/-- **The histories of the world**, with what happened in them and the calls that were made. -/
inductive Run (sz : Sizing) (w : World) : List (Label × Trace) → World → Prop
  | nil : Run sz w [] w
  | snoc {hist : List (Label × Trace)} {w' w'' : World} {l : Label} {tr : Trace}
      (h : Run sz w hist w') (hs : Step sz w' l tr w'') : Run sz w (hist ++ [(l, tr)]) w''

/-- **The run rule**: what the steps of a history keep holds at its end. -/
theorem Run.keeps {sz : Sizing} {w w' : World} {hist : List (Label × Trace)} (h : Run sz w hist w')
    {I : List (Label × Trace) → World → Prop} {G : Label × Trace → Prop} (h0 : I [] w)
    (hstep : ∀ {hist w' l tr w''}, I hist w' → Step sz w' l tr w'' → G (l, tr) →
      I (hist ++ [(l, tr)]) w'') (hG : ∀ s ∈ hist, G s) : I hist w' := by
  induction h with
  | nil => exact h0
  | snoc _ hs ih =>
    rw [List.forall_mem_append] at hG
    exact hstep (ih hG.1) hs (hG.2 _ (List.mem_singleton_self _))

theorem Run.append {sz : Sizing} {w w' w'' : World} {hist hist' : List (Label × Trace)}
    (h : Run sz w hist w') (h' : Run sz w' hist' w'') : Run sz w (hist ++ hist') w'' := by
  induction h' with
  | nil => rwa [List.append_nil]
  | snoc _ hs ih =>
    rw [← List.append_assoc]
    exact .snoc ih hs

/-! ## What is assumed of a history -/

/-- The process died in the middle of an operation, of opening or of closing. -/
def Label.IsCut : Label → Prop
  | openCut _ => True
  | didCut _ => True
  | closeCut => True
  | _ => False

/-- All strings a step brings into the store are short. -/
def Label.IsShort : Label → Prop
  | did op => ∀ r ∈ op.record, Short r.key ∧ Short r.value
  | didCut op => ∀ r ∈ op.record, Short r.key ∧ Short r.value
  | threw op => ∀ r ∈ op.record, Short r.key ∧ Short r.value
  | _ => True

/-- A condition on the building of a table: on its entries, on the object, which has just taken the
number of the table, and on the directory. -/
def OnBuild (P : Entries → DB → Disk → Prop) (ev : Event (Call Mark) DB Disk) : Prop :=
  ∀ path entries, ev.call = .mark (.build path entries) → P entries ev.mem ev.disk

theorem OnBuild.mono {P P' : Entries → DB → Disk → Prop} {ev : Event (Call Mark) DB Disk}
    (h : OnBuild P ev) (hP : ∀ entries db d, P entries db d → P' entries db d) : OnBuild P' ev :=
  fun path entries hcall ↦ hP _ _ _ (h path entries hcall)

/-- The Bloom filter of a table stays below `2 ^ 32` bits. -/
def BloomFits (sz : Sizing) (entries : Entries) : Prop := sz.ceilBits entries.size ≤ 2 ^ 31

/-- The table could take its number without wrapping the 64-bit counter around. -/
def NoWrap (db : DB) : Prop := 0 < db.nextSstId

instance (db : DB) : Decidable (NoWrap db) := inferInstanceAs (Decidable (0 < db.nextSstId))

end KeyValStore
