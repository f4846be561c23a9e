import KeyValStore.Repl.Commands
import KeyValStore.History.Serves

/-!
# What the command line shows

`Transcript` is what a user of `main` should see: after each prompt what a plain map says to the
command on the line.  `wp_main` is the rule by which it is proved that this is what a run of `main`
writes: whatever stands for a map, a command has to turn into what stands for the map it makes
(`Command.Served`), and a `get` has to answer from it.
-/

set_option autoImplicit false

namespace KeyValStore

open Crash

namespace Repl

/-! ## What a plain map says -/

/-- The operation, if the command is one. -/
def Command.op? : Command → Option Op
  | put key value => some (.put key value)
  | del key => some (.del key)
  | flush => some .flush
  | compact => some .compact
  | _ => none

/-- What is shown for a command when the store stands for the map `v`.  It does not say what the
stats are. -/
def Command.Prints (v : Bytes → Option Bytes) : Command → Bytes → Prop
  | nothing, t => t = []
  | misused usage, t => t = usage
  | put _ _, t => t = okText
  | get key, t => t = valueText (v key)
  | del _, t => t = okText
  | stats, t => ∃ s, t = statsText s
  | flush, t => ∃ s, t = tablesText s
  | compact, t => ∃ s, t = tablesText s
  | help, t => t = Repl.help
  | quit, t => t = []
  | unknown cmd, t => t = unknownText cmd

/-- The operations on some lines. -/
def opsIn (ls : List Bytes) : List Op := ls.filterMap fun line ↦ (parse line).op?

/-- **What is shown for some lines**, none of which ends the loop, when the store stands for `v`
before them. -/
inductive Transcript (v : Bytes → Option Bytes) : List Bytes → Bytes → Prop
  | nil : Transcript v [] []
  | snoc {ls : List Bytes} {text t : Bytes} {line : Bytes} (h : Transcript v ls text)
      (hquit : parse line ≠ .quit) (ht : (parse line).Prints (Op.applyAll (opsIn ls) v) t) :
      Transcript v (ls ++ [line]) (text ++ (prompt ++ t))

/-- The lines up to the one that ends the loop. -/
def handled (all : List Bytes) : List Bytes := all.takeWhile fun line ↦ parse line ≠ .quit

/-- What is written before the first prompt, if `n` records have been replayed. -/
def greeting (dir : Bytes) (n : ℕ) : Bytes := banner dir ++ recoveryText n ++ hint

/-- What is written in a run whose transcript is `text`. -/
def session (dir : Bytes) (n : ℕ) (text : Bytes) : Bytes :=
  greeting dir n ++ (text ++ prompt) ++ farewell

/-- All lines are short. -/
def IsShort (stdin : Bytes) : Prop := ∀ line ∈ lines stdin, Short line

section Lines

variable {v : Bytes → Option Bytes} {ls : List Bytes} {line text : Bytes}

theorem opsIn_snoc (ls : List Bytes) (line : Bytes) :
    opsIn (ls ++ [line]) = opsIn ls ++ (parse line).op?.toList := by
  rw [opsIn, List.filterMap_append]
  cases h : (parse line).op? <;> simp [h, opsIn]

theorem applyAll_opsIn_snoc (ls : List Bytes) (line : Bytes) (v : Bytes → Option Bytes) :
    Op.applyAll (opsIn (ls ++ [line])) v = Op.applyAll (parse line).op?.toList
      (Op.applyAll (opsIn ls) v) := by
  rw [opsIn_snoc, Op.applyAll_append]

theorem Transcript.not_quit (h : Transcript v ls text) :
    ∀ line ∈ ls, decide (parse line ≠ .quit) = true := by
  induction h with
  | nil => exact fun _ h ↦ absurd h List.not_mem_nil
  | snoc _ hquit _ ih =>
    rw [List.forall_mem_append]
    exact ⟨ih, List.forall_mem_singleton.2 (decide_eq_true hquit)⟩

/-- The lines of a transcript are those that are handled, if the loop ends after them. -/
theorem Transcript.handled_eq (h : Transcript v ls text) {rest : List Bytes}
    (hrest : ∀ line ∈ rest.head?, parse line = .quit) : handled (ls ++ rest) = ls := by
  rw [handled, List.takeWhile_append_of_pos h.not_quit]
  cases rest with
  | nil => exact List.append_nil ls
  | cons line rest => rw [List.takeWhile_cons_of_neg (by simp [hrest line rfl]), List.append_nil]

/-- The strings in a command are parts of the line. -/
theorem short_of_parse {op : Op} {r : WalRecord} (h : Short line) (hop : (parse line).op? = some op)
    (hr : op.record = some r) : r.IsShort := by
  have hmeans : Means line (parse line) := parse_iff.1 rfl
  generalize parse line = c at hmeans hop
  have hle : ∀ {k : Bytes}, k.length ≤ line.length → Short k := fun hk ↦ hk.trans_lt h
  cases hmeans with
  | put =>
    obtain rfl := Option.some.inj hop
    obtain rfl := Option.some.inj hr
    refine ⟨hle ?_, hle ?_⟩ <;> simp only [List.length_append] <;> omega
  | keyed hkeyed =>
    cases hkeyed with
    | get => cases hop
    | del =>
      obtain rfl := Option.some.inj hop
      obtain rfl := Option.some.inj hr
      refine ⟨hle ?_, Nat.two_pow_pos 32⟩
      simp only [List.length_append]
      omega
  | alone halone =>
    cases halone with
    | flush =>
      obtain rfl := Option.some.inj hop
      cases hr
    | compact =>
      obtain rfl := Option.some.inj hop
      cases hr
    | _ => cases hop
  | _ => cases hop

end Lines

/-! ## Commands -/

/-- **The store carries a command out** if `J v` says that it stands for the map `v`, and it does
before. -/
structure Command.Served (sz : Sizing) (W : Watch (Call Mark) DB Disk)
    (J : (Bytes → Option Bytes) → DB → Disk → Prop)
    (v : Bytes → Option Bytes) (c : Command) (db : DB) (d : Disk) : Prop where
  /-- An operation makes of the map what it should. -/
  op : ∀ op, c.op? = some op →
    (op.run sz).wp reliable W (fun _ ↦ J (op.apply v)) (fun _ _ _ ↦ False) db d
  /-- A `get` answers from the map. -/
  get : ∀ key, c = .get key →
    (DB.get key).wp reliable W (fun a db d ↦ a = v key ∧ J v db d) (fun _ _ _ ↦ False) db d

/-- A command has been carried out: it has shown what it should, and done what it should. -/
structure Command.Done (J : (Bytes → Option Bytes) → DB → Disk → Prop)
    (v : Bytes → Option Bytes) (c : Command)
    (r : Repl) (go : Bool) (r' : Repl) (d : Disk) : Prop where
  /-- The loop goes on, unless it is to end. -/
  go : go = decide (c ≠ .quit)
  /-- What has been shown. -/
  shown : ∃ t, c.Prints v t ∧ r'.out = r.out ++ t
  /-- What has been done. -/
  stands : J (Op.applyAll c.op?.toList v) r'.db d

section Rules

variable {sz : Sizing} {W : Watch (Call Mark) Repl Disk}
  {J : (Bytes → Option Bytes) → DB → Disk → Prop} {v : Bytes → Option Bytes} {r : Repl} {d : Disk}

theorem wp_print {Q : Unit → Repl → Disk → Prop} {E : Error → Repl → Disk → Prop} (t : Bytes) :
    (print t).wp reliable W Q E r d ↔ Q () { r with out := r.out ++ t } d :=
  Iff.rfl

/-- **A command** shows what a plain map says, and does to the map what it should. -/
theorem Command.wp_run {c : Command} (hJ : J v r.db d)
    (h : c.Served sz (W.within store r) J v r.db d) :
    (c.run sz).wp reliable W (Done J v c r) (fun _ _ _ ↦ False) r d := by
  -- what follows an operation, once it has been carried out
  have hop : ∀ (op : Op) {α : Type} {Q : α → Repl → Disk → Prop} {k : Unit → Io Repl α},
      c.op? = some op →
      (∀ db d, J (op.apply v) db d → (k ()).wp reliable W Q (fun _ _ _ ↦ False) { r with db } d) →
      (onStore (op.run sz) >>= k).wp reliable W Q (fun _ _ _ ↦ False) r d := by
    intro op α Q k hc hk
    rw [wp_bind]
    exact (wp_within store _ r d).2
      (wp_mono (h.op op hc) (fun _ db d hJ ↦ hk db d hJ) fun _ _ _ ↦ id)
  cases c with
  | nothing => exact ⟨rfl, ⟨_, rfl, (List.append_nil _).symm⟩, hJ⟩
  | misused usage => exact ⟨rfl, ⟨_, rfl, rfl⟩, hJ⟩
  | put key value => exact hop (.put key value) rfl fun db d hJ ↦ ⟨rfl, ⟨_, rfl, rfl⟩, hJ⟩
  | get key =>
    rw [run, wp_bind]
    refine (wp_within store _ r d).2 (wp_mono (h.get key rfl) ?_ fun _ _ _ ↦ id)
    rintro a db d ⟨rfl, hJ⟩
    exact ⟨rfl, ⟨_, rfl, rfl⟩, hJ⟩
  | del key => exact hop (.del key) rfl fun db d hJ ↦ ⟨rfl, ⟨_, rfl, rfl⟩, hJ⟩
  | stats => exact ⟨rfl, ⟨_, ⟨_, rfl⟩, rfl⟩, hJ⟩
  | flush => exact hop .flush rfl fun db d hJ ↦ ⟨rfl, ⟨_, ⟨_, rfl⟩, rfl⟩, hJ⟩
  | compact => exact hop .compact rfl fun db d hJ ↦ ⟨rfl, ⟨_, ⟨_, rfl⟩, rfl⟩, hJ⟩
  | help => exact ⟨rfl, ⟨_, rfl, rfl⟩, hJ⟩
  | quit => exact ⟨rfl, ⟨_, rfl, (List.append_nil _).symm⟩, hJ⟩
  | unknown cmd => exact ⟨rfl, ⟨_, rfl, rfl⟩, hJ⟩

/-! ## The program -/

variable {all : List Bytes} {start : Bytes}

/-- The lines that have been handled, and what has been written when the next one is read. -/
structure Before (start : Bytes) (v : Bytes → Option Bytes) (all ls rest : List Bytes)
    (out : Bytes) : Prop where
  /-- The lines. -/
  lines : all = ls ++ rest
  /-- What has been written. -/
  out : ∃ text, Transcript v ls text ∧ out = start ++ (text ++ prompt)

/-- **The loop**: the lines up to the one that ends it are carried out. -/
theorem wp_runLines (hstep : ∀ {ls line rest r d}, Before start v all ls (line :: rest) r.out →
      J (Op.applyAll (opsIn ls) v) r.db d →
      (parse line).Served sz (W.within store r) J (Op.applyAll (opsIn ls) v) r.db d)
    {ls rest : List Bytes} {text : Bytes} (hall : all = ls ++ rest) (hT : Transcript v ls text)
    (hJ : J (Op.applyAll (opsIn ls) v) r.db d) (hout : r.out = start ++ text) :
    (runLines sz rest).wp reliable W (fun _ r d ↦ J (Op.applyAll (opsIn (handled all)) v) r.db d ∧
        ∃ text, Transcript v (handled all) text ∧ r.out = start ++ (text ++ prompt))
      (fun _ _ _ ↦ False) r d := by
  have hprompt : r.out ++ prompt = start ++ (text ++ prompt) := by rw [hout, List.append_assoc]
  induction rest generalizing ls text r d with
  | nil =>
    have hhandled : handled all = ls := hall ▸ hT.handled_eq fun _ hl ↦ (by cases hl)
    rw [runLines, wp_print, hhandled]
    exact ⟨hJ, text, hT, hprompt⟩
  | cons line rest ih =>
    rw [runLines, wp_bind, wp_print, wp_bind, runLine_eq]
    refine wp_mono (Command.wp_run hJ (hstep ⟨hall, text, hT, hprompt⟩ hJ))
      (fun go r' d' hdone ↦ ?_) fun _ _ _ ↦ id
    obtain ⟨hgo, ⟨t, ht, hout'⟩, hJ'⟩ := hdone
    by_cases hquit : parse line = .quit
    · have hhandled : handled all = ls := hall ▸ hT.handled_eq fun l hl ↦ by
        obtain rfl := Option.some.inj hl
        exact hquit
      rw [hquit] at ht hJ'
      obtain rfl : t = [] := ht
      rw [hgo, hquit, hhandled]
      refine ⟨hJ', text, hT, ?_⟩
      rw [hout', List.append_nil, hprompt]
    · have hshown : r'.out = start ++ (text ++ (prompt ++ t)) := by
        rw [hout', hprompt]
        simp only [List.append_assoc]
      rw [hgo, decide_eq_true hquit, if_pos rfl]
      refine ih (by rw [hall, List.append_assoc]; rfl) (hT.snoc hquit ht) ?_ hshown ?_
      · rw [applyAll_opsIn_snoc]
        exact hJ'
      · rw [hshown, List.append_assoc]

/-- **The program**, if recovery replays `n` records, and the store stands for `v` when it
returns. -/
theorem wp_main {dir stdin : Bytes} {n : ℕ} {Q : Disk → Prop}
    (hopen : DB.recover.wp reliable (W.within store { out := banner dir }) (fun _ db d ↦ J v db d ∧
      db.walReplayed = n) (fun _ _ _ ↦ False) { opts := options } d)
    (hstep : ∀ {ls line rest r d}, Before (greeting dir n) v (lines stdin) ls (line :: rest) r.out →
      J (Op.applyAll (opsIn ls) v) r.db d →
      (parse line).Served sz (W.within store r) J (Op.applyAll (opsIn ls) v) r.db d)
    (hclose : ∀ {text r d}, Transcript v (handled (lines stdin)) text → r.out = session dir n text →
      J (Op.applyAll (opsIn (handled (lines stdin))) v) r.db d →
      (DB.close sz).wp reliable (W.within store r) (fun _ _ d ↦ Q d) (fun _ _ _ ↦ False) r.db d) :
    (main sz dir stdin).wp reliable W (fun _ r d ↦ Q d ∧
      ∃ text, Transcript v (handled (lines stdin)) text ∧
      r.out = session dir n text) (fun _ _ _ ↦ False) {} d := by
  rw [main, wp_bind, wp_print, wp_bind, wp_modify, wp_bind]
  refine (wp_within store _ _ d).2 (wp_mono hopen ?_ fun _ _ _ ↦ id)
  rintro _ db d ⟨hJ, rfl⟩
  have hstats : db.stats.walReplayed = db.walReplayed := rfl
  show ((do print (recoveryText db.stats.walReplayed); print hint; _ : Io Repl Unit)).wp _ _ _ _ _ _
  rw [hstats, wp_bind, wp_print, wp_bind, wp_print, wp_bind]
  refine wp_mono (wp_runLines hstep rfl .nil hJ (List.append_nil _).symm) ?_ fun _ _ _ ↦ id
  rintro _ r d ⟨hJ, text, hT, hout⟩
  have hend : r.out ++ farewell = session dir db.walReplayed text := by rw [hout, session]
  rw [wp_bind, wp_print]
  refine (wp_within store _ _ d).2
    (wp_mono (hclose (r := { r with out := r.out ++ farewell }) hT hend hJ)
    (fun _ _ _ h ↦ ⟨h, text, hT, hend⟩) fun _ _ _ ↦ id)

end Rules

end Repl

end KeyValStore
