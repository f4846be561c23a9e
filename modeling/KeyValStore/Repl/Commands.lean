import KeyValStore.Model.Repl
import KeyValStore.History.Step

/-!
# Commands

A line is a command (`Repl.parse`), and the body of the loop of `main` carries it out
(`Repl.runLine_eq`).  `Repl.Means` is the grammar of commands, by how a line is spelled: a line is
read as a command exactly if the grammar says that it means it (`parse_iff`), so every line means
one command (`runLine_means`).  A key is a word, and a value is what follows up to the end of the
line.
-/

set_option autoImplicit false

namespace KeyValStore

namespace Repl

open Crash Codec

/-- A command. -/
inductive Command
  | nothing
  | misused (usage : Bytes)
  | put (key value : Bytes)
  | get (key : Bytes)
  | del (key : Bytes)
  | stats
  | flush
  | compact
  | help
  | quit
  | unknown (cmd : Bytes)
  deriving DecidableEq

/-! ## Reading a line -/

/-- The command with the first word `cmd`, where `ss` is what follows. -/
def command (cmd ss : Bytes) : Command :=
  if cmd = ascii "put" then
    let (key, ss) := word ss
    let value := ss.dropWhile isSpace
    if key = [] ∨ value = [] then .misused usagePut else .put key value
  else if cmd = ascii "get" then
    let (key, _) := word ss
    if key = [] then .misused usageGet else .get key
  else if cmd = ascii "del" then
    let (key, _) := word ss
    if key = [] then .misused usageDel else .del key
  else if cmd = ascii "stats" then .stats
  else if cmd = ascii "flush" then .flush
  else if cmd = ascii "compact" then .compact
  else if cmd = ascii "help" then .help
  else if cmd = ascii "exit" ∨ cmd = ascii "quit" then .quit
  else if cmd ≠ [] then .unknown cmd
  else .nothing

/-- **The command on a line.** -/
def parse (line : Bytes) : Command := command (word line).1 (word line).2

/-- What is done for a command.  The answer is whether the loop goes on. -/
def Command.run (sz : Sizing) : Command → Io Repl Bool
  | nothing => return true
  | misused usage => do
    print usage
    return true
  | put key value => do
    onStore (DB.put sz key value)
    print okText
    return true
  | get key => do
    let v ← onStore (DB.get key)
    print (valueText v)
    return true
  | del key => do
    onStore (DB.del sz key)
    print okText
    return true
  | stats => do
    let st ← Repl.stats
    print (statsText st)
    return true
  | flush => do
    onStore (DB.flushMemtable sz)
    let st ← Repl.stats
    print (tablesText st)
    return true
  | compact => do
    onStore (DB.compact sz)
    let st ← Repl.stats
    print (tablesText st)
    return true
  | help => do
    printHelp
    return true
  | quit => return false
  | unknown cmd => do
    print (unknownText cmd)
    return true

/-- **The body of the loop carries out the command on the line.** -/
theorem runLine_eq (sz : Sizing) (line : Bytes) : runLine sz line = (parse line).run sz := by
  rw [runLine, parse, command]
  dsimp only
  simp only [apply_ite (Command.run sz)]
  rfl

/-! ## The grammar -/

/-- The words that commands begin with. -/
def keywords : List Bytes :=
  [ascii "put", ascii "get", ascii "del", ascii "stats", ascii "flush", ascii "compact",
    ascii "help", ascii "exit", ascii "quit"]

/-- Spaces, and at least one. -/
structure IsGap (b : Bytes) : Prop where
  /-- There is one. -/
  ne_nil : b ≠ []
  /-- There is nothing else. -/
  blank : IsBlank isSpace b

/-- The commands that are a word, whatever follows it. -/
inductive Alone : Bytes → Command → Prop
  | stats : Alone (ascii "stats") .stats
  | flush : Alone (ascii "flush") .flush
  | compact : Alone (ascii "compact") .compact
  | help : Alone (ascii "help") .help
  | exit : Alone (ascii "exit") .quit
  | quit : Alone (ascii "quit") .quit
  | unknown {cmd : Bytes} (hw : IsWord isSpace cmd) (h : cmd ∉ keywords) : Alone cmd (.unknown cmd)

/-- The commands that take a key, and what is said about them without one. -/
inductive Keyed : Bytes → (Bytes → Command) → Bytes → Prop
  | get : Keyed (ascii "get") .get usageGet
  | del : Keyed (ascii "del") .del usageDel

/-- **The grammar**: what a line means. -/
inductive Means : Bytes → Command → Prop
  | nothing {b : Bytes} (hb : IsBlank isSpace b) : Means b .nothing
  | put {b₀ b₁ b₂ key value : Bytes} (h₀ : IsBlank isSpace b₀) (h₁ : IsGap b₁)
      (hkey : IsWord isSpace key) (h₂ : IsGap b₂)
      (hne : value ≠ []) (hvalue : Begins isSpace value) :
      Means (b₀ ++ (ascii "put" ++ (b₁ ++ (key ++ (b₂ ++ value))))) (.put key value)
  | noKey {b₀ b₁ : Bytes} (h₀ : IsBlank isSpace b₀) (h₁ : IsBlank isSpace b₁) :
      Means (b₀ ++ (ascii "put" ++ b₁)) (.misused usagePut)
  | noValue {b₀ b₁ b₂ key : Bytes} (h₀ : IsBlank isSpace b₀) (h₁ : IsGap b₁)
      (hkey : IsWord isSpace key) (h₂ : IsBlank isSpace b₂) :
      Means (b₀ ++ (ascii "put" ++ (b₁ ++ (key ++ b₂)))) (.misused usagePut)
  | keyed {b₀ b₁ cmd key rest usage : Bytes} {c : Bytes → Command} (h : Keyed cmd c usage)
      (h₀ : IsBlank isSpace b₀) (h₁ : IsGap b₁) (hkey : IsWord isSpace key)
      (hrest : Breaks isSpace rest) : Means (b₀ ++ (cmd ++ (b₁ ++ (key ++ rest)))) (c key)
  | keyless {b₀ b₁ cmd usage : Bytes} {c : Bytes → Command} (h : Keyed cmd c usage)
      (h₀ : IsBlank isSpace b₀) (h₁ : IsBlank isSpace b₁) :
      Means (b₀ ++ (cmd ++ b₁)) (.misused usage)
  | alone {b₀ cmd rest : Bytes} {c : Command} (h : Alone cmd c) (h₀ : IsBlank isSpace b₀)
      (hrest : Breaks isSpace rest) : Means (b₀ ++ (cmd ++ rest)) c

section Grammar

variable {b b₀ w rest key value line cmd : Bytes}

theorem IsGap.breaks (h : IsGap b) (s : Bytes) : Breaks isSpace (b ++ s) := by
  obtain ⟨c, b, rfl⟩ := List.exists_cons_of_ne_nil h.ne_nil
  rintro _ ⟨⟩
  exact h.blank c List.mem_cons_self

theorem breaks_of_isBlank (h : IsBlank isSpace b) : Breaks isSpace b :=
  fun c hc ↦ h c (List.mem_of_mem_head? hc)

theorem word_eq (hb : IsBlank isSpace b) (hw : IsWord isSpace w) (hrest : Breaks isSpace rest) :
    word (b ++ (w ++ rest)) = (w, rest) :=
  (token_eq_iff hw.ne_nil).2 ⟨b, rfl, hb, hw, hrest⟩

theorem word_blank (hb : IsBlank isSpace b) : word b = ([], []) := token_eq_nil_iff.2 ⟨hb, rfl⟩

theorem isWord_of_mem_keywords (h : cmd ∈ keywords) : IsWord isSpace cmd := by
  have hall : ∀ w ∈ keywords, w ≠ [] ∧ ∀ c ∈ w, isSpace c = false := by decide +kernel
  exact ⟨(hall cmd h).1, (hall cmd h).2⟩

theorem parse_eq (hb : IsBlank isSpace b) (hw : IsWord isSpace w) (hrest : Breaks isSpace rest) :
    parse (b ++ (w ++ rest)) = command w rest := by
  rw [parse, word_eq hb hw hrest]

theorem Keyed.mem {c : Bytes → Command} {usage : Bytes} (h : Keyed cmd c usage) :
    cmd ∈ keywords := by
  cases h <;> decide

theorem Keyed.command_eq {c : Bytes → Command} {usage : Bytes}
    (h : Keyed cmd c usage) (ss : Bytes) :
    command cmd ss = if (word ss).1 = [] then .misused usage else c (word ss).1 := by
  cases h with
  | get => rw [command, if_neg (by decide), if_pos rfl]
  | del => rw [command, if_neg (by decide), if_neg (by decide), if_pos rfl]

theorem Alone.isWord {c : Command} (h : Alone cmd c) : IsWord isSpace cmd := by
  cases h with
  | unknown hw _ => exact hw
  | _ => exact isWord_of_mem_keywords (by decide)

theorem Alone.command_eq {c : Command} (h : Alone cmd c) (ss : Bytes) : command cmd ss = c := by
  cases h with
  | unknown hw hnot =>
    simp only [keywords, List.mem_cons, List.not_mem_nil, or_false, not_or] at hnot
    simp [command, hnot, hw.ne_nil]
  | _ => simp [command, ascii]

/-- **What is spelled by the grammar is read.** -/
theorem parse_of_means {c : Command} (h : Means line c) : parse line = c := by
  have hput : IsWord isSpace (ascii "put") := isWord_of_mem_keywords (by decide)
  cases h with
  | nothing hb =>
    rw [parse, word_blank hb]
    rfl
  | put h₀ h₁ hkey h₂ hne hvalue =>
    rw [parse_eq h₀ hput (h₁.breaks _), command, if_pos rfl, word_eq h₁.blank hkey (h₂.breaks _)]
    simp only [dropWhile_eq_iff.2 ⟨_, rfl, h₂.blank, hvalue⟩, hkey.ne_nil, hne, or_self, if_false]
  | noKey h₀ h₁ =>
    rw [parse_eq h₀ hput (breaks_of_isBlank h₁), command, if_pos rfl, word_blank h₁]
    rfl
  | noValue h₀ h₁ hkey h₂ =>
    rw [parse_eq h₀ hput (h₁.breaks _), command, if_pos rfl,
      word_eq h₁.blank hkey (breaks_of_isBlank h₂)]
    simp only [List.dropWhile_eq_nil_iff.2 h₂, or_true, if_true]
  | keyed h h₀ h₁ hkey hrest =>
    rw [parse_eq h₀ (isWord_of_mem_keywords h.mem) (h₁.breaks _), h.command_eq,
      word_eq h₁.blank hkey hrest, if_neg hkey.ne_nil]
  | keyless h h₀ h₁ =>
    rw [parse_eq h₀ (isWord_of_mem_keywords h.mem) (breaks_of_isBlank h₁), h.command_eq,
      word_blank h₁, if_pos rfl]
  | alone h h₀ hrest => rw [parse_eq h₀ h.isWord hrest, h.command_eq]

/-- A text is blank, or has a first word. -/
theorem isBlank_or_exists_word (s : Bytes) : IsBlank isSpace s ∨ ∃ b w rest, s = b ++ (w ++ rest) ∧
    IsBlank isSpace b ∧ IsWord isSpace w ∧ Breaks isSpace rest := by
  by_cases hw : (word s).1 = []
  · exact .inl (token_eq_nil_iff.1 (Prod.ext hw rfl)).1
  · obtain ⟨b, hs, hb, hw, hrest⟩ := (token_eq_iff hw).1 (Prod.ext rfl rfl : token isSpace s = _)
    exact .inr ⟨b, _, _, hs, hb, hw, hrest⟩

/-- What comes between a word and what follows it is a gap. -/
theorem isGap_of_breaks {t : Bytes} (h : Breaks isSpace (b ++ t))
    (hb : IsBlank isSpace b) (hne : t ≠ []) (ht : Begins isSpace t) : IsGap b := by
  refine ⟨?_, hb⟩
  rintro rfl
  obtain ⟨c, t, rfl⟩ := List.exists_cons_of_ne_nil hne
  have hc : isSpace c = true := h c rfl
  rw [ht c rfl] at hc
  cases hc

/-- What follows a command: nothing, or a key. -/
theorem isBlank_or_exists_key {ss : Bytes} (h : Breaks isSpace ss) :
    IsBlank isSpace ss ∨ ∃ b key rest, ss = b ++ (key ++ rest) ∧ IsGap b ∧ IsWord isSpace key ∧
      Breaks isSpace rest := by
  refine (isBlank_or_exists_word ss).imp_right ?_
  rintro ⟨b, key, rest, rfl, hb, hkey, hrest⟩
  exact ⟨b, key, rest, rfl, isGap_of_breaks h hb (List.append_ne_nil_of_left_ne_nil hkey.ne_nil _)
      (hkey.begins _),
    hkey, hrest⟩

theorem exists_means_put {ss : Bytes} (h₀ : IsBlank isSpace b₀) (hss : Breaks isSpace ss) :
    ∃ c, Means (b₀ ++ (ascii "put" ++ ss)) c := by
  rcases isBlank_or_exists_key hss with hb | ⟨b₁, key, rest, rfl, h₁, hkey, hrest⟩
  · exact ⟨_, .noKey h₀ hb⟩
  obtain ⟨b₂, hsplit, h₂, hvalue⟩ := dropWhile_eq_iff.1 (rfl : rest.dropWhile isSpace = _)
  by_cases hne : rest.dropWhile isSpace = []
  · exact ⟨_, .noValue h₀ h₁ hkey (List.dropWhile_eq_nil_iff.1 hne)⟩
  · rw [hsplit] at hrest ⊢
    exact ⟨_, .put h₀ h₁ hkey (isGap_of_breaks hrest h₂ hne hvalue) hne hvalue⟩

theorem exists_means_keyed {ss usage : Bytes} {c : Bytes → Command} (h : Keyed cmd c usage)
    (h₀ : IsBlank isSpace b₀) (hss : Breaks isSpace ss) : ∃ c, Means (b₀ ++ (cmd ++ ss)) c := by
  rcases isBlank_or_exists_key hss with hb | ⟨b₁, key, rest, rfl, h₁, hkey, hrest⟩
  · exact ⟨_, .keyless h h₀ hb⟩
  · exact ⟨_, .keyed h h₀ h₁ hkey hrest⟩

/-- A word is one of those that take a key, or `put`, or stands alone. -/
theorem keyword_cases (hw : IsWord isSpace cmd) :
    cmd = ascii "put" ∨ (∃ c usage, Keyed cmd c usage) ∨ ∃ c, Alone cmd c := by
  by_cases hmem : cmd ∈ keywords
  · simp only [keywords, List.mem_cons, List.not_mem_nil, or_false] at hmem
    rcases hmem with rfl | rfl | rfl | rfl | rfl | rfl | rfl | rfl | rfl
    · exact .inl rfl
    · exact .inr (.inl ⟨_, _, .get⟩)
    · exact .inr (.inl ⟨_, _, .del⟩)
    · exact .inr (.inr ⟨_, .stats⟩)
    · exact .inr (.inr ⟨_, .flush⟩)
    · exact .inr (.inr ⟨_, .compact⟩)
    · exact .inr (.inr ⟨_, .help⟩)
    · exact .inr (.inr ⟨_, .exit⟩)
    · exact .inr (.inr ⟨_, .quit⟩)
  · exact .inr (.inr ⟨_, .unknown hw hmem⟩)

/-- **Every line means something.** -/
theorem exists_means (line : Bytes) : ∃ c, Means line c := by
  rcases isBlank_or_exists_word line with hb | ⟨b₀, cmd, ss, rfl, h₀, hcmd, hss⟩
  · exact ⟨_, .nothing hb⟩
  rcases keyword_cases hcmd with rfl | ⟨c, usage, h⟩ | ⟨c, h⟩
  · exact exists_means_put h₀ hss
  · exact exists_means_keyed h h₀ hss
  · exact ⟨_, .alone h h₀ hss⟩

/-- **A line is read as the command it means.** -/
theorem parse_iff {c : Command} : parse line = c ↔ Means line c := by
  refine ⟨?_, parse_of_means⟩
  rintro rfl
  obtain ⟨c, h⟩ := exists_means line
  rwa [parse_of_means h]

/-- **A line means one command**, and that is what the body of the loop carries out. -/
theorem runLine_means (line : Bytes) :
    ∃ c, Means line c ∧ (∀ c', Means line c' → c' = c) ∧ ∀ sz, runLine sz line = c.run sz :=
  ⟨parse line, parse_iff.1 rfl, fun _ h ↦ (parse_of_means h).symm, fun sz ↦ runLine_eq sz line⟩

end Grammar

end Repl

end KeyValStore
