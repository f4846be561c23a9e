import KeyValStore.Model.Manifest
import KeyValStore.Store.Names

/-!
# The text of a MANIFEST

`Manifest.text data` is what `Manifest::write` puts into the file, and `parse_text` says that
`Manifest::read` gets the data back, provided the generation fits 64 bits and no name contains a
newline.  The names of tables contain none.
-/

set_option autoImplicit false

namespace KeyValStore

open Crash

namespace Manifest

/-- The content of the file. -/
def text (data : ManifestData) : Bytes := (pieces data).flatten

/-- Data that survives being written and read. -/
structure Writable (data : ManifestData) : Prop where
  /-- The generation is a `uint64_t`. -/
  generation : data.generation < 2 ^ 64
  /-- The names fit their lines. -/
  names : ∀ n ∈ data.liveSstables, 10 ∉ n

/-! ## Lines -/

theorem lines_nil : lines [] = [] := by
  rw [lines, if_pos rfl]

theorem lines_append {l : Bytes} (h : 10 ∉ l) (s : Bytes) :
    lines (l ++ 10 :: s) = l :: lines s := by
  have hl : ∀ c ∈ l, decide (c ≠ 10) = true := fun c hc ↦ by
    rw [decide_eq_true_eq]
    rintro rfl
    exact h hc
  have htake : (l ++ 10 :: s).takeWhile (· ≠ 10) = l := by
    rw [List.takeWhile_append_of_pos hl, List.takeWhile_cons_of_neg (by simp), List.append_nil]
  have hdrop : (l ++ 10 :: s).dropWhile (· ≠ 10) = 10 :: s := by
    rw [List.dropWhile_append_of_pos hl, List.dropWhile_cons_of_neg (by simp)]
  rw [lines, if_neg (by simp)]
  split
  · rename_i hnil
    rw [hdrop] at hnil
    simp at hnil
  · rename_i c t hcons
    rw [hdrop, List.cons.injEq] at hcons
    rw [htake, ← hcons.2]

/-- A text without a newline is one line. -/
theorem lines_of_not_mem {l : Bytes} (h : 10 ∉ l) (hne : l ≠ []) : lines l = [l] := by
  have hdrop : l.dropWhile (· ≠ 10) = [] := by
    rw [List.dropWhile_eq_nil_iff]
    intro c hc
    rw [decide_eq_true_eq]
    rintro rfl
    exact h hc
  rw [lines, if_neg hne]
  split
  · rfl
  · rename_i c t hcons
    rw [hdrop] at hcons
    simp at hcons

/-! ## Reading the lines back -/

theorem readLines_generation {n : ℕ} (hn : n < 2 ^ 64) (d : ManifestData) (ls : List Bytes) :
    readLines d ((ascii "generation " ++ Codec.decimal n) :: ls)
      = readLines { d with generation := n } ls := by
  have hlen : (ascii "generation ").length = 11 := rfl
  rw [readLines, if_pos (List.prefix_append _ _), ← hlen, List.drop_left, stoull_decimal hn]
  rfl

theorem readLines_file (d : ManifestData) (name : Bytes) (ls : List Bytes) :
    readLines d ((ascii "file " ++ name) :: ls)
      = readLines { d with liveSstables := d.liveSstables ++ [name] } ls := by
  have hlen : (ascii "file ").length = 5 := rfl
  have hg : ¬ascii "generation " <+: ascii "file " ++ name := by
    rintro ⟨t, ht⟩
    have h0 := congrArg List.head? ht
    simp [ascii] at h0
  rw [readLines, if_neg hg, if_pos (List.prefix_append _ _), ← hlen, List.drop_left]

theorem readLines_files (d : ManifestData) (names : List Bytes) :
    readLines d (names.map (ascii "file " ++ ·))
      = .ok { d with liveSstables := d.liveSstables ++ names } := by
  induction names generalizing d with
  | nil => simp [readLines]
  | cons n names ih =>
      rw [List.map_cons, readLines_file, ih, List.append_assoc, List.singleton_append]

/-! ## The round trip -/

theorem newline_not_mem_decimal (n : ℕ) : 10 ∉ Codec.decimal n :=
  fun h ↦ absurd (Codec.isDigit_of_mem_decimal h) (by decide)

theorem text_eq (data : ManifestData) : text data =
    (ascii "generation " ++ Codec.decimal data.generation) ++
      10 :: data.liveSstables.flatMap fun s ↦ (ascii "file " ++ s) ++ [10] := by
  have hfile : ∀ ss : List Name, (ss.flatMap fun s ↦ [ascii "file ", s, ascii "\n"]).flatten
      = ss.flatMap fun s ↦ (ascii "file " ++ s) ++ [10] := by
    intro ss
    induction ss with
    | nil => rfl
    | cons s ss ih =>
      rw [List.flatMap_cons, List.flatten_append, ih, List.flatMap_cons]
      simp [show ascii "\n" = [10] from rfl]
  rw [text, pieces, List.flatten_append, hfile]
  simp [show ascii "\n" = [10] from rfl]

theorem lines_text {data : ManifestData} (h : Writable data) : lines (text data) =
    (ascii "generation " ++ Codec.decimal data.generation) ::
      data.liveSstables.map (ascii "file " ++ ·) := by
  have hg : 10 ∉ ascii "generation " ++ Codec.decimal data.generation := by
    rw [List.mem_append, not_or]
    exact ⟨by decide, newline_not_mem_decimal _⟩
  have hfiles : ∀ ss : List Name, (∀ n ∈ ss, 10 ∉ n) →
      lines (ss.flatMap fun s ↦ (ascii "file " ++ s) ++ [10]) = ss.map (ascii "file " ++ ·) := by
    intro ss hss
    induction ss with
    | nil => exact lines_nil
    | cons s ss ih =>
      rw [List.forall_mem_cons] at hss
      have hs : 10 ∉ ascii "file " ++ s := by
        rw [List.mem_append, not_or]
        exact ⟨by decide, hss.1⟩
      rw [List.flatMap_cons, List.append_assoc, List.singleton_append, lines_append hs, ih hss.2,
        List.map_cons]
  rw [text_eq, lines_append hg, hfiles _ h.names]

/-- **The MANIFEST round-trips.** -/
theorem parse_text {data : ManifestData} (h : Writable data) : parse (text data) = .ok data := by
  rw [parse, lines_text h, readLines_generation h.generation, readLines_files]
  rfl

/-- Names of tables can be written. -/
theorem newline_not_mem_sstPath (id : ℕ) : 10 ∉ DB.sstPath id := by
  rw [DB.sstPath, List.mem_append, List.mem_append, not_or, not_or]
  exact ⟨⟨by decide, fun h ↦ absurd (Codec.isDigit_of_mem_padded h) (by decide)⟩, by decide⟩

theorem writable_sstPaths {generation : ℕ} (h : generation < 2 ^ 64) (ids : List ℕ) :
    Writable ⟨generation, ids.map DB.sstPath⟩ :=
  ⟨h, fun n hn ↦ by
    obtain ⟨id, -, rfl⟩ := List.mem_map.1 hn
    exact newline_not_mem_sstPath id⟩

/-- The first eleven bytes of any MANIFEST are not one. -/
theorem parse_take_text (data : ManifestData) :
    parse ((text data).take 11) = .error .invalidArgument := by
  have hlen : (ascii "generation ").length = 11 := rfl
  rw [text_eq, List.append_assoc, ← hlen, List.take_left]
  rw [parse, lines_of_not_mem (by decide) (by decide)]
  rfl

end Manifest

end KeyValStore
