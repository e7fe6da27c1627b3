import Mathlib.Data.List.DropRight
import Mathlib.Data.List.TakeWhile
import ByoRedis.Basic
import ByoRedis.Lib.Words

/-!
The commands that the client reads from a file, one on a line.
-/

namespace ByoRedis.Script

open ByoRedis.Basic ByoRedis.Lib.Words

/-- A byte of `" \t\r\n"`. -/
def isTrim (c : UInt8) : Bool := c = 32 || c = 9 || c = 13 || c = 10

def splitCmd (line : Bytes) : List Bytes := words isSpace [] line

/-- The line from its first byte to its last that is not in `" \t\r\n"`. -/
def trim (line : Bytes) : Bytes := (line.dropWhile isTrim).rdropWhile isTrim

/-- What the loop of `run_commands_from_file` sends for a line, if anything. -/
def lineCmd (line : Bytes) : Option (List Bytes) :=
  let trimmed := trim line
  if trimmed = [] then none -- blank line
  else if trimmed.head? = some 35 then none -- comment line
  else
    let tokens := splitCmd trimmed
    if tokens = [] then none else some tokens

/-- What `run_commands_from_file` sends for a file, one command after the other. -/
def fileCmds (file : Bytes) : List (List Bytes) := (lines 10 [] file).filterMap lineCmd

/-- What `multi_req` sends. -/
def multiReq : List (List Bytes) :=
  [str "set k 1", str "get k", str "zadd z 10 a", str "zadd z 20 b", str "zquery z 0 0 0 10"].map
    splitCmd

/-! ### How a file is written -/

/-- A line is a comment behind spaces, tabs and carriage returns. Behind other white space it is
not. -/
def Comment (line : Bytes) : Prop := ∃ g text, Blank isTrim g ∧ line = g ++ 35 :: text

/-- The lines of a file with these commands. -/
inductive Lines : List (List Bytes) → List Bytes → Prop
  | nil : Lines [] []
  | blank {line : Bytes} {cmds : List (List Bytes)} {ls : List Bytes} (hl : Blank isSpace line)
    (h : Lines cmds ls) : Lines cmds (line :: ls)
  | comment {line : Bytes} {cmds : List (List Bytes)} {ls : List Bytes} (hl : Comment line)
    (h : Lines cmds ls) : Lines cmds (line :: ls)
  | command {line : Bytes} {cmd : List Bytes} {cmds : List (List Bytes)} {ls : List Bytes}
    (hne : cmd ≠ []) (hl : Spaced isSpace cmd line) (hno : ¬ Comment line) (h : Lines cmds ls) :
    Lines (cmd :: cmds) (line :: ls)

lemma isSpace_of_isTrim {c : UInt8} (h : isTrim c = true) : isSpace c = true := by
  unfold isTrim at h
  unfold isSpace
  simp only [Bool.or_eq_true, decide_eq_true_eq] at h
  rcases h with ((rfl | rfl) | rfl) | rfl <;> rfl

lemma blank_of_isTrim {g : Bytes} (h : Blank isTrim g) : Blank isSpace g :=
  fun c hc => isSpace_of_isTrim (h c hc)

lemma exists_trim (line : Bytes) :
    ∃ g g', Blank isTrim g ∧ Blank isTrim g' ∧ line = g ++ (trim line ++ g') := by
  refine ⟨line.takeWhile isTrim, (line.dropWhile isTrim).rtakeWhile isTrim,
    fun c hc => List.mem_takeWhile_imp hc, fun c hc => List.mem_rtakeWhile_imp hc, ?_⟩
  unfold trim
  rw [List.rdropWhile_append_rtakeWhile, List.takeWhile_append_dropWhile]

lemma splitCmd_trim (line : Bytes) : splitCmd (trim line) = splitCmd line := by
  obtain ⟨g, g', hg, hg', hline⟩ := exists_trim line
  unfold splitCmd
  conv_rhs => rw [hline]
  rw [words_blank (blank_of_isTrim hg), words_append_blank (blank_of_isTrim hg')]

lemma head_trim_iff (line : Bytes) : (trim line).head? = some 35 ↔ Comment line := by
  constructor
  · intro h
    obtain ⟨g, g', hg, -, hline⟩ := exists_trim line
    obtain ⟨text, ht⟩ := List.head?_eq_some_iff.mp h
    exact ⟨g, text ++ g', hg, by rw [hline, ht]; rfl⟩
  · rintro ⟨g, text, hg, rfl⟩
    have hdrop : (g ++ 35 :: text).dropWhile isTrim = 35 :: text := by
      rw [List.dropWhile_append_of_pos hg]
      rfl
    unfold trim
    rw [hdrop]
    have hprefix := List.rdropWhile_prefix isTrim (35 :: text)
    cases hr : (35 :: text).rdropWhile isTrim with
    | nil => exact absurd (List.rdropWhile_eq_nil_iff.mp hr 35 List.mem_cons_self) (by decide)
    | cons c rest =>
      rw [hr] at hprefix
      rw [(List.cons_prefix_cons.mp hprefix).1]
      rfl

lemma lineCmd_eq (line : Bytes) :
    lineCmd line =
      if (trim line).head? = some 35 ∨ splitCmd line = [] then none else some (splitCmd line) := by
  unfold lineCmd
  dsimp only
  rw [splitCmd_trim]
  by_cases hblank : trim line = []
  · have hnone : splitCmd line = [] := by
      rw [← splitCmd_trim, hblank]
      rfl
    simp [hblank, hnone]
  · rw [if_neg hblank]
    by_cases hhead : (trim line).head? = some 35 <;> simp [hhead]

lemma lineCmd_comment {line : Bytes} (h : Comment line) : lineCmd line = none := by
  rw [lineCmd_eq, if_pos (.inl ((head_trim_iff line).mpr h))]

lemma lineCmd_spaced {line : Bytes} {cmd : List Bytes} (h : Spaced isSpace cmd line)
    (hno : ¬ Comment line) : lineCmd line = if cmd = [] then none else some cmd := by
  have hsplit : splitCmd line = cmd := h.words_eq
  have hhead := mt (head_trim_iff line).mp hno
  rw [lineCmd_eq, hsplit]
  simp [hhead]

lemma Lines.filterMap_eq {cmds : List (List Bytes)} {ls : List Bytes} (h : Lines cmds ls) :
    ls.filterMap lineCmd = cmds := by
  induction h with
  | nil => rfl
  | @blank line cmds ls hl h ih =>
    by_cases hc : Comment line
    · rw [List.filterMap_cons_none (lineCmd_comment hc), ih]
    · rw [List.filterMap_cons_none (by rw [lineCmd_spaced (.blank hl) hc, if_pos rfl]), ih]
  | comment hl h ih => rw [List.filterMap_cons_none (lineCmd_comment hl), ih]
  | command hne hl hno h ih =>
    rw [List.filterMap_cons_some (by rw [lineCmd_spaced hl hno, if_neg hne]), ih]

lemma lines_filterMap (ls : List Bytes) : Lines (ls.filterMap lineCmd) ls := by
  induction ls with
  | nil => exact .nil
  | cons line ls ih =>
    have hl : Spaced isSpace (splitCmd line) line := words_eq_iff.mp rfl
    by_cases hc : Comment line
    · rw [List.filterMap_cons_none (lineCmd_comment hc)]
      exact .comment hc ih
    · have hcmd := lineCmd_spaced hl hc
      by_cases hne : splitCmd line = []
      · rw [if_pos hne] at hcmd
        rw [List.filterMap_cons_none hcmd]
        rw [hne] at hl
        exact .blank (Spaced.blank_of_nil hl) ih
      · rw [if_neg hne] at hcmd
        rw [List.filterMap_cons_some hcmd]
        exact .command hne hl hc ih

/-- **The commands of a file** are those that are written in it, one on a line, among blank lines
and comments. -/
theorem fileCmds_eq_iff {file : Bytes} {cmds : List (List Bytes)} :
    fileCmds file = cmds ↔ ∃ ls, Terminated 10 ls file ∧ Lines cmds ls := by
  constructor
  · rintro rfl
    exact ⟨_, lines_eq_iff.mp rfl, lines_filterMap _⟩
  · rintro ⟨ls, hls, h⟩
    unfold fileCmds
    rw [lines_eq_iff.mpr hls, h.filterMap_eq]

example : multiReq = [[str "set", str "k", str "1"], [str "get", str "k"],
    [str "zadd", str "z", str "10", str "a"], [str "zadd", str "z", str "20", str "b"],
    [str "zquery", str "z", str "0", str "0", str "0", str "10"]] := by decide

end ByoRedis.Script
