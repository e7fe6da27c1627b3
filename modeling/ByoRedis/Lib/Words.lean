import Mathlib.Data.List.Basic

/-!
Words with separators between them, and lines that end in a terminator.

Both are read one element at a time. What is read is told by how the input can be written, in both
directions.
-/

namespace ByoRedis.Lib.Words

variable {α : Type*}

/-- The words between separators, where `tok` is the part of a word that was read. -/
def words (sep : α → Bool) : List α → List α → List (List α)
  | tok, [] => if tok.isEmpty then [] else [tok]
  | tok, c :: cs =>
    if sep c then if tok.isEmpty then words sep [] cs else tok :: words sep [] cs
    else words sep (tok ++ [c]) cs

/-- Nothing but separators. -/
def Blank (sep : α → Bool) (g : List α) : Prop := ∀ c ∈ g, sep c = true

/-- A word has no separators. -/
def Word (sep : α → Bool) (w : List α) : Prop := w ≠ [] ∧ ∀ c ∈ w, sep c = false

/-- Words as they are written, with separators around them. -/
inductive Spaced (sep : α → Bool) : List (List α) → List α → Prop
  | blank {g : List α} (hg : Blank sep g) : Spaced sep [] g
  | last {g w : List α} (hg : Blank sep g) (hw : Word sep w) : Spaced sep [w] (g ++ w)
  | cons {g w cs : List α} {c : α} {ws : List (List α)} (hg : Blank sep g) (hw : Word sep w)
    (hc : sep c = true) (h : Spaced sep ws cs) : Spaced sep (w :: ws) (g ++ (w ++ c :: cs))

variable {sep : α → Bool}

lemma Spaced.blank_of_nil {cs : List α} (h : Spaced sep [] cs) : Blank sep cs := by
  cases h with
  | blank hg => exact hg

lemma words_blank {g : List α} (hg : Blank sep g) (cs : List α) :
    words sep [] (g ++ cs) = words sep [] cs := by
  induction g with
  | nil => rfl
  | cons c g ih =>
    have hc : sep c = true := hg c List.mem_cons_self
    simpa [words, hc] using ih fun c hc => hg c (List.mem_cons_of_mem _ hc)

lemma words_word {w : List α} (hw : ∀ c ∈ w, sep c = false) (tok cs : List α) :
    words sep tok (w ++ cs) = words sep (tok ++ w) cs := by
  induction w generalizing tok with
  | nil => rw [List.nil_append, List.append_nil]
  | cons c w ih =>
    have hc : sep c = false := hw c List.mem_cons_self
    have hrest := ih (fun c hc => hw c (List.mem_cons_of_mem _ hc)) (tok ++ [c])
    rw [List.append_assoc] at hrest
    simpa [words, hc] using hrest

lemma words_append_blank {g : List α} (hg : Blank sep g) (tok cs : List α) :
    words sep tok (cs ++ g) = words sep tok cs := by
  induction cs generalizing tok with
  | nil =>
    rw [List.nil_append]
    cases g with
    | nil => rfl
    | cons c g =>
      have hc : sep c = true := hg c List.mem_cons_self
      have hrest := words_blank (fun c hc => hg c (List.mem_cons_of_mem _ hc)) []
      rw [List.append_nil] at hrest
      simp [words, hc, hrest]
  | cons c cs ih => simp only [List.cons_append, words, ih]

lemma Spaced.words_eq {ws : List (List α)} {cs : List α} (h : Spaced sep ws cs) :
    words sep [] cs = ws := by
  induction h with
  | @blank g hg =>
    have := words_blank hg []
    rwa [List.append_nil] at this
  | @last g w hg hw =>
    have := words_word hw.2 [] []
    rw [List.append_nil] at this
    rw [words_blank hg, this]
    simp [words, hw.1]
  | @cons g w cs c ws hg hw hc h ih =>
    rw [words_blank hg, words_word hw.2]
    simp [words, hc, hw.1, ih]

/-- What is read was written. -/
lemma spaced_words (tok cs : List α) (htok : ∀ c ∈ tok, sep c = false) :
    Spaced sep (words sep tok cs) (tok ++ cs) := by
  induction cs generalizing tok with
  | nil =>
    rw [List.append_nil, words]
    cases tok with
    | nil => exact .blank (by simp [Blank])
    | cons c tok => exact .last (g := []) (by simp [Blank]) ⟨List.cons_ne_nil _ _, htok⟩
  | cons c cs ih =>
    cases hc : sep c with
    | true =>
      have hrest := ih [] (by simp)
      rw [List.nil_append] at hrest
      cases tok with
      | nil =>
        have hskip : words sep [] (c :: cs) = words sep [] cs := by simp [words, hc]
        rw [hskip, List.nil_append]
        -- one more separator in front
        generalize words sep [] cs = ws at hrest
        have hone : ∀ g, Blank sep g → Blank sep (c :: g) := fun g hg =>
          List.forall_mem_cons.mpr ⟨hc, hg⟩
        cases hrest with
        | blank hg => exact .blank (hone _ hg)
        | last hg hw => exact .last (hone _ hg) hw
        | cons hg hw hc' h => exact .cons (hone _ hg) hw hc' h
      | cons d tok =>
        have hword : words sep (d :: tok) (c :: cs) = (d :: tok) :: words sep [] cs := by
          simp [words, hc]
        rw [hword]
        exact .cons (g := []) (by simp [Blank]) ⟨List.cons_ne_nil _ _, htok⟩ hc hrest
    | false =>
      have hmore : words sep tok (c :: cs) = words sep (tok ++ [c]) cs := by simp [words, hc]
      have hrest := ih (tok ++ [c]) fun d hd => by
        rcases List.mem_append.mp hd with hd | hd
        · exact htok d hd
        · rwa [List.mem_singleton.mp hd]
      rw [hmore]
      rwa [List.append_assoc] at hrest

/-- **Words are read as they are written**, and no input is written in two ways. -/
theorem words_eq_iff {ws : List (List α)} {cs : List α} :
    words sep [] cs = ws ↔ Spaced sep ws cs := by
  constructor
  · rintro rfl
    exact spaced_words [] cs (by simp)
  · exact Spaced.words_eq

/-! ### Lines -/

variable [DecidableEq α]

/-- The lines, where `line` is the part of one that was read. There is none behind the last
terminator. -/
def lines (eol : α) : List α → List α → List (List α)
  | line, [] => if line.isEmpty then [] else [line]
  | line, c :: cs => if c = eol then line :: lines eol [] cs else lines eol (line ++ [c]) cs

/-- Lines as they are written; the last one may lack its terminator. -/
inductive Terminated (eol : α) : List (List α) → List α → Prop
  | nil : Terminated eol [] []
  | last {l : List α} (hl : eol ∉ l) (hne : l ≠ []) : Terminated eol [l] l
  | cons {l cs : List α} {ls : List (List α)} (hl : eol ∉ l) (h : Terminated eol ls cs) :
    Terminated eol (l :: ls) (l ++ eol :: cs)

variable {eol : α}

lemma lines_line {l : List α} (hl : eol ∉ l) (line cs : List α) :
    lines eol line (l ++ cs) = lines eol (line ++ l) cs := by
  induction l generalizing line with
  | nil => rw [List.nil_append, List.append_nil]
  | cons c l ih =>
    rw [List.mem_cons, not_or] at hl
    have hc := hl.1
    have hrest := ih hl.2 (line ++ [c])
    rw [List.append_assoc] at hrest
    simpa [lines, Ne.symm hc] using hrest

lemma Terminated.lines_eq {ls : List (List α)} {cs : List α} (h : Terminated eol ls cs) :
    lines eol [] cs = ls := by
  induction h with
  | nil => rfl
  | @last l hl hne =>
    have := lines_line hl [] []
    rw [List.append_nil] at this
    rw [this]
    simp [lines, hne]
  | @cons l cs ls hl h ih =>
    rw [lines_line hl]
    simp [lines, ih]

lemma terminated_lines (line cs : List α) (hline : eol ∉ line) :
    Terminated eol (lines eol line cs) (line ++ cs) := by
  induction cs generalizing line with
  | nil =>
    rw [List.append_nil, lines]
    cases line with
    | nil => exact .nil
    | cons c line => exact .last hline (List.cons_ne_nil _ _)
  | cons c cs ih =>
    by_cases hc : c = eol
    · have hend : lines eol line (c :: cs) = line :: lines eol [] cs := by simp [lines, hc]
      rw [hend, hc]
      exact .cons hline (ih [] (by simp))
    · have hmore : lines eol line (c :: cs) = lines eol (line ++ [c]) cs := by simp [lines, hc]
      have hrest := ih (line ++ [c]) (by simp [hline, Ne.symm hc])
      rw [hmore]
      rwa [List.append_assoc] at hrest

/-- **Lines are read as they are written.** -/
theorem lines_eq_iff {ls : List (List α)} {cs : List α} :
    lines eol [] cs = ls ↔ Terminated eol ls cs := by
  constructor
  · rintro rfl
    exact terminated_lines [] cs (by simp)
  · exact Terminated.lines_eq

end ByoRedis.Lib.Words
