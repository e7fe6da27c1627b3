import Mathlib.Data.List.TakeWhile
import Mathlib.Data.Nat.Digits.Defs

/-!
Integers as text: blanks, a sign and digits.

A scan skips blanks, takes a sign and takes digits as long as there are any. What it takes is the
longest text of an integer in front of its input, and there is none where it finds no digit.
-/

namespace ByoRedis.Lib.Numerals

/-- What integers are written in. A sign stands for the factor it puts in front. -/
structure Script (α : Type*) where
  isSpace : α → Bool
  sign : α → Option ℤ
  isDigit : α → Bool
  digit : α → ℕ
  base : ℕ
  not_space_of_sign {c : α} {f : ℤ} : sign c = some f → isSpace c = false
  not_space_of_digit {c : α} : isDigit c = true → isSpace c = false
  not_sign_of_digit {c : α} : isDigit c = true → sign c = none

namespace Script

variable {α : Type*} (A : Script α)

/-- The number that digits stand for, the first one being the highest. -/
def value (ds : List α) : ℕ := Nat.ofDigits A.base (ds.map A.digit).reverse

/-- A sign, or none. -/
inductive Sign : List α → ℤ → Prop
  | none : Sign [] 1
  | char {c : α} {f : ℤ} (h : A.sign c = some f) : Sign [c] f

/-- **The texts of an integer**: blanks, a sign, and at least one digit. -/
inductive Numeral : List α → ℤ → Prop
  | mk {ws sg ds : List α} {f : ℤ} (blank : ∀ c ∈ ws, A.isSpace c = true) (sign : A.Sign sg f)
    (some : ds ≠ []) (digits : ∀ c ∈ ds, A.isDigit c = true) :
    Numeral (ws ++ (sg ++ ds)) (f * A.value ds)

/-- The longest text of an integer in front has `k` characters, and it is that of `n`. -/
def Longest (s : List α) (n : ℤ) (k : ℕ) : Prop :=
  ∃ p, p <+: s ∧ p.length = k ∧ A.Numeral p n ∧ ∀ q m, q <+: s → A.Numeral q m → q.length ≤ k

/-! ### The scan -/

/-- The sign at the front, and how many characters it takes. -/
def signOf : List α → ℤ × ℕ
  | [] => (1, 0)
  | c :: _ =>
    match A.sign c with
    | some f => (f, 1)
    | none => (1, 0)

/-- The number in front and how many characters it takes, where there is a digit. -/
def scan (s : List α) : Option (ℤ × ℕ) :=
  let skipped := (s.takeWhile A.isSpace).length
  let (f, signLen) := A.signOf (s.drop skipped)
  let digits := (s.drop (skipped + signLen)).takeWhile A.isDigit
  if digits = [] then none else some (f * A.value digits, skipped + signLen + digits.length)

variable {A} {s p q ws sg ds rest : List α} {f n m : ℤ} {k j : ℕ}

lemma Numeral.ne_nil (h : A.Numeral s n) : s ≠ [] := by
  obtain ⟨-, -, hne, -⟩ := h
  intro hs
  exact hne (List.append_eq_nil_iff.mp (List.append_eq_nil_iff.mp hs).2).2

lemma Numeral.mem (h : A.Numeral s n) {c : α} (hc : c ∈ s) :
    A.isSpace c = true ∨ A.sign c ≠ none ∨ A.isDigit c = true := by
  obtain ⟨hws, hsg, -, hds⟩ := h
  rcases List.mem_append.mp hc with hc | hc
  · exact .inl (hws c hc)
  · rcases List.mem_append.mp hc with hc | hc
    · cases hsg with
      | none => cases hc
      | char hsign =>
        obtain rfl := List.mem_singleton.mp hc
        exact .inr (.inl (by simp [hsign]))
    · exact .inr (.inr (hds c hc))

lemma takeWhile_blank (hws : ∀ c ∈ ws, A.isSpace c = true) (hsg : A.Sign sg f) (hne : ds ≠ [])
    (hds : ∀ c ∈ ds, A.isDigit c = true) :
    (ws ++ (sg ++ (ds ++ rest))).takeWhile A.isSpace = ws := by
  have hstop : (sg ++ (ds ++ rest)).takeWhile A.isSpace = [] := by
    cases hsg with
    | none =>
      obtain ⟨d, ds', rfl⟩ := List.exists_cons_of_ne_nil hne
      simp [A.not_space_of_digit (hds d List.mem_cons_self)]
    | char h => simp [A.not_space_of_sign h]
  rw [List.takeWhile_append_of_pos hws, hstop, List.append_nil]

lemma signOf_append (hsg : A.Sign sg f) (hne : ds ≠ []) (hds : ∀ c ∈ ds, A.isDigit c = true) :
    A.signOf (sg ++ (ds ++ rest)) = (f, sg.length) := by
  cases hsg with
  | none =>
    obtain ⟨d, ds', rfl⟩ := List.exists_cons_of_ne_nil hne
    simp [signOf, A.not_sign_of_digit (hds d List.mem_cons_self)]
  | char h => simp [signOf, h]

/-- The scan takes the text of an integer that is in front, and the digits that come after it. -/
lemma scan_append (hws : ∀ c ∈ ws, A.isSpace c = true) (hsg : A.Sign sg f) (hne : ds ≠ [])
    (hds : ∀ c ∈ ds, A.isDigit c = true) :
    A.scan (ws ++ (sg ++ (ds ++ rest))) =
      some (f * A.value (ds ++ rest.takeWhile A.isDigit),
        ws.length + sg.length + (ds ++ rest.takeWhile A.isDigit).length) := by
  have hdigits : (ds ++ rest).takeWhile A.isDigit = ds ++ rest.takeWhile A.isDigit :=
    List.takeWhile_append_of_pos hds
  have hsome : ds ++ rest.takeWhile A.isDigit ≠ [] := fun h => hne (List.append_eq_nil_iff.mp h).1
  unfold scan
  dsimp only
  rw [takeWhile_blank hws hsg hne hds, List.drop_left, signOf_append hsg hne hds]
  dsimp only
  rw [← List.drop_drop, List.drop_left, List.drop_left, hdigits, if_neg hsome]

lemma Numeral.scan (h : A.Numeral s n) : A.scan s = some (n, s.length) := by
  obtain @⟨ws, sg, ds, f, hws, hsg, hne, hds⟩ := h
  have hscan : A.scan (ws ++ (sg ++ (ds ++ []))) = _ := scan_append hws hsg hne hds
  rw [List.takeWhile_nil, List.append_nil] at hscan
  rw [hscan, List.length_append, List.length_append, Nat.add_assoc]

lemma Numeral.unique (h : A.Numeral s n) (h' : A.Numeral s m) : n = m :=
  (Prod.mk.inj (Option.some.inj (h.scan.symm.trans h'.scan))).1

/-- In front of what is not scanned there is no text of an integer, and none is longer than what
is. -/
lemma Numeral.scan_prefix (h : A.Numeral q m) (hq : q <+: s) :
    ∃ n k, A.scan s = some (n, k) ∧ q.length ≤ k := by
  obtain ⟨rest, rfl⟩ := hq
  obtain ⟨hws, hsg, hne, hds⟩ := h
  rw [List.append_assoc, List.append_assoc]
  refine ⟨_, _, scan_append hws hsg hne hds, ?_⟩
  simp only [List.length_append]
  omega

lemma exists_sign (s : List α) :
    ∃ sg rest f, s = sg ++ rest ∧ A.Sign sg f ∧ A.signOf s = (f, sg.length) := by
  cases s with
  | nil => exact ⟨[], [], 1, rfl, .none, rfl⟩
  | cons c s =>
    cases h : A.sign c with
    | none => exact ⟨[], c :: s, 1, rfl, .none, by simp [signOf, h]⟩
    | some f => exact ⟨[c], s, f, rfl, .char h, by simp [signOf, h]⟩

lemma numeral_of_scan (h : A.scan s = some (n, k)) :
    ∃ p, p <+: s ∧ p.length = k ∧ A.Numeral p n := by
  obtain ⟨tail, htail⟩ := List.takeWhile_prefix A.isSpace (l := s)
  have hblank : ∀ c ∈ s.takeWhile A.isSpace, A.isSpace c = true := fun c hc =>
    List.mem_takeWhile_imp hc
  unfold scan at h
  dsimp only at h
  generalize s.takeWhile A.isSpace = ws at h htail hblank
  obtain rfl := htail
  obtain ⟨sg, tail, f, rfl, hsg, hsign⟩ := exists_sign (A := A) tail
  rw [List.drop_left, hsign] at h
  dsimp only at h
  rw [← List.drop_drop, List.drop_left, List.drop_left] at h
  obtain ⟨rest, hrest⟩ := List.takeWhile_prefix A.isDigit (l := tail)
  have hdigits : ∀ c ∈ tail.takeWhile A.isDigit, A.isDigit c = true := fun c hc =>
    List.mem_takeWhile_imp hc
  generalize tail.takeWhile A.isDigit = ds at h hrest hdigits
  obtain rfl := hrest
  split_ifs at h with hne
  obtain ⟨rfl, rfl⟩ := Prod.mk.inj (Option.some.inj h)
  refine ⟨ws ++ (sg ++ ds), ⟨rest, ?_⟩, ?_, hblank, hsg, hne, hdigits⟩
  · rw [List.append_assoc, List.append_assoc]
  · rw [List.length_append, List.length_append, Nat.add_assoc]

/-- **The scan takes the longest text of an integer in front**, and nothing where there is none. -/
theorem scan_spec (s : List α) :
    (∃ n k, A.scan s = some (n, k) ∧ A.Longest s n k) ∨
      (A.scan s = none ∧ ∀ q m, q <+: s → ¬ A.Numeral q m) := by
  cases h : A.scan s with
  | none =>
    refine .inr ⟨rfl, fun q m hq hnum => ?_⟩
    obtain ⟨n, k, hscan, -⟩ := hnum.scan_prefix hq
    rw [h] at hscan
    cases hscan
  | some r =>
    obtain ⟨n, k⟩ := r
    obtain ⟨p, hp, hlen, hnum⟩ := numeral_of_scan h
    refine .inl ⟨n, k, rfl, p, hp, hlen, hnum, fun q m hq hnum' => ?_⟩
    obtain ⟨n', k', hscan, hle⟩ := hnum'.scan_prefix hq
    rw [h, Option.some.injEq, Prod.mk.injEq] at hscan
    rwa [hscan.2]

end Script

end ByoRedis.Lib.Numerals
