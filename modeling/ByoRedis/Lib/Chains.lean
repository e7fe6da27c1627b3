import Mathlib.Algebra.Group.Nat.Defs
import Mathlib.Data.List.Perm.Basic
import Mathlib.Data.Nat.Bitwise

/-!
Arrays of chains: what replacing one chain does to the elements of all, and masks of low bits.
-/

namespace ByoRedis.Lib.Chains

variable {α : Type*}

lemma flatten_set_perm {l : List (List α)} {i : ℕ} {c : List α} (h : l[i]? = some c)
    (c' : List α) : (c ++ (l.set i c').flatten).Perm (c' ++ l.flatten) := by
  induction l generalizing i with
  | nil => simp at h
  | cons d l ih =>
    cases i with
    | zero =>
      obtain rfl : d = c := by simpa using h
      simp only [List.set_cons_zero, List.flatten_cons]
      exact List.perm_append_comm_assoc _ _ _
    | succ i =>
      have := ih (by simpa using h)
      simp only [List.set_cons_succ, List.flatten_cons]
      calc (c ++ (d ++ (l.set i c').flatten)).Perm (d ++ (c ++ (l.set i c').flatten)) :=
            List.perm_append_comm_assoc _ _ _
        _ |>.Perm (d ++ (c' ++ l.flatten)) := this.append_left d
        _ |>.Perm (c' ++ (d ++ l.flatten)) := List.perm_append_comm_assoc _ _ _

lemma flatten_set_cons {l : List (List α)} {i : ℕ} {c : List α} (h : l[i]? = some c) (a : α) :
    (l.set i (a :: c)).flatten.Perm (a :: l.flatten) := by
  have := flatten_set_perm h (a :: c)
  exact (List.perm_append_left_iff c).mp (this.trans List.perm_middle.symm)

lemma flatten_set_eraseIdx {l : List (List α)} {i j : ℕ} {ch : List α} {a : α}
    (h : l[i]? = some ch) (ha : ch[j]? = some a) :
    l.flatten.Perm (a :: (l.set i (ch.eraseIdx j)).flatten) := by
  obtain ⟨hj, rfl⟩ := List.getElem?_eq_some_iff.mp ha
  have h1 := flatten_set_perm h (ch.eraseIdx j)
  have h2 := List.getElem_cons_eraseIdx_perm hj
  have h3 : (ch.eraseIdx j ++ ch[j] :: (l.set i (ch.eraseIdx j)).flatten).Perm
      (ch.eraseIdx j ++ l.flatten) :=
    List.perm_middle.trans ((h2.append_right _).trans h1)
  exact ((List.perm_append_left_iff _).mp h3).symm

lemma mem_flatten_of_getElem? {l : List (List α)} {i j : ℕ} {ch : List α} {a : α}
    (h : l[i]? = some ch) (ha : ch[j]? = some a) : a ∈ l.flatten :=
  List.mem_flatten.mpr ⟨ch, List.mem_of_getElem? h, List.mem_of_getElem? ha⟩

lemma exists_getElem?_of_mem_flatten {l : List (List α)} {a : α} (h : a ∈ l.flatten) :
    ∃ (i : ℕ) (c : List α), l[i]? = some c ∧ a ∈ c := by
  obtain ⟨c, hc, ha⟩ := List.mem_flatten.mp h
  obtain ⟨i, hi⟩ := List.mem_iff_getElem?.mp hc
  exact ⟨i, c, hi, ha⟩

/-! ### Masks -/

lemma two_pow_sub_one_or_shiftRight (k j : ℕ) :
    (2 ^ k - 1) ||| (2 ^ k - 1) >>> j = 2 ^ k - 1 := by
  refine Nat.eq_of_testBit_eq fun i => ?_
  rw [Nat.testBit_or, Nat.testBit_shiftRight, Nat.testBit_two_pow_sub_one,
    Nat.testBit_two_pow_sub_one]
  by_cases h : i < k
  · simp [h]
  · have : ¬ j + i < k := by omega
    simp [h, this]

lemma two_pow_sub_one_and (k : ℕ) : (2 ^ k - 1) &&& 2 ^ k = 0 := by
  rw [Nat.and_comm, Nat.and_two_pow_sub_one_eq_mod, Nat.mod_self]

end ByoRedis.Lib.Chains
