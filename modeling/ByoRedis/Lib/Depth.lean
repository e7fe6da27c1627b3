import Mathlib.Data.Nat.Fib.Basic
import Mathlib.Data.Nat.Log
import ByoRedis.Lib.Trees

/-!
How high a balanced tree can be.

A balanced tree has one side that is one lower, and the other is two lower at most: the least number
of nodes for a height grows like the Fibonacci numbers.
-/

namespace ByoRedis.Lib.Depth

open ByoRedis.Lib.Trees

variable {α : Type*}

/-- The nodes that a balanced tree has at least. -/
theorem fib_height_le {t : BinaryTree α} (h : Balanced t) :
    Nat.fib (t.height + 2) ≤ t.numNodes + 1 := by
  induction t with
  | nil => simp
  | node a l r ihl ihr =>
    obtain ⟨hl, hr, hlr, hrl⟩ := h
    have ihl := ihl hl
    have ihr := ihr hr
    have hmono := @Nat.fib_mono
    simp only [BinaryTree.height, BinaryTree.numNodes]
    rcases le_total l.height r.height with hle | hle
    · have h₁ := hmono (by omega : r.height + 1 ≤ l.height + 2)
      calc Nat.fib (max l.height r.height + 1 + 2)
        _ = Nat.fib (r.height + 1) + Nat.fib (r.height + 2) := by
          rw [max_eq_right hle, ← Nat.fib_add_two]
        _ ≤ l.numNodes + r.numNodes + 1 + 1 := by omega
    · have h₁ := hmono (by omega : l.height + 1 ≤ r.height + 2)
      calc Nat.fib (max l.height r.height + 1 + 2)
        _ = Nat.fib (l.height + 1) + Nat.fib (l.height + 2) := by
          rw [max_eq_left hle, ← Nat.fib_add_two]
        _ ≤ l.numNodes + r.numNodes + 1 + 1 := by omega

lemma two_pow_le_fib (k : ℕ) : 2 ^ (k / 2) ≤ Nat.fib (k + 2) := by
  induction k using Nat.twoStepInduction with
  | zero => decide
  | one => decide
  | more k ih _ =>
    have hle : Nat.fib (k + 2) ≤ Nat.fib (k + 3) := Nat.fib_mono (by omega)
    calc 2 ^ ((k + 2) / 2)
      _ = 2 ^ (k / 2) + 2 ^ (k / 2) := by
        rw [Nat.add_div_right k (by decide), Nat.pow_succ, Nat.mul_two]
      _ ≤ Nat.fib (k + 2) + Nat.fib (k + 3) := Nat.add_le_add ih (ih.trans hle)
      _ = Nat.fib (k + 2 + 2) := (Nat.fib_add_two).symm

/-- **A balanced tree is low.** -/
theorem height_le_log {t : BinaryTree α} (h : Balanced t) :
    t.height ≤ 2 * Nat.log 2 (t.numNodes + 1) + 1 := by
  have hpow : 2 ^ (t.height / 2) ≤ t.numNodes + 1 :=
    (two_pow_le_fib t.height).trans (fib_height_le h)
  have hlog := Nat.le_log_of_pow_le (by decide) hpow
  omega

end ByoRedis.Lib.Depth
