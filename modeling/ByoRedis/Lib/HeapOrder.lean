import Mathlib.Logic.Equiv.Basic
import Mathlib.Order.Lattice
import Mathlib.Logic.Function.Basic

/-!
The order of a binary heap in an array, and how it is restored around one position.

Positions past the end of an array carry a greatest value, so the order is a property of a
sequence of keys on all natural numbers. Moving an item to its parent or to a kid swaps two
keys of the sequence.
-/

namespace ByoRedis.Lib.HeapOrder

variable {α : Type*} [LinearOrder α] {f : ℕ → α}

def parent (i : ℕ) : ℕ := (i - 1) / 2

/-- `i` is a kid of `p`. -/
def Kid (i p : ℕ) : Prop := 0 < i ∧ parent i = p

lemma kid_iff {i p : ℕ} : Kid i p ↔ i = 2 * p + 1 ∨ i = 2 * p + 2 := by
  unfold Kid parent
  omega

lemma Kid.lt {i p : ℕ} (h : Kid i p) : p < i := by
  unfold Kid parent at h
  omega

lemma Kid.unique {i p q : ℕ} (h : Kid i p) (h' : Kid i q) : p = q := h.2.symm.trans h'.2

lemma kid_parent {i : ℕ} (h : 0 < i) : Kid i (parent i) := ⟨h, rfl⟩

def Ordered (f : ℕ → α) : Prop := ∀ p i, Kid i p → f p ≤ f i

/-- In order but for one position and its parent. -/
structure UpOrder (f : ℕ → α) (pos : ℕ) : Prop where
  pairs : ∀ p i, Kid i p → i ≠ pos → f p ≤ f i
  grand : ∀ q i, Kid pos q → Kid i pos → f q ≤ f i

/-- In order but for one position and its kids. -/
structure DownOrder (f : ℕ → α) (pos : ℕ) : Prop where
  pairs : ∀ p i, Kid i p → p ≠ pos → f p ≤ f i
  grand : ∀ q i, Kid pos q → Kid i pos → f q ≤ f i

/-- In order but for one position. -/
structure Around (f : ℕ → α) (pos : ℕ) : Prop where
  pairs : ∀ p i, Kid i p → p ≠ pos → i ≠ pos → f p ≤ f i
  grand : ∀ q i, Kid pos q → Kid i pos → f q ≤ f i

lemma Ordered.root_le (h : Ordered f) (i : ℕ) : f 0 ≤ f i := by
  induction i using Nat.strongRecOn with
  | ind i ih =>
    rcases Nat.eq_zero_or_pos i with rfl | hi
    · exact le_rfl
    · exact (ih _ (kid_parent hi).lt).trans (h _ i (kid_parent hi))

/-- Any key may be written to a position of a heap. -/
lemma Ordered.around (h : Ordered f) {g : ℕ → α} {pos : ℕ} (e : ∀ i ≠ pos, g i = f i) :
    Around g pos := by
  refine ⟨fun p i hk hp hi => by rw [e p hp, e i hi]; exact h p i hk, fun q i hq hi => ?_⟩
  rw [e q (Nat.ne_of_lt hq.lt), e i (Nat.ne_of_gt hi.lt)]
  exact (h q pos hq).trans (h pos i hi)

lemma Around.up {pos : ℕ} (h : Around f pos) (hlt : f pos < f (parent pos)) (hpos : 0 < pos) :
    UpOrder f pos := by
  refine ⟨fun p i hk hi => ?_, h.grand⟩
  by_cases hp : p = pos
  · subst hp
    exact hlt.le.trans (h.grand _ i (kid_parent hpos) hk)
  · exact h.pairs p i hk hp hi

lemma Around.down {pos : ℕ} (h : Around f pos) (hle : 0 < pos → f (parent pos) ≤ f pos) :
    DownOrder f pos := by
  refine ⟨fun p i hk hp => ?_, h.grand⟩
  by_cases hi : i = pos
  · subst hi
    rw [← hk.2]
    exact hle hk.1
  · exact h.pairs p i hk hp hi

lemma UpOrder.done {pos : ℕ} (h : UpOrder f pos) (hle : 0 < pos → f (parent pos) ≤ f pos) :
    Ordered f := by
  intro p i hk
  by_cases hi : i = pos
  · subst hi
    rw [← hk.2]
    exact hle hk.1
  · exact h.pairs p i hk hi

lemma DownOrder.done {pos : ℕ} (h : DownOrder f pos) (hle : ∀ c, Kid c pos → f pos ≤ f c) :
    Ordered f := by
  intro p i hk
  by_cases hp : p = pos
  · subst hp
    exact hle i hk
  · exact h.pairs p i hk hp

/-- The item smaller than its parent changes places with it. -/
lemma UpOrder.move {pos q : ℕ} (h : UpOrder f pos) (hq : Kid pos q) (hlt : f pos < f q) :
    UpOrder (f ∘ Equiv.swap pos q) q := by
  have hqp := hq.lt
  have hs : ∀ i, i ≠ pos → i ≠ q → (f ∘ Equiv.swap pos q) i = f i := fun i h1 h2 => by
    rw [Function.comp_apply, Equiv.swap_apply_of_ne_of_ne h1 h2]
  have hpos : (f ∘ Equiv.swap pos q) pos = f q := by simp
  have hqv : (f ∘ Equiv.swap pos q) q = f pos := by simp
  refine ⟨fun p i hk hi => ?_, fun g i hg hk => ?_⟩
  · by_cases hip : i = pos
    · subst hip
      rw [hpos, hk.unique hq, hqv]
      exact hlt.le
    · rw [hs i hip hi]
      by_cases hpp : p = pos
      · subst hpp
        rw [hpos]
        exact h.grand q i hq hk
      · by_cases hpq : p = q
        · subst hpq
          rw [hqv]
          exact hlt.le.trans (h.pairs p i hk hip)
        · rw [hs p hpp hpq]
          exact h.pairs p i hk hip
  · have hgq := hg.lt
    have hgq' : f g ≤ f q := h.pairs g q hg (by omega)
    rw [hs g (by omega) (by omega)]
    by_cases hip : i = pos
    · subst hip
      rw [hpos]
      exact hgq'
    · rw [hs i hip (Nat.ne_of_gt hk.lt)]
      exact hgq'.trans (h.pairs q i hk hip)

/-- The item greater than its smaller kid changes places with it. -/
lemma DownOrder.move {pos c : ℕ} (h : DownOrder f pos) (hc : Kid c pos) (hlt : f c < f pos)
    (hmin : ∀ d, Kid d pos → f c ≤ f d) : DownOrder (f ∘ Equiv.swap pos c) c := by
  have hcp := hc.lt
  have hs : ∀ i, i ≠ pos → i ≠ c → (f ∘ Equiv.swap pos c) i = f i := fun i h1 h2 => by
    rw [Function.comp_apply, Equiv.swap_apply_of_ne_of_ne h1 h2]
  have hpos : (f ∘ Equiv.swap pos c) pos = f c := by simp
  have hcv : (f ∘ Equiv.swap pos c) c = f pos := by simp
  refine ⟨fun p i hk hp => ?_, fun q i hq hk => ?_⟩
  · by_cases hic : i = c
    · subst hic
      rw [hk.unique hc, hpos, hcv]
      exact hlt.le
    · by_cases hpp : p = pos
      · subst hpp
        rw [hpos, hs i (Nat.ne_of_gt hk.lt) hic]
        exact hmin i hk
      · rw [hs p hpp hp]
        by_cases hip : i = pos
        · subst hip
          rw [hpos]
          exact h.grand p c hk hc
        · rw [hs i hip hic]
          exact h.pairs p i hk hpp
  · obtain rfl : q = pos := hq.unique hc
    have := hk.lt
    rw [hpos, hs i (by omega) (by omega)]
    exact h.pairs c i hk (by omega)

end ByoRedis.Lib.HeapOrder
