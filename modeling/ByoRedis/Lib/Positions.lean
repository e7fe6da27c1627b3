import Mathlib.Data.Int.Notation
import Mathlib.Data.List.Basic

/-!
Positions in lists: at an integer, where a position outside of the list holds nothing, and where
the values with a property end that come before all others.
-/

namespace ByoRedis.Lib.Positions

variable {α : Type*}

/-- The value at an integer position of a list. -/
def nth (xs : List α) (k : ℤ) : Option α := if k < 0 then none else xs[k.toNat]?

lemma nth_natCast (xs : List α) (k : ℕ) : nth xs k = xs[k]? := by
  rw [nth, if_neg (by omega), Int.toNat_natCast]

lemma nth_eq_none {xs : List α} {k : ℤ} (h : k < 0 ∨ xs.length ≤ k) : nth xs k = none := by
  unfold nth
  split_ifs with hk
  · rfl
  · exact List.getElem?_eq_none (by omega)

lemma nth_append_left {xs : List α} {k : ℤ} (h : k < xs.length) (ys : List α) :
    nth (xs ++ ys) k = nth xs k := by
  unfold nth
  split_ifs with hk
  · rfl
  · exact List.getElem?_append_left (by omega)

lemma nth_append_right {xs : List α} {k : ℤ} (h : 0 ≤ k) (ys : List α) :
    nth (xs ++ ys) (xs.length + k) = nth ys k := by
  unfold nth
  rw [if_neg (by omega), if_neg (by omega), List.getElem?_append_right (by omega)]
  congr 1
  omega

/-! ### Values with a property, before all others -/

section Cut

variable {p q : α → Bool} {l : List α}

lemma countP_eq_zero_of_head {a : α} (h : (a :: l).Pairwise fun x y => p y → p x)
    (ha : p a = false) :
    l.countP p = 0 := by
  rw [List.countP_eq_zero]
  intro x hx hp
  rw [(List.pairwise_cons.mp h).1 x hx hp] at ha
  simp at ha

/-- The first value without the property is at the position that counts those with it. -/
lemma find?_not (h : l.Pairwise fun x y => p y → p x) :
    (l.find? fun x => !p x) = l[l.countP p]? := by
  induction l with
  | nil => rfl
  | cons a l ih =>
    rw [List.find?_cons, List.countP_cons]
    cases ha : p a with
    | true =>
      simp only [Bool.not_true, if_true, List.getElem?_cons_succ]
      exact ih (List.pairwise_cons.mp h).2
    | false => simp [countP_eq_zero_of_head h ha]

/-- A value has the property where it stands before that position. -/
lemma lt_countP_iff (h : l.Pairwise fun x y => p y → p x) {i : ℕ} {a : α} (hi : l[i]? = some a) :
    i < l.countP p ↔ p a = true := by
  induction l generalizing i with
  | nil => simp at hi
  | cons b l ih =>
    rw [List.countP_cons]
    cases hb : p b with
    | true =>
      cases i with
      | zero =>
        obtain rfl : b = a := by simpa using hi
        simp [hb]
      | succ i =>
        rw [List.getElem?_cons_succ] at hi
        rw [← ih (List.pairwise_cons.mp h).2 hi, if_pos rfl]
        omega
    | false =>
      rw [countP_eq_zero_of_head h hb]
      have hpa : p a ≠ true := by
        intro hp
        rcases List.mem_cons.mp (List.mem_of_getElem? hi) with rfl | ha
        · rw [hb] at hp
          simp at hp
        · rw [(List.pairwise_cons.mp h).1 a ha hp] at hb
          simp at hb
      simp [hpa]

lemma countP_between (hpq : ∀ x ∈ l, p x → q x) :
    (l.countP fun x => !p x && q x) = l.countP q - l.countP p := by
  induction l with
  | nil => rfl
  | cons a l ih =>
    have hle : l.countP p ≤ l.countP q :=
      List.countP_mono_left fun x hx => hpq x (List.mem_cons_of_mem a hx)
    have ha := hpq a List.mem_cons_self
    rw [List.countP_cons, List.countP_cons, List.countP_cons,
      ih fun x hx => hpq x (List.mem_cons_of_mem a hx)]
    cases hp : p a with
    | true =>
      simp only [ha hp, Bool.not_true, Bool.false_and, if_true, Bool.false_eq_true, if_false]
      omega
    | false =>
      cases hq : q a <;> simp
      omega

end Cut

end ByoRedis.Lib.Positions
