import Mathlib.Data.List.Lex
import Mathlib.Data.Prod.Lex
import Mathlib.Algebra.Order.Ring.Int
import ByoRedis.SortedSet

/-!
The order of the members of a sorted set: by score, then by name.

Names are compared byte by byte, a proper prefix first, so that their order is the
lexicographic order of lists. Both comparisons of the source decide it.
-/

namespace ByoRedis.MemberOrder

open ByoRedis.Basic ByoRedis.HashTable ByoRedis.SortedSet ByoRedis.Lib.Runs

/-- Where a pair stands in the order. -/
def rank (score : Score) (name : Bytes) : ℤ ×ₗ List ℕ := toLex (score.ord, name.map UInt8.toNat)

lemma toNat_map_injective : Function.Injective (List.map UInt8.toNat) :=
  List.map_injective_iff.mpr fun _ _ => UInt8.toNat_inj.mp

lemma rank_ne {s s' : Score} {n n' : Bytes} (h : n ≠ n') : rank s n ≠ rank s' n' := by
  intro e
  exact h (toNat_map_injective (Prod.mk.inj (toLex.injective e)).2)

lemma memcmp_eq_zero {a b : Bytes} (h : a.length = b.length) : memcmp a b = 0 ↔ a = b := by
  induction a generalizing b with
  | nil =>
    cases b with
    | nil => simp [memcmp]
    | cons y b => simp at h
  | cons x a ih =>
    cases b with
    | nil => simp at h
    | cons y b =>
      simp only [List.length_cons, Nat.add_right_cancel_iff] at h
      by_cases hxy : x = y
      · simp [memcmp, hxy, ih h]
      · have : x.toNat ≠ y.toNat := fun e => hxy (UInt8.toNat_inj.mp e)
        rw [memcmp, if_neg hxy]
        simp only [List.cons.injEq, hxy, false_and, iff_false]
        omega

/-- Names are compared on their common length, and then by their lengths. -/
def nameLess (a b : Bytes) : Bool :=
  let n := min a.length b.length
  let rv := memcmp (a.take n) (b.take n)
  if rv ≠ 0 then rv < 0 else a.length < b.length

lemma nameLess_iff (a b : Bytes) :
    nameLess a b = true ↔ a.map UInt8.toNat < b.map UInt8.toNat := by
  induction a generalizing b with
  | nil => cases b <;> simp [nameLess, memcmp]
  | cons x a ih =>
    cases b with
    | nil => simp [nameLess, memcmp]
    | cons y b =>
      have ih := ih b
      rw [List.map_cons, List.map_cons, List.cons_lt_cons_iff, ← ih]
      by_cases hxy : x = y
      · subst hxy
        simp [nameLess, memcmp, Nat.add_min_add_right]
      · have hne : x.toNat ≠ y.toNat := fun e => hxy (UInt8.toNat_inj.mp e)
        simp only [nameLess, List.length_cons, Nat.add_min_add_right, List.take_succ_cons, memcmp,
          if_neg hxy]
        rw [if_pos (by omega)]
        simp only [decide_eq_true_eq, hne, false_and, or_false]
        omega

lemma rank_lt_iff {s s' : Score} {n n' : Bytes} : rank s n < rank s' n' ↔
    if s.ord ≠ s'.ord then s.ord < s'.ord else nameLess n n' = true := by
  rw [rank, rank, Prod.Lex.toLex_lt_toLex, nameLess_iff]
  split_ifs with h
  · simp [h]
  · simp only [ne_eq, not_not] at h
    simp [h]

lemma zlessPair_iff (zl : ZNode) (score : Score) (name : Bytes) :
    zlessPair zl score name = true ↔ rank zl.score zl.name < rank score name := by
  rw [rank_lt_iff, zlessPair]
  split_ifs with h
  · simp
  · rfl

lemma zless_eq {zset : ZSet} {a b : Addr} {d e : ZNode} (ha : zset.node a = some d)
    (hb : zset.node b = some e) :
    zless zset a b = .ok (decide (rank d.score d.name < rank e.score e.name)) := by
  have h : zless zset a b = .ok (zlessPair d e.score e.name) := by
    simp only [zless, ZSet.deref, ha, hb, pure_eq_ok, ok_bind, zlessPair]
    split_ifs <;> rfl
  rw [h, Except.ok.injEq, Bool.eq_iff_iff, decide_eq_true_eq]
  exact zlessPair_iff d e.score e.name

lemma hcmp_iff {node : Addr → Option ZNode} {n : HNode Addr} {key : HNode Bytes} :
    hcmp node n key = true ↔ ∃ d, node n.ref = some d ∧ d.name = key.ref := by
  unfold hcmp
  cases node n.ref with
  | none => simp
  | some d =>
    by_cases hl : d.name.length = key.ref.length
    · simp [hl, memcmp_eq_zero hl]
    · have : d.name ≠ key.ref := fun e => hl (by rw [e])
      simp [hl, this]

end ByoRedis.MemberOrder
