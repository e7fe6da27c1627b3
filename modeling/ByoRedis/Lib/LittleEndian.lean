import Mathlib.Algebra.Group.Nat.Defs
import Mathlib.Data.Nat.Notation
import Mathlib.Data.List.Basic

/-!
Numbers as little-endian bytes.
-/

namespace ByoRedis.Lib.LittleEndian

/-- The `k` low bytes of a number, the lowest first. -/
def leBytes : ℕ → ℕ → List UInt8
  | 0, _ => []
  | k + 1, n => UInt8.ofNat n :: leBytes k (n / 256)

def ofLeBytes : List UInt8 → ℕ
  | [] => 0
  | b :: bs => b.toNat + 256 * ofLeBytes bs

@[simp] lemma leBytes_length (k n : ℕ) : (leBytes k n).length = k := by
  induction k generalizing n with
  | zero => rfl
  | succ k ih => simp [leBytes, ih]

@[simp] lemma ofLeBytes_leBytes (k n : ℕ) : ofLeBytes (leBytes k n) = n % 256 ^ k := by
  induction k generalizing n with
  | zero => simp [leBytes, ofLeBytes, Nat.mod_one]
  | succ k ih =>
    have h8 : 2 ^ 8 = 256 := rfl
    rw [leBytes, ofLeBytes, ih, UInt8.toNat_ofNat', h8, Nat.pow_succ', Nat.mod_mul]

lemma ofLeBytes_lt (bs : List UInt8) : ofLeBytes bs < 256 ^ bs.length := by
  induction bs with
  | nil => simp [ofLeBytes]
  | cons b bs ih =>
    have := b.toNat_lt
    rw [ofLeBytes, List.length_cons, Nat.pow_succ']
    omega

lemma leBytes_ofLeBytes (bs : List UInt8) : leBytes bs.length (ofLeBytes bs) = bs := by
  induction bs with
  | nil => rfl
  | cons b bs ih =>
    have hb := b.toNat_lt
    rw [List.length_cons, leBytes, ofLeBytes, Nat.add_mul_div_left _ _ (by omega),
      Nat.div_eq_of_lt hb, Nat.zero_add, ih]
    congr 1
    refine UInt8.toNat_inj.mp ?_
    rw [UInt8.toNat_ofNat']
    omega

lemma leBytes_append_inj {k a b : ℕ} {x y : List UInt8} (ha : a < 256 ^ k) (hb : b < 256 ^ k)
    (h : leBytes k a ++ x = leBytes k b ++ y) : a = b ∧ x = y := by
  have hlen : (leBytes k a).length = (leBytes k b).length := by
    rw [leBytes_length, leBytes_length]
  obtain ⟨hbytes, hxy⟩ := List.append_inj h hlen
  have hnum := congrArg ofLeBytes hbytes
  rw [ofLeBytes_leBytes, ofLeBytes_leBytes, Nat.mod_eq_of_lt ha, Nat.mod_eq_of_lt hb] at hnum
  exact ⟨hnum, hxy⟩

end ByoRedis.Lib.LittleEndian
