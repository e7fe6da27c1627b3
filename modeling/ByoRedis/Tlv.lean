import ByoRedis.ByteBufferSpec
import ByoRedis.Proto

/-!
The values of the format, and the bytes that stand for them.

The writers append these bytes. Lengths and counts are written in 32 bits, so bytes stand for a
value only where the lengths in it fit.
-/

namespace ByoRedis.Tlv

open ByoRedis.Basic ByoRedis.ByteBuffer ByoRedis.Proto ByoRedis.ByteBufferSpec
open ByoRedis.Lib.LittleEndian ByoRedis.Lib.Runs

inductive Value
  | nil
  | err (code : ℕ) (msg : Bytes)
  | str (s : Bytes)
  | int (v : ℤ)
  | dbl (bits : UInt64)
  | arr (elems : List Value)

mutual

def enc : Value → Bytes
  | .nil => [Tag.nil.byte]
  | .err code msg => Tag.err.byte :: (leBytes 4 code ++ (leBytes 4 msg.length ++ msg))
  | .str s => Tag.str.byte :: (leBytes 4 s.length ++ s)
  | .int v => Tag.int.byte :: i64Bytes v
  | .dbl bits => Tag.dbl.byte :: leBytes 8 bits.toNat
  | .arr elems => Tag.arr.byte :: (leBytes 4 elems.length ++ encAll elems)

def encAll : List Value → Bytes
  | [] => []
  | v :: vs => enc v ++ encAll vs

end

@[simp] lemma encAll_nil : encAll [] = [] := rfl
@[simp] lemma encAll_cons (v : Value) (vs : List Value) : encAll (v :: vs) = enc v ++ encAll vs :=
  rfl

mutual

/-- The calls of `print_response` within each other that print a value. -/
def depth : Value → ℕ
  | .arr elems => depthAll elems + 1
  | _ => 1

def depthAll : List Value → ℕ
  | [] => 0
  | v :: vs => max (depth v) (depthAll vs)

end

lemma depth_pos (v : Value) : 0 < depth v := by
  cases v <;> exact Nat.succ_pos _

lemma depth_le_depthAll {v : Value} {vs : List Value} (h : v ∈ vs) : depth v ≤ depthAll vs := by
  induction vs with
  | nil => simp at h
  | cons w vs ih =>
    rcases List.mem_cons.mp h with rfl | h
    · exact Nat.le_max_left ..
    · exact Nat.le_trans (ih h) (Nat.le_max_right ..)

lemma depthAll_le {vs : List Value} {n : ℕ} (h : ∀ v ∈ vs, depth v ≤ n) : depthAll vs ≤ n := by
  induction vs with
  | nil => exact Nat.zero_le n
  | cons w vs ih =>
    exact Nat.max_le.mpr ⟨h w List.mem_cons_self, ih fun v hv => h v (List.mem_cons_of_mem w hv)⟩

lemma depth_arr_le {vs : List Value} {n : ℕ} (h : ∀ v ∈ vs, depth v ≤ n) :
    depth (.arr vs) ≤ n + 1 :=
  Nat.succ_le_succ (depthAll_le h)

def errVal (code : ErrCode) (msg : String) : Value := .err code.code (str msg)

lemma enc_pos (v : Value) : 0 < (enc v).length := by
  cases v <;> simp [enc]

lemma length_le_encAll (vs : List Value) : vs.length ≤ (encAll vs).length := by
  induction vs with
  | nil => exact Nat.le_refl 0
  | cons v vs ih =>
    have := enc_pos v
    rw [encAll_cons, List.length_cons, List.length_append]
    omega

/-! ### What the writers append -/

lemma shows_outNil {b : Buffer} {u : Bytes} {hs : List ℕ} (h : Shows b u hs) :
    Shows (outNil b) (u ++ enc .nil) hs := h.append _

lemma shows_outStr {b : Buffer} {u : Bytes} {hs : List ℕ} (h : Shows b u hs) (s : Bytes) :
    Shows (outStr b s) (u ++ enc (.str s)) hs := by
  have := ((h.append [Tag.str.byte]).append (leBytes 4 s.length)).append s
  rw [List.append_assoc, List.append_assoc] at this
  exact this

lemma shows_outInt {b : Buffer} {u : Bytes} {hs : List ℕ} (h : Shows b u hs) (v : ℤ) :
    Shows (outInt b v) (u ++ enc (.int v)) hs := by
  have := (h.append [Tag.int.byte]).append (i64Bytes v)
  rw [List.append_assoc] at this
  exact this

lemma shows_outDbl {b : Buffer} {u : Bytes} {hs : List ℕ} (h : Shows b u hs) (bits : UInt64) :
    Shows (outDbl b bits) (u ++ enc (.dbl bits)) hs := by
  have := (h.append [Tag.dbl.byte]).append (leBytes 8 bits.toNat)
  rw [List.append_assoc] at this
  exact this

lemma shows_outError {b : Buffer} {u : Bytes} {hs : List ℕ} (h : Shows b u hs) (code : ℕ)
    (msg : Bytes) : Shows (outError b code msg) (u ++ enc (.err code msg)) hs := by
  have := (((h.append [Tag.err.byte]).append (leBytes 4 code)).append
    (leBytes 4 msg.length)).append msg
  rw [List.append_assoc, List.append_assoc, List.append_assoc] at this
  exact this

lemma shows_outErr {b : Buffer} {u : Bytes} {hs : List ℕ} (h : Shows b u hs) (code : ErrCode)
    (msg : String) : Shows (outErr b code msg) (u ++ enc (errVal code msg)) hs := by
  exact shows_outError h code.code (str msg)

def arrHead (n : ℕ) : Bytes := Tag.arr.byte :: leBytes 4 n

lemma enc_arr (vs : List Value) : enc (.arr vs) = arrHead vs.length ++ encAll vs := rfl

lemma shows_outArr {b : Buffer} {u : Bytes} {hs : List ℕ} (h : Shows b u hs) (n : ℕ) :
    Shows (outArr b n) (u ++ arrHead n) hs := by
  have := (h.append [Tag.arr.byte]).append (leBytes 4 n)
  rw [List.append_assoc] at this
  exact this

lemma shows_outBeginArr {b : Buffer} {u : Bytes} {hs : List ℕ} (h : Shows b u hs) :
    Shows (outBeginArr b) (u ++ arrHead 0) ((u.length + 1) :: hs) := by
  have := ((h.append [Tag.arr.byte]).push).append (leBytes 4 0)
  rw [List.append_assoc, List.length_append, List.length_singleton] at this
  exact this

/-- **`out_end_arr`** fills in the count; its assertion does not fail. -/
theorem shows_outEndArr {b : Buffer} {u body : Bytes} {hs : List ℕ} {n₀ : ℕ}
    (h : Shows b (u ++ arrHead n₀ ++ body) ((u.length + 1) :: hs)) (n : ℕ) :
    ∃ b', outEndArr b n = .ok b' ∧ Shows b' (u ++ arrHead n ++ body) hs := by
  obtain ⟨b', pos, -, hpop, hb', hpos, hsame⟩ := h.pop
  have hr : b'.readableBegin = b.readableBegin := by rw [hsame]
  have hsplit : ∀ k, u ++ arrHead k ++ body = (u ++ [Tag.arr.byte]) ++ (leBytes 4 k ++ body) := by
    intro k
    simp [arrHead]
  rw [hsplit] at hb' ⊢
  have htag : b'.buf[pos - 1]? = some Tag.arr.byte := by
    obtain ⟨pre, post, hbuf, hr', -⟩ := hb'
    have hlen : pos - 1 = (pre ++ u).length := by
      rw [hpos, ← hr, hr', List.length_append]
      omega
    have hsplit' : b'.buf = (pre ++ u) ++ Tag.arr.byte :: (leBytes 4 n₀ ++ body ++ post) := by
      rw [hbuf]
      simp
    rw [hsplit', hlen]
    simp
  refine ⟨_, ?_, hb'.fill (leBytes 4 n) (by simp)⟩
  have hat : pos = b'.readableBegin + (u ++ [Tag.arr.byte]).length := by
    rw [hpos, hr, List.length_append, List.length_singleton]
  simp only [outEndArr, hpop, ok_bind, htag, if_true, pure_eq_ok, ← hat]

end ByoRedis.Tlv
