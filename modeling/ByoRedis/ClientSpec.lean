import Mathlib.Data.List.TakeWhile
import ByoRedis.Client
import ByoRedis.StoreRuns

/-!
Responses as the server writes them and as the client reads them.

The bytes of a value are printed to the last one, whatever comes after them. An array is printed by
printing its elements one after the other, each from where the one before it ended.
-/

namespace ByoRedis.ClientSpec

open ByoRedis.Basic ByoRedis.ByteBuffer ByoRedis.ByteBufferSpec ByoRedis.Proto ByoRedis.Tlv
open ByoRedis.Database ByoRedis.DatabaseSpec ByoRedis.Commands ByoRedis.Conn ByoRedis.ResponseSpec
open ByoRedis.StoreRuns ByoRedis.Client ByoRedis.Lib.Runs ByoRedis.Lib.LittleEndian
open ByoRedis.Lib.Frames

mutual

/-- What is printed of a value; `printf` ends a text at its first zero. -/
def shown : Value → List Printed
  | .nil => [.nil]
  | .err code msg => [.err (toI32 (code % 2 ^ 32)) (cStr msg)]
  | .str s => [.str (cStr s)]
  | .int v => [.int (toI64 (v % 2 ^ 64).toNat)]
  | .dbl bits => [.dbl bits]
  | .arr elems => .arr elems.length :: (shownAll elems ++ [.arrEnd])

def shownAll : List Value → List Printed
  | [] => []
  | v :: vs => shown v ++ shownAll vs

end

lemma enc_le_encAll {v : Value} {vs : List Value} (h : v ∈ vs) :
    (enc v).length ≤ (encAll vs).length := by
  induction vs with
  | nil => simp at h
  | cons w vs ih =>
    rw [encAll_cons, List.length_append]
    rcases List.mem_cons.mp h with rfl | h
    · omega
    · have := ih h
      omega

/-! ### Reading memory -/

lemma readAt_leBytes (pre : Bytes) (n k : ℕ) (rest : Bytes) :
    readAt (pre ++ (leBytes n k ++ rest)) pre.length n = .ok (k % 256 ^ n) := by
  have hlen : pre.length + n ≤ (pre ++ (leBytes n k ++ rest)).length := by
    simp only [List.length_append, leBytes_length]
    omega
  unfold readAt
  rw [if_pos hlen, List.drop_left, List.take_left' (leBytes_length n k), ofLeBytes_leBytes]
  rfl

lemma toI32_of_lt {n : ℕ} (h : n < 2 ^ 31) : toI32 n = n := by
  unfold toI32
  refine Int.bmod_eq_of_le ?_ ?_ <;> omega

/-- A text that is all there is printed, up to its first zero. -/
lemma printText_spec {s : Bytes} (hs : s.length < 2 ^ 31) (rest : Bytes) :
    printText (s ++ rest) (toI32 s.length) = .ok (cStr s) := by
  have hnot : ¬ (s.length : ℤ) < 0 := by omega
  have hle : 0 ≤ (s.length : ℤ) ∧ s.length ≤ (s ++ rest).length := by
    refine ⟨by omega, ?_⟩
    rw [List.length_append]
    exact Nat.le_add_right _ _
  unfold printText
  rw [toI32_of_lt hs, if_neg hnot, Int.toNat_natCast, List.take_left]
  by_cases hz : 0 ∈ s
  · rw [if_pos hz]
    rfl
  · have hall : cStr s = s := by
      refine List.takeWhile_eq_self_iff.mpr fun b hb => ?_
      simpa using fun h : b = 0 => hz (h ▸ hb)
    rw [if_neg hz, if_pos hle, hall]
    rfl

/-! ### Printing -/

/-- This way to print prints a value from its bytes, and tells how many they are. -/
def Prints (print : Bytes → ℕ → Eff (ℤ × List Printed)) (v : Value) : Prop :=
  ∀ rest size, (enc v).length ≤ size → size < 2 ^ 64 →
    print (enc v ++ rest) size = .ok ((enc v).length, shown v)

/-- This way to print finds no room on the stack for a value, however its bytes go on. -/
def Overflows (print : Bytes → ℕ → Eff (ℤ × List Printed)) (v : Value) : Prop :=
  ∀ rest size, (enc v).length ≤ size → size < 2 ^ 64 → print (enc v ++ rest) size = .error .overflow

lemma left_eq {pre u : Bytes} {v : Value} {size : ℕ}
    (hsize : (pre ++ (enc v ++ u)).length ≤ size) (h64 : size < 2 ^ 64) :
    (2 ^ 64 + size - pre.length) % 2 ^ 64 = size - pre.length ∧
      (enc v).length ≤ size - pre.length ∧
      (pre.length + (enc v).length) % 2 ^ 64 = (pre ++ enc v).length := by
  rw [List.length_append, List.length_append] at hsize
  rw [List.length_append]
  exact ⟨by omega, by omega, Nat.mod_eq_of_lt (by omega)⟩

/-- An element that is printed is followed by the others, from where it ended. -/
lemma printElems_next {print : Bytes → ℕ → Eff (ℤ × List Printed)} {v : Value} {vs : List Value}
    (hprint : Prints print v) (pre rest : Bytes) {size : ℕ}
    (hsize : (pre ++ encAll (v :: vs)).length ≤ size) (h64 : size < 2 ^ 64) :
    printElems print (pre ++ (encAll (v :: vs) ++ rest)) size (v :: vs).length pre.length =
      (do
        let r ← printElems print (pre ++ enc v ++ (encAll vs ++ rest)) size vs.length
          (pre ++ enc v).length
        pure (r.1, shown v ++ r.2)) := by
  rw [encAll_cons] at hsize
  obtain ⟨hleft, hle, hnext⟩ := left_eq hsize h64
  have hv := hprint (encAll vs ++ rest) (size - pre.length) hle (by omega)
  have hnot : ¬ ((enc v).length : ℤ) < 0 := by omega
  rw [encAll_cons, List.append_assoc, List.length_cons]
  conv_lhs => unfold printElems
  rw [List.drop_left, hleft, hv, ok_bind]
  dsimp only
  rw [if_neg hnot, Int.toNat_natCast, hnext, List.append_assoc]

lemma printElems_spec {print : Bytes → ℕ → Eff (ℤ × List Printed)} {vs : List Value}
    (hprint : ∀ v ∈ vs, Prints print v) (pre rest : Bytes) {size : ℕ}
    (hsize : (pre ++ encAll vs).length ≤ size) (h64 : size < 2 ^ 64) :
    printElems print (pre ++ (encAll vs ++ rest)) size vs.length pre.length =
      .ok (.inr (pre ++ encAll vs).length, shownAll vs) := by
  induction vs generalizing pre with
  | nil => simp [printElems, shownAll]
  | cons v vs ih =>
    rw [printElems_next (hprint v List.mem_cons_self) pre rest hsize h64]
    rw [encAll_cons, ← List.append_assoc] at hsize
    rw [ih (fun w hw => hprint w (List.mem_cons_of_mem v hw)) (pre ++ enc v) hsize, ok_bind,
      encAll_cons, ← List.append_assoc]
    rfl

/-- The first element without room on the stack ends the process. -/
lemma printElems_overflows {print : Bytes → ℕ → Eff (ℤ × List Printed)} {vs : List Value}
    (hprint : ∀ v ∈ vs, Prints print v ∨ Overflows print v) (hdeep : ∃ v ∈ vs, Overflows print v)
    (pre rest : Bytes) {size : ℕ} (hsize : (pre ++ encAll vs).length ≤ size) (h64 : size < 2 ^ 64) :
    printElems print (pre ++ (encAll vs ++ rest)) size vs.length pre.length = .error .overflow := by
  induction vs generalizing pre with
  | nil => simp at hdeep
  | cons v vs ih =>
    by_cases hv : Overflows print v
    · rw [encAll_cons] at hsize ⊢
      obtain ⟨hleft, hle, -⟩ := left_eq hsize h64
      have hout := hv (encAll vs ++ rest) (size - pre.length) hle (by omega)
      rw [List.append_assoc, List.length_cons]
      unfold printElems
      rw [List.drop_left, hleft, hout]
      rfl
    · have hrest : ∃ w ∈ vs, Overflows print w := by
        obtain ⟨w, hw, h⟩ := hdeep
        rcases List.mem_cons.mp hw with rfl | hw
        · exact absurd h hv
        · exact ⟨w, hw, h⟩
      rw [printElems_next ((hprint v List.mem_cons_self).resolve_right hv) pre rest hsize h64]
      rw [encAll_cons, ← List.append_assoc] at hsize
      rw [ih (fun w hw => hprint w (List.mem_cons_of_mem v hw)) hrest (pre ++ enc v) hsize]
      rfl

lemma prints_nil (stack : ℕ) : Prints (printResponse (stack + 1)) .nil := by
  intro rest size hsize _
  have h1 : ¬ size < 1 := Nat.not_lt.mpr hsize
  unfold printResponse
  rw [if_neg h1]
  rfl

/-- The sum that is compared with the size, and returned, does not wrap. -/
lemma toI32_mod {n k : ℕ} (h : n + k < 2 ^ 31) :
    k % 256 ^ 4 = k ∧ (n + k) % 2 ^ 32 = n + k ∧ toI32 (n + k) = (n + k : ℕ) :=
  ⟨Nat.mod_eq_of_lt (by omega), Nat.mod_eq_of_lt (by omega), toI32_of_lt h⟩

lemma prints_err (stack code : ℕ) {msg : Bytes} (hlen : (enc (.err code msg)).length < 2 ^ 31) :
    Prints (printResponse (stack + 1)) (.err code msg) := by
  intro rest size hsize _
  have henc : (enc (.err code msg)).length = 1 + 8 + msg.length := by
    simp only [enc, List.length_cons, List.length_append, leBytes_length]
    omega
  rw [henc] at hlen hsize
  obtain ⟨hmod, hsum, hret⟩ := toI32_mod hlen
  have hdata : enc (.err code msg) ++ rest =
      Tag.err.byte :: (leBytes 4 code ++ (leBytes 4 msg.length ++ (msg ++ rest))) := by
    simp [enc]
  have hcode : readAt (Tag.err.byte :: (leBytes 4 code ++ (leBytes 4 msg.length ++ (msg ++ rest))))
      1 4 = .ok (code % 256 ^ 4) := readAt_leBytes [Tag.err.byte] 4 code _
  have hread : readAt (Tag.err.byte :: (leBytes 4 code ++ (leBytes 4 msg.length ++ (msg ++ rest))))
      (1 + 4) 4 = .ok (msg.length % 256 ^ 4) :=
    readAt_leBytes (Tag.err.byte :: leBytes 4 code) 4 msg.length _
  have hdrop : (Tag.err.byte :: (leBytes 4 code ++ (leBytes 4 msg.length ++ (msg ++ rest)))).drop
      (1 + 8) = msg ++ rest := rfl
  rw [hdata, henc]
  unfold printResponse
  rw [if_neg (by omega)]
  dsimp only
  rw [if_neg (by decide), if_pos rfl, if_neg (by omega), hcode, ok_bind, hread, ok_bind, hmod, hsum,
    if_neg (by omega), hdrop, printText_spec (by omega), ok_bind, hret]
  rfl

lemma prints_str (stack : ℕ) {s : Bytes} (hlen : (enc (.str s)).length < 2 ^ 31) :
    Prints (printResponse (stack + 1)) (.str s) := by
  intro rest size hsize _
  have henc : (enc (.str s)).length = 1 + 4 + s.length := by
    simp only [enc, List.length_cons, List.length_append, leBytes_length]
    omega
  rw [henc] at hlen hsize
  obtain ⟨hmod, hsum, hret⟩ := toI32_mod hlen
  have hdata : enc (.str s) ++ rest = Tag.str.byte :: (leBytes 4 s.length ++ (s ++ rest)) := by
    simp [enc]
  have hread : readAt (Tag.str.byte :: (leBytes 4 s.length ++ (s ++ rest))) 1 4 =
      .ok (s.length % 256 ^ 4) := readAt_leBytes [Tag.str.byte] 4 s.length _
  have hdrop : (Tag.str.byte :: (leBytes 4 s.length ++ (s ++ rest))).drop (1 + 4) = s ++ rest := rfl
  rw [hdata, henc]
  unfold printResponse
  rw [if_neg (by omega)]
  dsimp only
  rw [if_neg (by decide), if_neg (by decide), if_pos rfl, if_neg (by omega), hread, ok_bind, hmod,
    hsum, if_neg (by omega), hdrop, printText_spec (by omega), ok_bind, hret]
  rfl

lemma prints_int (stack : ℕ) (v : ℤ) : Prints (printResponse (stack + 1)) (.int v) := by
  intro rest size hsize _
  have henc : (enc (.int v)).length = 1 + 8 := by simp [enc, i64Bytes]
  rw [henc] at hsize
  have hread : readAt (enc (.int v) ++ rest) 1 8 = .ok ((v % 2 ^ 64).toNat % 256 ^ 8) :=
    readAt_leBytes [Tag.int.byte] 8 _ rest
  have hmod : (v % 2 ^ 64).toNat % 256 ^ 8 = (v % 2 ^ 64).toNat := Nat.mod_eq_of_lt (by omega)
  rw [henc]
  unfold printResponse
  rw [if_neg (by omega)]
  unfold enc at hread ⊢
  dsimp only [List.cons_append] at hread ⊢
  rw [if_neg (by decide), if_neg (by decide), if_neg (by decide), if_pos rfl, if_neg (by omega),
    hread, ok_bind, hmod]
  rfl

lemma prints_dbl (stack : ℕ) (bits : UInt64) : Prints (printResponse (stack + 1)) (.dbl bits) := by
  intro rest size hsize _
  have henc : (enc (.dbl bits)).length = 1 + 8 := by simp [enc]
  rw [henc] at hsize
  have hread : readAt (enc (.dbl bits) ++ rest) 1 8 = .ok (bits.toNat % 256 ^ 8) :=
    readAt_leBytes [Tag.dbl.byte] 8 _ rest
  have hmod : bits.toNat % 256 ^ 8 = bits.toNat := Nat.mod_eq_of_lt bits.toNat_lt
  rw [henc]
  unfold printResponse
  rw [if_neg (by omega)]
  unfold enc at hread ⊢
  dsimp only [List.cons_append] at hread ⊢
  rw [if_neg (by decide), if_neg (by decide), if_neg (by decide), if_neg (by decide), if_pos rfl,
    if_neg (by omega), hread, ok_bind, hmod, UInt64.ofNat_toNat]
  rfl

lemma printResponse_arr (stack : ℕ) {elems : List Value}
    (hlen : (enc (.arr elems)).length < 2 ^ 31) (rest : Bytes) {size : ℕ}
    (hsize : (enc (.arr elems)).length ≤ size) :
    printResponse (stack + 1) (enc (.arr elems) ++ rest) size =
      (do
        let r ← printElems (printResponse stack) (arrHead elems.length ++ (encAll elems ++ rest))
          size elems.length (arrHead elems.length).length
        pure (r.1.elim (fun rv => (rv, .arr elems.length :: r.2)) fun arrBytes =>
          (toI32 arrBytes, .arr elems.length :: r.2 ++ [.arrEnd]))) := by
  have henc : (enc (.arr elems)).length = 1 + 4 + (encAll elems).length := by
    simp only [enc, List.length_cons, List.length_append, leBytes_length]
    omega
  have hcount := length_le_encAll elems
  have hdata : enc (.arr elems) ++ rest =
      Tag.arr.byte :: (leBytes 4 elems.length ++ (encAll elems ++ rest)) := by
    simp [enc]
  have hread : readAt (Tag.arr.byte :: (leBytes 4 elems.length ++ (encAll elems ++ rest))) 1 4 =
      .ok (elems.length % 256 ^ 4) := readAt_leBytes [Tag.arr.byte] 4 elems.length _
  have hmod : elems.length % 256 ^ 4 = elems.length := Nat.mod_eq_of_lt (by omega)
  rw [hdata]
  conv_lhs => unfold printResponse
  rw [if_neg (by omega)]
  dsimp only
  rw [if_neg (by decide), if_neg (by decide), if_neg (by decide), if_neg (by decide),
    if_neg (by decide), if_pos rfl, if_neg (by omega), hread, ok_bind, hmod]
  refine congrArg (_ >>= ·) (funext fun r => ?_)
  obtain ⟨_ | _, out⟩ := r <;> rfl

lemma prints_arr (stack : ℕ) {elems : List Value} (hlen : (enc (.arr elems)).length < 2 ^ 31)
    (helems : ∀ v ∈ elems, Prints (printResponse stack) v) :
    Prints (printResponse (stack + 1)) (.arr elems) := by
  intro rest size hsize h64
  rw [printResponse_arr stack hlen rest hsize, printElems_spec helems _ rest hsize h64, ok_bind]
  rw [← enc_arr, Sum.elim_inr, toI32_of_lt hlen]
  rfl

lemma elem_length_lt {v : Value} {elems : List Value} (h : v ∈ elems) :
    (enc v).length < (enc (.arr elems)).length := by
  have := enc_le_encAll h
  rw [enc_arr, List.length_append, arrHead, List.length_cons]
  omega

/-- **`print_response`** prints a value from its bytes, to the last one, where the stack has room
for its depth. -/
theorem prints_enc (stack : ℕ) (v : Value) (hdepth : depth v ≤ stack)
    (hlen : (enc v).length < 2 ^ 31) : Prints (printResponse stack) v := by
  induction stack generalizing v with
  | zero => exact absurd (depth_pos v) (Nat.not_lt.mpr hdepth)
  | succ stack ih =>
    cases v with
    | nil => exact prints_nil stack
    | err code msg => exact prints_err stack code hlen
    | str s => exact prints_str stack hlen
    | int v => exact prints_int stack v
    | dbl bits => exact prints_dbl stack bits
    | arr elems =>
      refine prints_arr stack hlen fun v hv => ih v ?_ ((elem_length_lt hv).trans hlen)
      exact (depth_le_depthAll hv).trans (Nat.le_of_succ_le_succ hdepth)

/-- **A value that is deeper** than the stack has room for overflows it, however much of it is
printed before. -/
theorem overflows_enc (stack : ℕ) (v : Value) (hdepth : stack < depth v)
    (hlen : (enc v).length < 2 ^ 31) : Overflows (printResponse stack) v := by
  induction stack generalizing v with
  | zero => exact fun rest size _ _ => rfl
  | succ stack ih =>
    cases v with
    | nil | err | str | int | dbl => exact absurd hdepth (Nat.not_lt.mpr (Nat.le_add_left 1 stack))
    | arr elems =>
      intro rest size hsize h64
      have hdeep : ∃ v ∈ elems, stack < depth v := by
        by_contra h
        push Not at h
        exact absurd hdepth (Nat.not_lt.mpr (depth_arr_le h))
      obtain ⟨w, hw, hlt⟩ := hdeep
      have hor : ∀ v ∈ elems,
          Prints (printResponse stack) v ∨ Overflows (printResponse stack) v := fun v hv => by
        have hshort := (elem_length_lt hv).trans hlen
        rcases Nat.lt_or_ge stack (depth v) with h | h
        · exact .inr (ih v h hshort)
        · exact .inl (prints_enc stack v h hshort)
      rw [printResponse_arr stack hlen rest hsize, printElems_overflows hor
        ⟨w, hw, ih w hlt ((elem_length_lt hw).trans hlen)⟩ _ rest hsize h64]
      rfl

/-- The client reads one frame from the socket, and prints the value in it. -/
theorem readRes_pack {stack : ℕ} {v : Value} (hdepth : depth v ≤ stack)
    (hlen : (enc v).length ≤ maxMsg) (rest : Bytes) :
    readRes stack (pack (enc v) ++ rest) = .ok ((enc v).length, shown v) := by
  have hmax : maxMsg < 2 ^ 31 := by decide
  have hheader : ofLeBytes ((pack (enc v) ++ rest).take 4) = (enc v).length :=
    header_pack (by omega) rest
  have hsocket : (pack (enc v) ++ rest).length = 4 + (enc v).length + rest.length := by
    rw [List.length_append, pack_length]
  have hprint := prints_enc stack v hdepth (by omega) [] _ (Nat.le_refl _) (by omega)
  rw [List.append_nil] at hprint
  unfold readRes
  dsimp only
  rw [hheader, payload_pack, hprint, hsocket, if_neg (by omega), if_neg (by omega),
    if_neg (by omega), ok_bind]
  dsimp only
  rw [if_neg (fun h => h.2 rfl)]
  rfl

/-- **Every answer is one value that the client reads to the end.** In every reachable state, the
answer to any vector is appended as one frame, and the value in it is printed from its bytes with
none left over. -/
theorem answers_printed (strtod : Bytes → UInt64 × ℕ) (ops : List Op) (stack : Stack) :
    ∃ g outs, run (serve strtod) {} ops = .ok (g, outs) ∧
      ∀ clock cmd b u hs, Shows b u hs → ∃ g' b' v, (enc v).length ≤ maxMsg ∧
        respond strtod g clock cmd b = .ok (g', b') ∧
        Shows b' (u ++ (leBytes 4 (enc v).length ++ enc v)) hs ∧
        printResponse stack.calls (enc v) (enc v).length = .ok ((enc v).length, shown v) ∧
        ∀ rest, readRes stack.calls (leBytes 4 (enc v).length ++ enc v ++ rest) =
          .ok ((enc v).length, shown v) := by
  obtain ⟨g, outs, σ, he, hg⟩ := run_good strtod ops
  refine ⟨g, outs, he, fun clock cmd b u hs hb => ?_⟩
  obtain ⟨g', v, σ', -, -, hflat, hact⟩ := respond_spec hg strtod clock cmd
  obtain ⟨b', he', hb'⟩ := hact b u hs hb
  have hlen := framed_length v
  have hmax : maxMsg < 2 ^ 31 := by decide
  have hdepth := (framed_depth hflat).trans stack.two_le
  have hprint := prints_enc stack.calls (framed v) hdepth (by omega) [] _ (Nat.le_refl _)
    (by omega)
  rw [List.append_nil] at hprint
  exact ⟨g', b', framed v, hlen, he', hb', hprint, readRes_pack hdepth hlen⟩

/-- A range of a set in the store, behind a response that is not sent yet, on the least stack. -/
theorem answers_printed_zquery :
    let strtod : Bytes → UInt64 × ℕ := fun s => (0, s.length)
    let clock : Timespec := ⟨1, 0, by decide, by decide⟩
    let ops : List Op := [.command clock [str "set", str "k", str "v"],
      .command clock [str "zadd", str "z", str "0", str "b"],
      .command clock [str "zadd", str "z", str "0", str "a"]]
    ∃ g outs, run (serve strtod) {} ops = .ok (g, outs) ∧ ∃ g' b' v, (enc v).length ≤ maxMsg ∧
      respond strtod g clock [str "zquery", str "z", str "0", str "", str "0", str "4"]
        (append {} (frame (.int 1))) = .ok (g', b') ∧
      Shows b' ([] ++ frame (.int 1) ++ (leBytes 4 (enc v).length ++ enc v)) [] ∧
      printResponse 2 (enc v) (enc v).length = .ok ((enc v).length, shown v) ∧
      ∀ rest, readRes 2 (leBytes 4 (enc v).length ++ enc v ++ rest) =
        .ok ((enc v).length, shown v) := by
  intro strtod clock ops
  obtain ⟨g, outs, he, h⟩ := answers_printed strtod ops .least
  exact ⟨g, outs, he, h _ _ _ _ [] (shows_empty.append _)⟩

end ByoRedis.ClientSpec
