import ByoRedis.ClientSpec
import ByoRedis.Writers

/-!
The format read back: what the client reads of the bytes of a value, whatever comes after them.

No two values have bytes that begin alike up to the end of one of them, so bytes belong to one
value, and to one element of an array.
-/

namespace ByoRedis.Encoding

open ByoRedis.Basic ByoRedis.ByteBuffer ByoRedis.Proto ByoRedis.Tlv ByoRedis.ByteBufferSpec
open ByoRedis.Client ByoRedis.ClientSpec ByoRedis.Writers
open ByoRedis.Lib.Runs ByoRedis.Lib.LittleEndian ByoRedis.Lib.Frames

/-- The numbers of a value are those of their types: a `uint32_t` and an `int64_t`. -/
inductive Ranged : Value → Prop
  | nil : Ranged .nil
  | err {code : ℕ} {msg : Bytes} (h : code < 2 ^ 32) : Ranged (.err code msg)
  | str {s : Bytes} : Ranged (.str s)
  | int {v : ℤ} (h : -2 ^ 63 ≤ v) (h' : v < 2 ^ 63) : Ranged (.int v)
  | dbl {bits : UInt64} : Ranged (.dbl bits)
  | arr {elems : List Value} (h : ∀ v ∈ elems, Ranged v) : Ranged (.arr elems)

/-- What the writers put into a new buffer. -/
def written (v : Value) : Bytes := (outValue v {}).unread

lemma written_eq (v : Value) : written v = enc v := by
  have h := shows_outValue v shows_empty
  rw [List.nil_append] at h
  exact h.unread

/-! ### One value to the bytes -/

def tag : Value → Tag
  | .nil => .nil
  | .err _ _ => .err
  | .str _ => .str
  | .int _ => .int
  | .dbl _ => .dbl
  | .arr _ => .arr

lemma enc_tag (v : Value) : ∃ body, enc v = (tag v).byte :: body := by
  cases v <;> exact ⟨_, rfl⟩

lemma byte_inj {s t : Tag} (h : s.byte = t.byte) : s = t := by
  cases s <;> cases t <;> first | rfl | exact absurd h (by decide)

variable {v w : Value} {vs ws : List Value} {x y : Bytes}

lemma tag_eq (h : enc v ++ x = enc w ++ y) : tag v = tag w := by
  obtain ⟨_, hv⟩ := enc_tag v
  obtain ⟨_, hw⟩ := enc_tag w
  rw [hv, hw] at h
  exact byte_inj (List.cons.inj h).1

/-- This value is the only one that has its bytes at the front of others. -/
def Alone (v : Value) : Prop :=
  ∀ w x y, Ranged w → (enc w).length < 2 ^ 32 → enc v ++ x = enc w ++ y → v = w ∧ x = y

lemma alone_nil : Alone .nil := by
  intro w x y _ _ h
  have htag := tag_eq h
  cases w with
  | nil => exact ⟨rfl, (List.cons.inj h).2⟩
  | _ => cases htag

lemma alone_err {code : ℕ} {msg : Bytes} (hcode : code < 2 ^ 32)
    (hlen : (enc (.err code msg)).length < 2 ^ 32) : Alone (.err code msg) := by
  intro w x y hr hlen' h
  have htag := tag_eq h
  cases w with
  | err code' msg' =>
    cases hr with
    | err hcode' =>
      have hrest : leBytes 4 code ++ (pack msg ++ x) = leBytes 4 code' ++ (pack msg' ++ y) := by
        rw [← List.append_assoc, ← List.append_assoc]
        exact (List.cons.inj h).2
      obtain ⟨rfl, hmsg⟩ := leBytes_append_inj hcode hcode' hrest
      have hle : ∀ m : Bytes, m.length ≤ (enc (.err code m)).length := by
        intro m
        simp only [enc, List.length_cons, List.length_append]
        omega
      obtain ⟨rfl, hxy⟩ := pack_inj (Nat.lt_of_le_of_lt (hle msg) hlen)
        (Nat.lt_of_le_of_lt (hle msg') hlen') hmsg
      exact ⟨rfl, hxy⟩
  | _ => cases htag

lemma alone_str {s : Bytes} (hlen : (enc (.str s)).length < 2 ^ 32) : Alone (.str s) := by
  intro w x y _ hlen' h
  have htag := tag_eq h
  cases w with
  | str s' =>
    have hle : ∀ m : Bytes, m.length ≤ (enc (.str m)).length := by
      intro m
      simp only [enc, List.length_cons, List.length_append]
      omega
    obtain ⟨rfl, hxy⟩ := pack_inj (Nat.lt_of_le_of_lt (hle s) hlen)
      (Nat.lt_of_le_of_lt (hle s') hlen') (List.cons.inj h).2
    exact ⟨rfl, hxy⟩
  | _ => cases htag

lemma alone_int {v : ℤ} (hmin : -2 ^ 63 ≤ v) (hmax : v < 2 ^ 63) : Alone (.int v) := by
  intro w x y hr _ h
  have htag := tag_eq h
  cases w with
  | int v' =>
    cases hr with
    | int hmin' hmax' =>
      obtain ⟨hv, hxy⟩ := leBytes_append_inj (by omega) (by omega) (List.cons.inj h).2
      have hvv : v = v' := by omega
      exact ⟨by rw [hvv], hxy⟩
  | _ => cases htag

lemma alone_dbl (bits : UInt64) : Alone (.dbl bits) := by
  intro w x y _ _ h
  have htag := tag_eq h
  cases w with
  | dbl bits' =>
    obtain ⟨hbits, hxy⟩ := leBytes_append_inj bits.toNat_lt bits'.toNat_lt (List.cons.inj h).2
    exact ⟨by rw [UInt64.toNat_inj.mp hbits], hxy⟩
  | _ => cases htag

lemma encAll_inj (hvs : ∀ v ∈ vs, Alone v)
    (hws : ∀ w ∈ ws, Ranged w ∧ (enc w).length < 2 ^ 32) (hlen : vs.length = ws.length)
    (h : encAll vs ++ x = encAll ws ++ y) : vs = ws ∧ x = y := by
  induction vs generalizing ws with
  | nil =>
    obtain rfl := List.eq_nil_of_length_eq_zero hlen.symm
    exact ⟨rfl, h⟩
  | cons v vs ih =>
    cases ws with
    | nil => cases hlen
    | cons w ws =>
      rw [encAll_cons, encAll_cons, List.append_assoc, List.append_assoc] at h
      obtain ⟨hw, hlenw⟩ := hws w List.mem_cons_self
      obtain ⟨rfl, hrest⟩ := hvs v List.mem_cons_self w _ _ hw hlenw h
      obtain ⟨rfl, hxy⟩ := ih (fun u hu => hvs u (List.mem_cons_of_mem v hu))
        (fun u hu => hws u (List.mem_cons_of_mem v hu)) (Nat.succ.inj hlen) hrest
      exact ⟨rfl, hxy⟩

lemma elems_lt {elems : List Value} {k : ℕ} (h : (enc (.arr elems)).length < k) :
    elems.length < k ∧ ∀ v ∈ elems, (enc v).length < k := by
  have hcount := length_le_encAll elems
  rw [enc_arr, List.length_append] at h
  refine ⟨by omega, fun v hv => ?_⟩
  have hle := enc_le_encAll hv
  omega

lemma alone_arr {elems : List Value} (hlen : (enc (.arr elems)).length < 2 ^ 32)
    (helems : ∀ v ∈ elems, Alone v) : Alone (.arr elems) := by
  intro w x y hr hlen' h
  have htag := tag_eq h
  cases w with
  | arr elems' =>
    cases hr with
    | arr hr' =>
      have hrest : leBytes 4 elems.length ++ (encAll elems ++ x) =
          leBytes 4 elems'.length ++ (encAll elems' ++ y) := by
        rw [← List.append_assoc, ← List.append_assoc]
        exact (List.cons.inj h).2
      obtain ⟨hcount, hall⟩ :=
        leBytes_append_inj (elems_lt hlen).1 (elems_lt hlen').1 hrest
      obtain ⟨rfl, hxy⟩ :=
        encAll_inj helems (fun v hv => ⟨hr' v hv, (elems_lt hlen').2 v hv⟩) hcount hall
      exact ⟨rfl, hxy⟩
  | _ => cases htag

/-- **The bytes of a value are its own**: by induction over the value. -/
theorem Ranged.alone (hr : Ranged v) (hlen : (enc v).length < 2 ^ 32) : Alone v := by
  induction hr with
  | nil => exact alone_nil
  | err hcode => exact alone_err hcode hlen
  | str => exact alone_str hlen
  | int hmin hmax => exact alone_int hmin hmax
  | dbl => exact alone_dbl _
  | arr _ ih => exact alone_arr hlen fun v hv => ih v hv ((elems_lt hlen).2 v hv)

/-! ### The parts of a value -/

/-- The values that a value is made of, with where their bytes begin among its own. -/
inductive Part : Value → ℕ → Value → Prop
  | self (v : Value) : Part v 0 v
  | elem {v w : Value} {pos : ℕ} (before after : List Value) (h : Part v pos w) :
    Part (.arr (before ++ v :: after)) (1 + 4 + (encAll before).length + pos) w

lemma encAll_append (vs ws : List Value) : encAll (vs ++ ws) = encAll vs ++ encAll ws := by
  induction vs with
  | nil => rfl
  | cons v vs ih => rw [List.cons_append, encAll_cons, encAll_cons, ih, List.append_assoc]

lemma Part.bytes {pos : ℕ} (h : Part v pos w) :
    ∃ before after, enc v = before ++ (enc w ++ after) ∧ before.length = pos := by
  induction h with
  | self v => exact ⟨[], [], (List.append_nil _).symm, rfl⟩
  | @elem v w pos before after _ ih =>
    obtain ⟨pre, post, henc, hlen⟩ := ih
    refine ⟨arrHead (before ++ v :: after).length ++ (encAll before ++ pre), post ++ encAll after,
      ?_, ?_⟩
    · rw [enc_arr, encAll_append, encAll_cons, henc]
      simp only [List.append_assoc]
    · simp only [arrHead, List.length_cons, List.length_append, leBytes_length, hlen]
      omega

lemma Part.depth_le {pos : ℕ} (h : Part v pos w) : depth w ≤ depth v := by
  induction h with
  | self v => exact le_rfl
  | elem before after _ ih =>
    exact ih.trans ((depth_le_depthAll (List.mem_append_right before List.mem_cons_self)).trans
      (Nat.le_succ _))

/-- The client reads a value back, in the calls that the stack has room for: it prints what the
writers wrote of it, whatever bytes come after, takes exactly the bytes of the value, and prints
every part of it from where it begins to where it ends. The same bytes are at the front of no other
value with any bytes after it. -/
structure ReadBack (stack : ℕ) (v : Value) : Prop where
  prints : ∀ rest size, (written v).length ≤ size → size < 2 ^ 64 →
    printResponse stack (written v ++ rest) size = .ok ((written v).length, shown v) ∧
      ∀ pos w, Part v pos w →
        printResponse stack ((written v ++ rest).drop pos) (size - pos) =
          .ok ((written w).length, shown w)
  alone : ∀ rest w rest', Ranged w → (written w).length ≤ maxMsg →
    written v ++ rest = written w ++ rest' → v = w ∧ rest = rest'

/-- **The format is read back** if and only if the stack has room for the arrays in arrays. -/
theorem tlv_read_back_iff (hr : Ranged v) (hlen : (written v).length ≤ maxMsg) (stack : ℕ) :
    ReadBack stack v ↔ depth v ≤ stack := by
  have h31 : maxMsg < 2 ^ 31 := by decide
  rw [written_eq] at hlen
  constructor
  · intro h
    by_contra hdeep
    have hread := (h.prints [] (written v).length le_rfl (by rw [written_eq]; omega)).1
    rw [written_eq] at hread
    have hout := overflows_enc stack v (Nat.lt_of_not_le hdeep) (by omega) [] _ le_rfl (by omega)
    cases hread.symm.trans hout
  · intro hdepth
    refine ⟨fun rest size hsize h64 => ?_, fun rest w rest' hw hlenw h => ?_⟩
    · simp only [written_eq] at hsize ⊢
      refine ⟨prints_enc stack v hdepth (by omega) rest size hsize h64, fun pos w hpart => ?_⟩
      obtain ⟨before, after, henc, rfl⟩ := hpart.bytes
      have htotal := congrArg List.length henc
      rw [List.length_append, List.length_append] at htotal
      have hdrop : (enc v ++ rest).drop before.length = enc w ++ (after ++ rest) := by
        rw [henc, List.append_assoc, List.drop_left, List.append_assoc]
      rw [hdrop]
      exact prints_enc stack w (hpart.depth_le.trans hdepth) (by omega) _ _ (by omega) (by omega)
    · rw [written_eq] at h hlenw
      rw [written_eq] at h
      exact hr.alone (by omega) w rest rest' hw (by omega) h

def nested : Value := .arr [.str [97], .arr [.nil, .int (-1)]]

theorem tlv_read_back_iff_nested : ReadBack 3 nested ↔ depth nested ≤ 3 := by
  have hinner : Ranged (.arr [.nil, .int (-1)]) := by
    refine .arr fun v hv => ?_
    rcases List.mem_pair.mp hv with rfl | rfl
    · exact .nil
    · exact .int (by decide) (by decide)
  have hr : Ranged nested := by
    refine .arr fun v hv => ?_
    rcases List.mem_pair.mp hv with rfl | rfl
    · exact .str
    · exact hinner
  have hlen : (written nested).length = 26 := by
    rw [written_eq]
    rfl
  exact tlv_read_back_iff hr (by rw [hlen]; decide) 3

/-! ### Too deep -/

/-- Nothing, in so many arrays of one element. -/
def inArrays : ℕ → Value
  | 0 => .nil
  | n + 1 => .arr [inArrays n]

lemma ranged_inArrays (n : ℕ) : Ranged (inArrays n) := by
  induction n with
  | zero => exact .nil
  | succ n ih =>
    refine .arr fun v hv => ?_
    rw [List.mem_singleton.mp hv]
    exact ih

lemma depth_inArrays (n : ℕ) : depth (inArrays n) = n + 1 := by
  induction n with
  | zero => rfl
  | succ n ih => exact congrArg Nat.succ ((Nat.max_zero _).trans ih)

lemma length_inArrays (n : ℕ) : (written (inArrays n)).length = 5 * n + 1 := by
  rw [written_eq]
  induction n with
  | zero => rfl
  | succ n ih =>
    rw [inArrays, enc_arr, encAll_cons, encAll_nil, List.append_nil, List.length_append, ih,
      arrHead, List.length_cons, leBytes_length]
    omega

/-- A response of a million bytes that nests too deep for a stack with room for 200000 calls. -/
theorem deep_not_read_back : Ranged (inArrays 200000) ∧
    (written (inArrays 200000)).length ≤ maxMsg ∧ ¬ ReadBack 200000 (inArrays 200000) := by
  have hlen : (written (inArrays 200000)).length ≤ maxMsg := by
    rw [length_inArrays]
    decide
  refine ⟨ranged_inArrays _, hlen, fun h => ?_⟩
  have hshort : (enc (inArrays 200000)).length = 1000001 := by
    rw [← written_eq, length_inArrays]
  have hout := overflows_enc 200000 (inArrays 200000) (by rw [depth_inArrays]; omega)
    (by rw [hshort]; decide) [] 1000001 hshort.le (by decide)
  have hread := (h.prints [] 1000001 (by rw [written_eq, hshort]) (by decide)).1
  rw [written_eq] at hread
  cases hread.symm.trans hout

end ByoRedis.Encoding
