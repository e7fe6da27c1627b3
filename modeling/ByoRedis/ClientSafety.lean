import ByoRedis.ClientSpec

/-!
What the client reads of bytes that are no response.

An array has no length in bytes, so its elements are read from all that is left, and the bytes are
walked from the front with a count of the values to come and of the arrays that there is room for.
The walk ends at a head that is refused, when no value is to come, at an element too deep for the
stack, or at a text whose end wraps around 32 bits. `printf` prints such a text up to a zero,
wherever that is.
-/

namespace ByoRedis.ClientSafety

open ByoRedis.Basic ByoRedis.Proto ByoRedis.Commands ByoRedis.Client ByoRedis.ClientSpec
open ByoRedis.Lib.Runs ByoRedis.Lib.LittleEndian

/-! ### The walk -/

/-- What the first bytes of a value say. -/
inductive Head
  /-- It is refused. -/
  | bad
  /-- Its text is read past the end. -/
  | runaway
  /-- It takes bytes, and more values are to come. -/
  | value (taken more : ℕ)
  deriving DecidableEq, Repr

def field (data : Bytes) (pos : ℕ) : ℕ := ofLeBytes ((data.drop pos).take 4)

/-- A text of `len` bytes from `begin` on. -/
def textHead (data : Bytes) (begin len : ℕ) : Head :=
  if begin + len < 2 ^ 32 then
    if data.length < begin + len then .bad else .value (begin + len) 0
  else if 0 ∈ data.drop begin then .value (begin + len - 2 ^ 32) 0
  else .runaway

def taggedHead (data : Bytes) (tag : UInt8) : Head :=
  if tag = Tag.nil.byte then .value 1 0
  else if tag = Tag.err.byte then
    if data.length < 1 + 8 then .bad else textHead data (1 + 8) (field data (1 + 4))
  else if tag = Tag.str.byte then
    if data.length < 1 + 4 then .bad else textHead data (1 + 4) (field data 1)
  else if tag = Tag.int.byte then
    if data.length < 1 + 8 then .bad else .value (1 + 8) 0
  else if tag = Tag.dbl.byte then
    if data.length < 1 + 8 then .bad else .value (1 + 8) 0
  else if tag = Tag.arr.byte then
    if data.length < 1 + 4 then .bad else .value (1 + 4) (field data 1)
  else .bad

def head (data : Bytes) : Head :=
  match data with
  | [] => .bad
  | tag :: _ => taggedHead data tag

/-- How a walk ends. -/
inductive Verdict
  | bad
  | runaway
  | deep
  | rest (data : Bytes)

/-- The walk over a number of values at the front of the bytes, with the calls that the stack has
room for. What an array takes more is walked in the calls that are left. -/
inductive Walk : ℕ → ℕ → Bytes → Verdict → Prop
  | done {stack : ℕ} (data : Bytes) : Walk stack 0 data (.rest data)
  | deep {k : ℕ} (data : Bytes) : Walk 0 (k + 1) data .deep
  | bad {stack k : ℕ} {data : Bytes} (h : head data = .bad) : Walk (stack + 1) (k + 1) data .bad
  | runaway {stack k : ℕ} {data : Bytes} (h : head data = .runaway) :
    Walk (stack + 1) (k + 1) data .runaway
  | next {stack k taken more : ℕ} {data mid : Bytes} {v : Verdict}
    (h : head data = .value taken more) (inner : Walk stack more (data.drop taken) (.rest mid))
    (w : Walk (stack + 1) k mid v) : Walk (stack + 1) (k + 1) data v
  | stops {stack k taken more : ℕ} {data : Bytes} {v : Verdict} (h : head data = .value taken more)
    (inner : Walk stack more (data.drop taken) v) (hv : ∀ mid, v ≠ .rest mid) :
    Walk (stack + 1) (k + 1) data v

variable {data mid : Bytes} {v v' : Verdict} {stack a b k n : ℕ}

lemma Walk.unique (w : Walk stack k data v) (w' : Walk stack k data v') : v = v' := by
  induction w generalizing v' with
  | done data =>
    cases w' with
    | done => rfl
  | deep data =>
    cases w' with
    | deep => rfl
  | bad h =>
    cases w' with
    | bad => rfl
    | runaway h' => simp [h] at h'
    | next h' => simp [h] at h'
    | stops h' => simp [h] at h'
  | runaway h =>
    cases w' with
    | bad h' => simp [h] at h'
    | runaway => rfl
    | next h' => simp [h] at h'
    | stops h' => simp [h] at h'
  | next h inner w ihInner ih =>
    cases w' with
    | bad h' => simp [h] at h'
    | runaway h' => simp [h] at h'
    | next h' inner' w' =>
      obtain ⟨rfl, rfl⟩ := Head.value.inj (h.symm.trans h')
      obtain rfl := Verdict.rest.inj (ihInner inner')
      exact ih w'
    | stops h' inner' hv =>
      obtain ⟨rfl, rfl⟩ := Head.value.inj (h.symm.trans h')
      exact absurd (ihInner inner').symm (hv _)
  | stops h inner hv ih =>
    cases w' with
    | bad h' => simp [h] at h'
    | runaway h' => simp [h] at h'
    | next h' inner' w' =>
      obtain ⟨rfl, rfl⟩ := Head.value.inj (h.symm.trans h')
      exact absurd (ih inner') (hv _)
    | stops h' inner' hv' =>
      obtain ⟨rfl, rfl⟩ := Head.value.inj (h.symm.trans h')
      exact ih inner'

lemma Walk.append (w : Walk stack a data (.rest mid)) (w' : Walk stack b mid v) :
    Walk stack (a + b) data v := by
  generalize hr : Verdict.rest mid = r at w
  induction w with
  | done data =>
    obtain rfl := Verdict.rest.inj hr
    rw [Nat.zero_add]
    exact w'
  | deep | bad | runaway => cases hr
  | next h inner w _ ih =>
    rw [Nat.add_right_comm]
    exact .next h inner (ih w' hr)
  | stops h inner hv => exact absurd hr.symm (hv mid)

lemma Walk.stop (w : Walk stack a data v) (hv : ∀ rest, v ≠ .rest rest) (b : ℕ) :
    Walk stack (a + b) data v := by
  induction w with
  | done data => exact absurd rfl (hv data)
  | deep data =>
    rw [Nat.add_right_comm]
    exact .deep data
  | bad h =>
    rw [Nat.add_right_comm]
    exact .bad h
  | runaway h =>
    rw [Nat.add_right_comm]
    exact .runaway h
  | next h inner w _ ih =>
    rw [Nat.add_right_comm]
    exact .next h inner (ih hv)
  | stops h inner hv =>
    rw [Nat.add_right_comm]
    exact .stops h inner hv

lemma Walk.one {taken more : ℕ} (h : head data = .value taken more)
    (inner : Walk stack more (data.drop taken) v) : Walk (stack + 1) 1 data v := by
  cases v with
  | rest mid => exact .next h inner (.done mid)
  | bad | runaway | deep => exact .stops h inner (by simp)

/-! ### Printing -/

/-- What printing one value comes to: the end of the walk over it. -/
inductive Printing (stack : ℕ) (data : Bytes) : Eff (ℤ × List Printed) → Prop
  | bad {rv : ℤ} {out : List Printed} (w : Walk stack 1 data .bad) (hneg : rv < 0) :
    Printing stack data (.ok (rv, out))
  | runaway (w : Walk stack 1 data .runaway) : Printing stack data (.error .access)
  | deep (w : Walk stack 1 data .deep) : Printing stack data (.error .overflow)
  | taken {n : ℕ} {out : List Printed} (w : Walk stack 1 data (.rest (data.drop n)))
    (hle : n ≤ data.length) (hpos : n = 0 → head data = .value 0 0) :
    Printing stack data (.ok ((n : ℤ), out))

/-- What printing the elements of an array comes to, from a position on. -/
inductive PrintingElems (stack : ℕ) (data : Bytes) (left pos : ℕ) :
    Eff ((ℤ ⊕ ℕ) × List Printed) → Prop
  | bad {rv : ℤ} {out : List Printed} (w : Walk stack left (data.drop pos) .bad) (hneg : rv < 0) :
    PrintingElems stack data left pos (.ok (.inl rv, out))
  | runaway (w : Walk stack left (data.drop pos) .runaway) :
    PrintingElems stack data left pos (.error .access)
  | deep (w : Walk stack left (data.drop pos) .deep) :
    PrintingElems stack data left pos (.error .overflow)
  | taken {n : ℕ} {out : List Printed} (w : Walk stack left (data.drop pos) (.rest (data.drop n)))
    (hge : pos ≤ n) (hle : n ≤ data.length) :
    PrintingElems stack data left pos (.ok (.inr n, out))

lemma Printing.bad_of_head (h : head data = .bad) {out : List Printed} :
    Printing (stack + 1) data (.ok (-1, out)) := .bad (.bad h) (by decide)

lemma Printing.of_head (h : head data = .value n 0) (hle : n ≤ data.length) {out : List Printed} :
    Printing (stack + 1) data (.ok ((n : ℤ), out)) := by
  refine .taken (.one h (.done _)) hle fun h0 => ?_
  rw [h, h0]

lemma printElems_printing {print : Bytes → ℕ → Eff (ℤ × List Printed)} (left : ℕ) {pos : ℕ}
    (h64 : data.length < 2 ^ 64) (hpos : pos ≤ data.length)
    (hprint : ∀ p, pos ≤ p →
      Printing stack (data.drop p) (print (data.drop p) (data.drop p).length)) :
    PrintingElems stack data left pos (printElems print data data.length left pos) := by
  induction left generalizing pos with
  | zero => exact .taken (.done _) le_rfl hpos
  | succ left ih =>
    have hsize : (2 ^ 64 + data.length - pos) % 2 ^ 64 = (data.drop pos).length := by
      rw [List.length_drop]
      omega
    have hfirst := hprint pos le_rfl
    unfold printElems
    rw [hsize]
    generalize print (data.drop pos) (data.drop pos).length = r at hfirst
    cases hfirst with
    | bad w hneg =>
      rw [ok_bind]
      dsimp only
      rw [if_pos hneg, Nat.add_comm left 1]
      exact .bad (w.stop (by simp) left) hneg
    | runaway w =>
      rw [error_bind, Nat.add_comm left 1]
      exact .runaway (w.stop (by simp) left)
    | deep w =>
      rw [error_bind, Nat.add_comm left 1]
      exact .deep (w.stop (by simp) left)
    | @taken n out w hle _ =>
      rw [List.length_drop] at hle
      have hnext : (pos + n) % 2 ^ 64 = pos + n := Nat.mod_eq_of_lt (by omega)
      have hnot : ¬ (n : ℤ) < 0 := by omega
      rw [List.drop_drop] at w
      rw [ok_bind]
      dsimp only
      rw [if_neg hnot, Int.toNat_natCast, hnext]
      have hrest := @ih (pos + n) (by omega) fun p hp => hprint p (by omega)
      generalize printElems print data data.length left (pos + n) = r' at hrest
      rw [Nat.add_comm left 1]
      cases hrest with
      | bad w' hneg => exact .bad (w.append w') hneg
      | runaway w' => exact .runaway (w.append w')
      | deep w' => exact .deep (w.append w')
      | taken w' hge hle' => exact .taken (w.append w') (by omega) hle'

lemma printText_of_le {len : ℕ} (h : len ≤ data.length) :
    ∃ text, printText data (len : ℤ) = .ok text := by
  have hnot : ¬ (len : ℤ) < 0 := by omega
  unfold printText
  rw [if_neg hnot, Int.toNat_natCast]
  dsimp only
  by_cases hz : 0 ∈ data.take len
  · rw [if_pos hz]
    exact ⟨_, rfl⟩
  · rw [if_neg hz, if_pos ⟨by omega, h⟩]
    exact ⟨_, rfl⟩

/-- A text of negative length is printed up to a zero. -/
lemma printText_of_neg {len : ℤ} (h : len < 0) :
    printText data len = if 0 ∈ data then .ok (cStr data) else .error .access := by
  have hnot : ¬ (0 ≤ len ∧ len.toNat ≤ data.length) := fun hle => by omega
  unfold printText
  rw [if_pos h]
  dsimp only
  rw [if_neg hnot]
  rfl

lemma toI32_of_ge {n : ℕ} (h : 2 ^ 31 ≤ n % 2 ^ 32) : toI32 n < 0 := by
  unfold toI32
  rw [Int.bmod_def]
  omega

lemma toI32_wrap {n : ℕ} (h : 2 ^ 32 ≤ n) (h' : n < 2 ^ 32 + 2 ^ 31) :
    toI32 n = (n - 2 ^ 32 : ℕ) := by
  unfold toI32
  rw [Int.bmod_def]
  omega

/-- A text is printed from the bytes that are there, or it runs away. -/
lemma printText_printing {begin len : ℕ} (hbegin : begin ≤ data.length)
    (hmax : data.length < 2 ^ 31) (hlen : len < 2 ^ 32)
    (hhead : head data = textHead data begin len) (f : Bytes → List Printed) :
    Printing (stack + 1) data (if data.length < (begin + len) % 2 ^ 32 then pure (-1, []) else do
      let text ← printText (data.drop begin) (toI32 len)
      pure (toI32 (begin + len), f text)) := by
  unfold textHead at hhead
  by_cases hwrap : begin + len < 2 ^ 32
  · rw [if_pos hwrap] at hhead
    rw [Nat.mod_eq_of_lt hwrap]
    by_cases hshort : data.length < begin + len
    · rw [if_pos hshort] at hhead ⊢
      exact .bad_of_head hhead
    · rw [if_neg hshort] at hhead ⊢
      have hle : len ≤ (data.drop begin).length := by
        rw [List.length_drop]
        omega
      obtain ⟨text, ht⟩ := printText_of_le hle
      rw [toI32_of_lt (by omega), ht, ok_bind, toI32_of_lt (by omega)]
      exact .of_head hhead (Nat.le_of_not_lt hshort)
  · rw [if_neg hwrap] at hhead
    have hmod : (begin + len) % 2 ^ 32 = begin + len - 2 ^ 32 := by omega
    rw [hmod, if_neg (by omega), printText_of_neg (toI32_of_ge (by omega))]
    by_cases hz : 0 ∈ data.drop begin
    · rw [if_pos hz] at hhead ⊢
      rw [ok_bind, toI32_wrap (by omega) (by omega)]
      exact .of_head hhead (by omega)
    · rw [if_neg hz] at hhead ⊢
      exact .runaway (.runaway hhead)

lemma readAt_field {pos : ℕ} (h : pos + 4 ≤ data.length) :
    readAt data pos 4 = .ok (field data pos) := by
  unfold readAt
  rw [if_pos h]
  rfl

lemma field_lt {pos : ℕ} (h : pos + 4 ≤ data.length) : field data pos < 2 ^ 32 := by
  have hlen : ((data.drop pos).take 4).length = 4 := by
    rw [List.length_take, List.length_drop]
    omega
  have := ofLeBytes_lt ((data.drop pos).take 4)
  rwa [hlen] at this

lemma printArr_printing {print : Bytes → ℕ → Eff (ℤ × List Printed)} (hmax : data.length < 2 ^ 31)
    (hlong : ¬ data.length < 1 + 4) (hhead : head data = .value (1 + 4) (field data 1))
    (hprint : ∀ p, 1 + 4 ≤ p →
      Printing stack (data.drop p) (print (data.drop p) (data.drop p).length)) :
    Printing (stack + 1) data (do
      match ← printElems print data data.length (field data 1) (1 + 4) with
      | (.inl rv, out) => pure (rv, .arr (field data 1) :: out)
      | (.inr arrBytes, out) =>
        pure (toI32 arrBytes, .arr (field data 1) :: out ++ [.arrEnd])) := by
  have helems := printElems_printing (field data 1) (by omega) (Nat.le_of_not_lt hlong) hprint
  have hwalk : ∀ {v : Verdict}, Walk stack (field data 1) (data.drop (1 + 4)) v →
      Walk (stack + 1) 1 data v := fun w => .one hhead w
  generalize printElems print data data.length (field data 1) (1 + 4) = r at helems
  cases helems with
  | bad w hneg => exact .bad (hwalk w) hneg
  | runaway w => exact .runaway (hwalk w)
  | deep w => exact .deep (hwalk w)
  | taken w hge hle =>
    rw [ok_bind]
    dsimp only
    rw [toI32_of_lt (by omega)]
    exact .taken (hwalk w) hle fun h0 => by omega

/-- Bytes that are too short for the head of a value are refused. -/
lemma Printing.guarded {len : ℕ} {h : Head} {e : Eff (ℤ × List Printed)}
    (hhead : head data = if data.length < len then .bad else h)
    (hlong : len ≤ data.length → head data = h → Printing (stack + 1) data e) :
    Printing (stack + 1) data (if data.length < len then pure (-1, []) else e) := by
  by_cases hshort : data.length < len
  · rw [if_pos hshort] at hhead ⊢
    exact .bad_of_head hhead
  · rw [if_neg hshort] at hhead ⊢
    exact hlong (Nat.le_of_not_lt hshort) hhead

lemma printNum_printing (hhead : head data = if data.length < 1 + 8 then .bad else .value (1 + 8) 0)
    (f : ℕ → Printed) :
    Printing (stack + 1) data (if data.length < 1 + 8 then pure (-1, []) else do
      let val ← readAt data 1 8
      pure (1 + 8, [f val])) := by
  refine .guarded hhead fun hlong hhead => ?_
  rw [readAt, if_pos hlong, pure_eq_ok, ok_bind]
  exact .of_head hhead hlong

/-- **`print_response` follows the walk** over the value at the front of the bytes. -/
theorem printResponse_printing (stack : ℕ) (hmax : data.length ≤ maxMsg) :
    Printing stack data (printResponse stack data data.length) := by
  have h31 : data.length < 2 ^ 31 := Nat.lt_of_le_of_lt hmax (by decide)
  induction stack generalizing data with
  | zero => exact .deep (.deep data)
  | succ stack ih =>
    unfold printResponse
    cases data with
    | nil => exact .bad_of_head rfl
    | cons tag bytes =>
      have hhead : head (tag :: bytes) = taggedHead (tag :: bytes) tag := rfl
      have hpos : ¬ (tag :: bytes).length < 1 := by
        rw [List.length_cons]
        omega
      rw [if_neg hpos]
      dsimp only
      unfold taggedHead at hhead
      generalize tag :: bytes = data at *
      by_cases hnil : tag = Tag.nil.byte
      · rw [if_pos hnil] at hhead ⊢
        exact .of_head hhead (Nat.le_of_not_lt hpos)
      rw [if_neg hnil] at hhead ⊢
      by_cases herr : tag = Tag.err.byte
      · rw [if_pos herr] at hhead ⊢
        refine .guarded hhead fun hlong hhead => ?_
        rw [readAt_field (by omega), ok_bind, readAt_field (by omega), ok_bind]
        exact printText_printing hlong h31 (field_lt (by omega)) hhead _
      rw [if_neg herr] at hhead ⊢
      by_cases hstr : tag = Tag.str.byte
      · rw [if_pos hstr] at hhead ⊢
        refine .guarded hhead fun hlong hhead => ?_
        rw [readAt_field hlong, ok_bind]
        exact printText_printing hlong h31 (field_lt hlong) hhead _
      rw [if_neg hstr] at hhead ⊢
      by_cases hint : tag = Tag.int.byte
      · rw [if_pos hint] at hhead ⊢
        exact printNum_printing hhead _
      rw [if_neg hint] at hhead ⊢
      by_cases hdbl : tag = Tag.dbl.byte
      · rw [if_pos hdbl] at hhead ⊢
        exact printNum_printing hhead _
      rw [if_neg hdbl] at hhead ⊢
      by_cases harr : tag = Tag.arr.byte
      · rw [if_pos harr] at hhead ⊢
        refine .guarded hhead fun hlong hhead => ?_
        rw [readAt_field hlong, ok_bind]
        refine printArr_printing h31 (Nat.not_lt_of_le hlong) hhead fun p hp => ?_
        have hle : (data.drop p).length ≤ data.length := by
          rw [List.length_drop]
          exact Nat.sub_le _ _
        exact ih (hle.trans hmax) (Nat.lt_of_le_of_lt hle h31)
      rw [if_neg harr] at hhead ⊢
      exact .bad_of_head hhead

/-! ### Safety -/

/-- `print_response` on these bytes reads no others, in the calls that the stack has room for: it
refuses them, or takes some of them. -/
def Safe (stack : ℕ) (data : Bytes) : Prop :=
  ∃ rv out, printResponse stack data data.length = .ok (rv, out) ∧
    (rv < 0 ∨ 1 ≤ rv ∧ rv ≤ data.length)

/-- **The client is safe** on bytes, valid or not, if and only if the walk comes to no text whose
end wraps around 32 bits and that no zero follows, and to no element in more arrays than the stack
has room for, and the first value is not a text that wraps around to no bytes at all. -/
theorem print_response_safe_iff (stack : ℕ) (hmax : data.length ≤ maxMsg) :
    Safe stack data ↔ ¬ Walk stack 1 data .runaway ∧ ¬ Walk stack 1 data .deep ∧
      head data ≠ .value 0 0 := by
  have hp := printResponse_printing stack hmax
  have hzero : ∀ {v}, Walk stack 1 data v → head data = .value 0 0 → v = .rest data ∨ v = .deep :=
      fun w hz => by
    cases stack with
    | zero => exact .inr (w.unique (.deep data))
    | succ stack => exact .inl (w.unique (.one hz (.done data)))
  unfold Safe
  generalize printResponse stack data data.length = r at hp
  cases hp with
  | bad w hneg =>
    refine ⟨fun _ => ⟨fun w' => ?_, fun w' => ?_, fun hz => ?_⟩, fun _ => ⟨_, _, rfl, .inl hneg⟩⟩
    · cases w.unique w'
    · cases w.unique w'
    · rcases hzero w hz with h | h <;> cases h
  | runaway w =>
    constructor
    · rintro ⟨rv, out, h, -⟩
      cases h
    · exact fun h => absurd w h.1
  | deep w =>
    constructor
    · rintro ⟨rv, out, h, -⟩
      cases h
    · exact fun h => absurd w h.2.1
  | @taken n out w hle hnone =>
    constructor
    · rintro ⟨rv, out', h, hrv⟩
      obtain ⟨rfl, -⟩ := Prod.mk.inj (Except.ok.inj h)
      refine ⟨fun w' => ?_, fun w' => ?_, fun hz => ?_⟩
      · cases w.unique w'
      · cases w.unique w'
      · -- nothing would be taken
        have hrest := Verdict.rest.inj ((hzero w hz).resolve_right (by simp))
        have hlen := congrArg List.length hrest
        rw [List.length_drop] at hlen
        omega
    · rintro ⟨-, -, hne⟩
      have hpos : n ≠ 0 := fun h0 => hne (hnone h0)
      exact ⟨_, _, rfl, .inr ⟨by omega, by omega⟩⟩

/-- A string of length `2 ^ 32 - 1` in three bytes, which are printed, and what comes after them. -/
theorem print_response_overread : ¬ Safe 100000 [2, 255, 255, 255, 255, 97, 98, 99] := by
  rintro ⟨rv, out, h, -⟩
  have herr : printResponse 100000 [2, 255, 255, 255, 255, 97, 98, 99] 8 = .error .access := by
    decide +kernel
  cases h.symm.trans herr

/-- An array in an array, whose number is cut short. -/
theorem print_response_safe_iff_short :
    let data : Bytes := [5, 1, 0, 0, 0, 5, 2, 0, 0, 0, 0, 3, 1]
    Safe 3 data ↔ ¬ Walk 3 1 data .runaway ∧ ¬ Walk 3 1 data .deep ∧ head data ≠ .value 0 0 :=
  print_response_safe_iff 3 (by decide)

end ByoRedis.ClientSafety
