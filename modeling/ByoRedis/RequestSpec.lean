import ByoRedis.Client
import ByoRedis.Server

/-!
Requests as the client writes them and as the server reads them.

The payload of a vector is the number of its strings and each string behind its length. The two
ends agree on vectors that are within the limits of both, and on no other that is sent.
-/

namespace ByoRedis.RequestSpec

open ByoRedis.Basic ByoRedis.ByteBuffer ByoRedis.ByteBufferSpec ByoRedis.Proto ByoRedis.Database
open ByoRedis.DatabaseSpec ByoRedis.KeySpace ByoRedis.Conn ByoRedis.ConnSpec ByoRedis.Server
open ByoRedis.ResponseSpec ByoRedis.Client ByoRedis.Lib.Runs ByoRedis.Lib.LittleEndian
open ByoRedis.Lib.Frames

def payload (cmd : List Bytes) : Bytes := leBytes 4 cmd.length ++ packAll cmd

/-- The size of the payload. -/
def trueSize (cmd : List Bytes) : ℕ := 4 + (cmd.map fun s => 4 + s.length).sum

lemma packAll_length (cmd : List Bytes) :
    (packAll cmd).length = (cmd.map fun s => 4 + s.length).sum := by
  induction cmd with
  | nil => rfl
  | cons s cmd ih => simp [ih]

@[simp] lemma payload_length (cmd : List Bytes) : (payload cmd).length = trueSize cmd := by
  simp [payload, trueSize, packAll_length]

lemma length_le_trueSize (cmd : List Bytes) : cmd.length ≤ trueSize cmd := by
  unfold trueSize
  induction cmd with
  | nil => simp
  | cons s cmd ih =>
    simp only [List.length_cons, List.map_cons, List.sum_cons]
    omega

lemma mem_length_le {cmd : List Bytes} {s : Bytes} (hs : s ∈ cmd) : s.length ≤ trueSize cmd := by
  unfold trueSize
  induction cmd with
  | nil => simp at hs
  | cons r cmd ih =>
    simp only [List.map_cons, List.sum_cons]
    rcases List.mem_cons.mp hs with rfl | hs
    · omega
    · have := ih hs
      omega

/-! ### Reading -/

lemma readU32_leBytes {n : ℕ} (hn : n < 2 ^ 32) (rest : Bytes) :
    readU32 (leBytes 4 n ++ rest) = some (n, rest) := by
  have hlen : ¬ (leBytes 4 n ++ rest).length < 4 := by simp
  have hmod : n % 256 ^ 4 = n := Nat.mod_eq_of_lt hn
  unfold readU32
  rw [if_neg hlen, List.take_left' (leBytes_length 4 n), List.drop_left' (leBytes_length 4 n),
    ofLeBytes_leBytes, hmod]

lemma readStr_append (s rest : Bytes) : readStr (s ++ rest) s.length = some (s, rest) := by
  have hlen : ¬ (s ++ rest).length < s.length := by simp
  unfold readStr
  rw [if_neg hlen, List.take_left, List.drop_left]

lemma parseStrs_packAll {cmd : List Bytes} (hs : ∀ s ∈ cmd, s.length < 2 ^ 32) (rest : Bytes) :
    parseStrs cmd.length (packAll cmd ++ rest) = some (cmd, rest) := by
  induction cmd with
  | nil => rfl
  | cons s cmd ih =>
    have ih := ih fun r hr => hs r (List.mem_cons_of_mem s hr)
    have hread := readU32_leBytes (hs s List.mem_cons_self) (s ++ (packAll cmd ++ rest))
    rw [packAll_cons, pack, List.append_assoc, List.append_assoc, List.length_cons, parseStrs]
    simp [hread, readStr_append, ih]

/-- **A payload is parsed** to its vector, where this is not too long. -/
theorem parseReq_payload {cmd : List Bytes} (hn : cmd.length ≤ maxArgs)
    (hs : ∀ s ∈ cmd, s.length < 2 ^ 32) : parseReq (payload cmd) = some cmd := by
  have hlt : cmd.length < 2 ^ 32 := Nat.lt_of_le_of_lt hn (by decide)
  have hparse := parseStrs_packAll hs []
  rw [List.append_nil] at hparse
  unfold parseReq payload
  simp [readU32_leBytes hlt, Nat.not_lt.mpr hn, hparse]

lemma parseReq_tooMany {cmd : List Bytes} (hn : maxArgs < cmd.length)
    (hlt : cmd.length < 2 ^ 32) : parseReq (payload cmd) = none := by
  unfold parseReq payload
  simp [readU32_leBytes hlt, hn]

/-! ### Writing -/

lemma payloadSize_eq (cmd : List Bytes) : payloadSize cmd = trueSize cmd % 2 ^ 32 := by
  have hfold : ∀ n, n < 2 ^ 32 → cmd.foldl (fun n s => (n + (4 + s.length)) % 2 ^ 32) n =
      (n + (cmd.map fun s => 4 + s.length).sum) % 2 ^ 32 := by
    intro n hn
    induction cmd generalizing n with
    | nil => exact (Nat.mod_eq_of_lt hn).symm
    | cons s cmd ih =>
      rw [List.foldl_cons, ih _ (Nat.mod_lt _ (by omega)), List.map_cons, List.sum_cons,
        Nat.mod_add_mod, Nat.add_assoc]
  exact hfold 4 (by omega)

lemma writeAt_append (pre post data : Bytes) : writeAt (pre ++ post) pre.length data =
    if data.length ≤ post.length then .ok (pre ++ data ++ post.drop data.length)
    else .error .access := by
  unfold writeAt
  rw [overwrite_append, List.append_assoc, List.length_append]
  simp only [Nat.add_le_add_iff_left]
  rfl

/-- The strings are written where they fit; where they do not, a write is out of bounds. -/
lemma writeStrs_spec (cmd : List Bytes) (pre post : Bytes) :
    writeStrs cmd (pre ++ post) pre.length =
      if (packAll cmd).length ≤ post.length then
        .ok (pre ++ packAll cmd ++ post.drop (packAll cmd).length)
      else .error .access := by
  induction cmd generalizing pre post with
  | nil => simp [writeStrs]
  | cons s cmd ih =>
    have hpack : (packAll (s :: cmd)).length = 4 + (s.length + (packAll cmd).length) := by
      rw [packAll_cons, List.length_append, pack_length, Nat.add_assoc]
    unfold writeStrs
    rw [writeAt_append, leBytes_length]
    by_cases h4 : 4 ≤ post.length
    · have hcur : pre.length + 4 = (pre ++ leBytes 4 s.length).length := by simp
      rw [if_pos h4, ok_bind, hcur, writeAt_append, List.length_drop]
      by_cases hs : s.length ≤ post.length - 4
      · have hcur' : pre.length + (4 + s.length) = (pre ++ leBytes 4 s.length ++ s).length := by
          simp only [List.length_append, leBytes_length]
          omega
        rw [if_pos hs, ok_bind, hcur', ih, List.length_drop, List.length_drop]
        by_cases hrest : (packAll cmd).length ≤ post.length - 4 - s.length
        · rw [if_pos hrest, if_pos (by omega), hpack, List.drop_drop, List.drop_drop]
          simp only [packAll_cons, pack, List.append_assoc]
        · rw [if_neg hrest, if_neg (by omega)]
      · rw [if_neg hs, if_neg (by omega)]
        rfl
    · rw [if_neg h4, if_neg (by omega)]
      rfl

/-- What `send_req` does: the sizes it compares are those in 32 bits. -/
inductive Sent (cmd : List Bytes) : Eff (Option Bytes) → Prop
  | refused (h : maxMsg < trueSize cmd % 2 ^ 32) : Sent cmd (.ok none)
  | frame (h : trueSize cmd ≤ maxMsg) : Sent cmd (.ok (some (pack (payload cmd))))
  | overrun (h : maxMsg < trueSize cmd) (h' : trueSize cmd % 2 ^ 32 ≤ maxMsg) :
    Sent cmd (.error .access)

/-- **`send_req`** refuses a vector, sends the frame of its payload, or writes out of bounds. -/
theorem sendReq_spec (cmd : List Bytes) : Sent cmd (sendReq cmd) := by
  have hmax : maxMsg = 33554432 := rfl
  have hpack : (packAll cmd).length = trueSize cmd - 4 := by
    rw [packAll_length, trueSize, Nat.add_sub_cancel_left]
  have hfour : 4 ≤ trueSize cmd := Nat.le_add_right ..
  unfold sendReq
  rw [payloadSize_eq]
  by_cases hbig : maxMsg < trueSize cmd % 2 ^ 32
  · rw [if_pos hbig]
    exact .refused hbig
  · rw [if_neg hbig]
    have hmod : (4 + trueSize cmd % 2 ^ 32) % 2 ^ 32 = 4 + trueSize cmd % 2 ^ 32 :=
      Nat.mod_eq_of_lt (by omega)
    dsimp only
    rw [hmod]
    generalize hw : List.replicate (4 + trueSize cmd % 2 ^ 32) (0 : UInt8) = wbuf
    have hlen : wbuf.length = 4 + trueSize cmd % 2 ^ 32 := by rw [← hw, List.length_replicate]
    have h0 := writeAt_append [] wbuf (leBytes 4 (trueSize cmd % 2 ^ 32))
    rw [List.nil_append, List.length_nil, leBytes_length, if_pos (by omega), List.nil_append] at h0
    rw [h0, ok_bind]
    have h4 := writeAt_append (leBytes 4 (trueSize cmd % 2 ^ 32)) (wbuf.drop 4)
      (leBytes 4 cmd.length)
    rw [leBytes_length, leBytes_length, List.length_drop, List.drop_drop] at h4
    rw [h4]
    by_cases hfits : 4 ≤ wbuf.length - 4
    · rw [if_pos hfits, ok_bind]
      have h8 := writeStrs_spec cmd (leBytes 4 (trueSize cmd % 2 ^ 32) ++ leBytes 4 cmd.length)
        (wbuf.drop (4 + 4))
      rw [List.length_append, leBytes_length, leBytes_length, List.length_drop, List.drop_drop,
        hpack] at h8
      rw [h8]
      by_cases hsmall : trueSize cmd ≤ maxMsg
      · have hsize : trueSize cmd % 2 ^ 32 = trueSize cmd := Nat.mod_eq_of_lt (by omega)
        rw [if_pos (by omega), List.drop_of_length_le (by omega), List.append_nil, hsize,
          List.append_assoc, ← payload, ← payload_length]
        exact .frame hsmall
      · rw [if_neg (by omega)]
        exact .overrun (Nat.lt_of_not_le hsmall) (Nat.le_of_not_lt hbig)
    · rw [if_neg hfits]
      exact .overrun (by omega) (Nat.le_of_not_lt hbig)

/-! ### Agreement -/

/-- The bytes, received on a new connection of any server, are one command that is executed. -/
def Accepted (strtod : Bytes → UInt64 × ℕ) (bytes : Bytes) (cmd : List Bytes) : Prop :=
  ∀ g σ clock, Good g σ → ∃ g' conn',
    tryProcessOneRequest strtod g clock (fresh bytes) = .ok (g', conn', some ⟨g, clock, cmd⟩) ∧
      conn'.wantClose = false

/-- The two ends agree on a vector: it is refused, or what is sent is one frame with the length of
the payload, which is parsed to the vector and executed. -/
def Agree (strtod : Bytes → UInt64 × ℕ) (cmd : List Bytes) : Prop :=
  sendReq cmd = .ok none ∨ ∃ bytes, sendReq cmd = .ok (some bytes) ∧
    bytes.length = 4 + trueSize cmd ∧ header bytes = trueSize cmd ∧
      parseReq (bytes.drop 4) = some cmd ∧ Accepted strtod bytes cmd

variable {strtod : Bytes → UInt64 × ℕ} {cmd : List Bytes}

/-- The vector is within the limits of a request. -/
structure Within (cmd : List Bytes) : Prop where
  size : trueSize cmd ≤ maxMsg
  count : cmd.length ≤ maxArgs

lemma Within.parse (h : Within cmd) : parseReq (payload cmd) = some cmd := by
  refine parseReq_payload h.count fun x hx => ?_
  exact Nat.lt_of_le_of_lt ((mem_length_le hx).trans h.size) (by decide)

/-- The one request in the buffer is executed, and its response is all there is to send. -/
lemma tryProcess_payload {g : GlobalData} {σ : Store} {conn : Connection} (hg : Good g σ)
    (strtod : Bytes → UInt64 × ℕ) (clock : Timespec) (h : Within cmd)
    (hin : Shows conn.incoming (pack (payload cmd)) []) (hout : Shows conn.outgoing [] []) :
    ∃ g' v incoming outgoing, respond strtod g clock cmd conn.outgoing = .ok (g', outgoing) ∧
      tryProcessOneRequest strtod g clock conn = .ok (g',
        { conn with outgoing := outgoing, incoming := incoming }, some ⟨g, clock, cmd⟩) ∧
      Shows incoming [] [] ∧ Shows outgoing (frame v) [] := by
  have hlt : (payload cmd).length < 2 ^ 32 := by
    rw [payload_length]
    exact Nat.lt_of_le_of_lt h.size (by decide)
  have hle : (payload cmd).length ≤ maxMsg := by
    rw [payload_length]
    exact h.size
  have hhead : ofLeBytes ((pack (payload cmd)).take 4) = (payload cmd).length := by
    rw [← List.append_nil (pack (payload cmd))]
    exact header_pack hlt []
  have hbody : ((pack (payload cmd)).drop 4).take (payload cmd).length = payload cmd := by
    rw [← List.append_nil (pack (payload cmd))]
    exact payload_pack _ []
  obtain ⟨g', v, σ', -, -, -, hact⟩ := respond_spec hg strtod clock cmd
  obtain ⟨outgoing, he, hs⟩ := hact _ _ _ hout
  have hcons := hin.consume (4 + (payload cmd).length)
  rw [List.drop_of_length_le (by rw [pack_length])] at hcons
  refine ⟨g', v, _, outgoing, he, ?_, hcons, hs⟩
  unfold tryProcessOneRequest
  rw [hin.readableSize, hin.unread, pack_length, if_neg (by omega)]
  dsimp only
  rw [hhead, if_neg (Nat.not_lt_of_le hle), if_neg (lt_irrefl _), hbody, h.parse]
  dsimp only
  rw [he]
  rfl

lemma accepted_payload (strtod : Bytes → UInt64 × ℕ) (h : Within cmd) :
    Accepted strtod (pack (payload cmd)) cmd := by
  intro g σ clock hg
  have hin : Shows (fresh (pack (payload cmd))).incoming ([] ++ pack (payload cmd)) [] :=
    shows_empty.append _
  rw [List.nil_append] at hin
  obtain ⟨g', v, incoming, outgoing, -, he, -⟩ :=
    tryProcess_payload hg strtod clock h hin shows_empty
  exact ⟨g', _, he, rfl⟩

/-- Vectors with too many strings are sent, and not accepted. -/
lemma not_agree_of_tooMany (hsize : trueSize cmd ≤ maxMsg) (hn : maxArgs < cmd.length) :
    ¬ Agree strtod cmd := by
  have hparse : parseReq (payload cmd) = none := by
    refine parseReq_tooMany hn ?_
    exact Nat.lt_of_le_of_lt ((length_le_trueSize cmd).trans hsize) (by decide)
  have hs := sendReq_spec cmd
  unfold Agree
  generalize sendReq cmd = r at hs
  cases hs with
  | refused h =>
    have := Nat.mod_le (trueSize cmd) (2 ^ 32)
    omega
  | frame =>
    rintro (h | ⟨bytes, h, -, -, h', -⟩)
    · cases h
    · rw [← Option.some.inj (Except.ok.inj h), pack, List.drop_left' (leBytes_length ..),
        hparse] at h'
      cases h'
  | overrun h => omega

/-- **The two ends agree** on the vectors that are refused, and on those within the limits of both
ends. -/
theorem agree_iff (strtod : Bytes → UInt64 × ℕ) (cmd : List Bytes) :
    Agree strtod cmd ↔
      maxMsg < trueSize cmd % 2 ^ 32 ∨ trueSize cmd ≤ maxMsg ∧ cmd.length ≤ maxArgs := by
  constructor
  · intro h
    have hs := sendReq_spec cmd
    by_cases hsize : trueSize cmd ≤ maxMsg
    · by_cases hn : cmd.length ≤ maxArgs
      · exact .inr ⟨hsize, hn⟩
      · exact absurd h (not_agree_of_tooMany hsize (Nat.lt_of_not_le hn))
    · unfold Agree at h
      generalize sendReq cmd = r at hs h
      cases hs with
      | refused hbig => exact .inl hbig
      | frame hsmall => exact absurd hsmall hsize
      | overrun =>
        rcases h with h | ⟨bytes, h, -⟩
        · cases h
        · cases h
  · intro h
    have hs := sendReq_spec cmd
    have hle := Nat.mod_le (trueSize cmd) (2 ^ 32)
    unfold Agree
    generalize sendReq cmd = r at hs
    cases hs with
    | refused => exact .inl rfl
    | overrun hbig hmod => omega
    | frame hsize =>
      have hn : cmd.length ≤ maxArgs := by
        rcases h with h | h
        · omega
        · exact h.2
      have hlt : (payload cmd).length < 2 ^ 32 := by
        rw [payload_length]
        exact Nat.lt_of_le_of_lt hsize (by decide)
      refine .inr ⟨_, rfl, by rw [pack_length, payload_length], ?_, ?_,
        accepted_payload strtod ⟨hsize, hn⟩⟩
      · rw [← List.append_nil (pack (payload cmd)), header_pack hlt, payload_length]
      · rw [pack, List.drop_left' (leBytes_length ..)]
        exact (Within.mk hsize hn).parse

lemma trueSize_replicate (n : ℕ) (s : Bytes) :
    trueSize (List.replicate n s) = 4 + n * (4 + s.length) := by
  unfold trueSize
  induction n with
  | zero => simp
  | succ n ih =>
    rw [List.replicate_succ, List.map_cons, List.sum_cons, Nat.succ_mul]
    omega

/-- The client sends more strings than the server takes. -/
theorem not_agree_of_many_strings :
    ¬ Agree (fun _ => (0, 0)) (List.replicate 200001 [97]) := by
  have hsize : trueSize (List.replicate 200001 [97]) = 4 + 200001 * 5 :=
    trueSize_replicate 200001 [97]
  refine not_agree_of_tooMany ?_ ?_
  · rw [hsize]
    decide
  · rw [List.length_replicate]
    decide

end ByoRedis.RequestSpec
