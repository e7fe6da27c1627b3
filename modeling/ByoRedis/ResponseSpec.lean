import ByoRedis.Conn
import ByoRedis.Dispatch
import ByoRedis.Lib.Frames

/-!
The frame of a response.

Whatever a command appends between `response_begin` and `response_end` is framed behind its
length, or an error is framed in its place where it is too large. The bytes before it, and the
placeholders around it, are left alone.
-/

namespace ByoRedis.ResponseSpec

open ByoRedis.Basic ByoRedis.ByteBuffer ByoRedis.ByteBufferSpec ByoRedis.Proto ByoRedis.Tlv
open ByoRedis.Database ByoRedis.DatabaseSpec ByoRedis.Commands ByoRedis.KeySpace
open ByoRedis.CommandSpec ByoRedis.Dispatch ByoRedis.Conn ByoRedis.Lib.Runs
open ByoRedis.Lib.LittleEndian ByoRedis.Lib.Frames

/-- The value in the place of one that is too large. -/
def tooBig : Value := errVal .tooBig "response too big"

def limited (body : Bytes) : Bytes := if body.length ≤ maxMsg then body else enc tooBig

def framed (v : Value) : Value := if (enc v).length ≤ maxMsg then v else tooBig

def frame (v : Value) : Bytes := pack (enc (framed v))

lemma limited_enc (v : Value) : limited (enc v) = enc (framed v) := by
  unfold limited framed
  split_ifs <;> rfl

lemma framed_length (v : Value) : (enc (framed v)).length ≤ maxMsg := by
  unfold framed
  split_ifs with h
  · exact h
  · decide

lemma framed_depth {v : Value} {n : ℕ} (h : depth v ≤ n) : depth (framed v) ≤ n := by
  unfold framed
  split_ifs
  · exact h
  · exact (depth_pos v).trans_le h

variable {b : Buffer} {u body : Bytes} {hs : List ℕ}

lemma shows_responseBegin (h : Shows b u hs) :
    Shows (responseBegin b) (u ++ leBytes 4 0) (u.length :: hs) :=
  h.push.append (leBytes 4 0)

lemma responseSize_spec (h : Shows b (u ++ (leBytes 4 0 ++ body)) (u.length :: hs)) :
    responseSize b = .ok body.length := by
  obtain ⟨b', pos, hpeek, -, -, hpos, -⟩ := h.pop
  obtain ⟨pre, post, -, hr, hw, -⟩ := h
  unfold responseSize
  rw [hpeek, ok_bind, hw, hpos, hr]
  simp only [List.length_append, leBytes_length, pure_eq_ok]
  congr 1
  omega

/-- A payload that is too large is cut off, and an error appended instead. -/
lemma limitResponse_spec (h : Shows b (u ++ (leBytes 4 0 ++ body)) (u.length :: hs))
    (hle : ∀ k ∈ hs, k ≤ u.length) : ∃ b', limitResponse b = .ok b' ∧
      Shows b' (u ++ (leBytes 4 0 ++ limited body)) (u.length :: hs) := by
  obtain ⟨-, pos, hpeek, -, -, hpos, -⟩ := h.pop
  unfold limitResponse limited
  rw [responseSize_spec h, ok_bind]
  by_cases hbig : maxMsg < body.length
  · rw [if_pos hbig, if_neg (Nat.not_le_of_lt hbig), hpeek, ok_bind]
    have hcut : Shows { b with writableBegin := pos + 4 } (u ++ leBytes 4 0) (u.length :: hs) := by
      have hat : pos + 4 = b.readableBegin + (u ++ leBytes 4 0).length := by
        rw [hpos, List.length_append, leBytes_length, Nat.add_assoc]
      rw [hat]
      rw [← List.append_assoc] at h
      refine h.rollback fun k hk => ?_
      rw [List.length_append]
      rcases List.mem_cons.mp hk with rfl | hk
      · omega
      · exact (hle k hk).trans (Nat.le_add_right _ _)
    refine ⟨_, rfl, ?_⟩
    rw [← List.append_assoc]
    exact shows_outErr hcut .tooBig "response too big"
  · rw [if_neg hbig, if_pos (Nat.le_of_not_lt hbig)]
    exact ⟨b, rfl, h⟩

/-- **`response_end`** frames what was appended since `response_begin`. -/
theorem responseEnd_spec (h : Shows b (u ++ leBytes 4 0 ++ body) (u.length :: hs))
    (hle : ∀ k ∈ hs, k ≤ u.length) :
    ∃ b', responseEnd b = .ok b' ∧ Shows b' (u ++ pack (limited body)) hs := by
  rw [List.append_assoc] at h
  obtain ⟨b₁, he, h₁⟩ := limitResponse_spec h hle
  obtain ⟨b₂, pos, -, hpop, h₂, hpos, hsame⟩ := h₁.pop
  have hat : pos = b₂.readableBegin + u.length := by rw [hpos, hsame]
  have hfill := h₂.fill (leBytes 4 (limited body).length) (by simp)
  rw [← hat] at hfill
  refine ⟨_, ?_, hfill⟩
  unfold responseEnd
  rw [he, ok_bind, responseSize_spec h₁, ok_bind, hpop]
  rfl

/-- **The answer to any vector** is one frame, the same after any bytes. -/
theorem respond_spec {g : GlobalData} {σ : Store} (hg : Good g σ) (strtod : Bytes → UInt64 × ℕ)
    (clock : Timespec) (cmd : List Bytes) :
    ∃ g' v σ', Good g' σ' ∧ Told strtod clock σ cmd v σ' ∧ depth v ≤ 2 ∧ ∀ b u hs, Shows b u hs →
      ∃ b', respond strtod g clock cmd b = .ok (g', b') ∧ Shows b' (u ++ frame v) hs := by
  obtain ⟨g', v, σ', hg', ht, hdepth, hact⟩ := doRequest_spec hg strtod clock cmd
  refine ⟨g', v, σ', hg', ht, hdepth, fun b u hs hb => ?_⟩
  have hle : ∀ k ∈ hs, k ≤ u.length := by
    obtain ⟨pre, post, -, -, -, -, h⟩ := hb
    exact h
  obtain ⟨b₁, he₁, hs₁⟩ := hact _ _ _ (shows_responseBegin hb)
  obtain ⟨b₂, he₂, hs₂⟩ := responseEnd_spec hs₁ hle
  refine ⟨b₂, ?_, ?_⟩
  · unfold respond
    rw [he₁, ok_bind]
    dsimp only
    rw [he₂]
    rfl
  · unfold frame
    rw [← limited_enc]
    exact hs₂

end ByoRedis.ResponseSpec
