import ByoRedis.BufferRuns
import ByoRedis.ResponseSpec

/-!
The frame around any body of a response.

A body is made by appending to the buffer, and by filling in what was left open in it. It is framed
in the place where it was made, behind whatever responses are in front of it, or it is taken back.
-/

namespace ByoRedis.Framing

open ByoRedis.Basic ByoRedis.ByteBuffer ByoRedis.Proto ByoRedis.ByteBufferSpec ByoRedis.Tlv
open ByoRedis.BufferRuns ByoRedis.Conn ByoRedis.ResponseSpec ByoRedis.Lib.Runs
open ByoRedis.Lib.LittleEndian ByoRedis.Lib.Frames

inductive BodyOp
  | append (data : Bytes)
  | push
  /-- `pop_placeholder`, and `memcpy` to the position. -/
  | fill (data : Bytes)

def BodyOp.perform (buf : Buffer) : BodyOp → Eff Buffer
  | .append data => pure (ByteBuffer.append buf data)
  | .push => pure (pushPlaceholder buf)
  | .fill data => do
    let (buf, pos) ← popPlaceholder buf
    pure { buf with buf := overwrite buf.buf pos data }

def produce : List BodyOp → Buffer → Eff Buffer
  | [], buf => pure buf
  | op :: ops, buf => do
    let buf ← op.perform buf
    produce ops buf

/-- The body after an operation. What is filled in was left open in this body, and was appended
since. -/
def BodyOp.body (q : Queue) : BodyOp → Option Queue
  | .append data => some { q with bytes := q.bytes ++ data }
  | .push => some { q with holes := q.bytes.length :: q.holes }
  | .fill data =>
    match q.holes with
    | [] => none
    | k :: ks =>
      if k + data.length ≤ q.bytes.length then some ⟨overwrite q.bytes k data, ks⟩ else none

/-- The operations make this body, and leave nothing open in it. -/
def Makes (ops : List BodyOp) (body : Bytes) : Prop :=
  ops.foldlM BodyOp.body {} = some ⟨body, []⟩

/-- The buffer has the body behind other bytes, and its holes before other ones. -/
def Behind (u : Bytes) (hs : List ℕ) (b : Buffer) (q : Queue) : Prop :=
  Shows b (u ++ q.bytes) (q.holes.map (u.length + ·) ++ hs)

lemma overwrite_behind (u v : Bytes) (k : ℕ) (data : Bytes) :
    overwrite (u ++ v) (u.length + k) data = u ++ overwrite v k data := by
  unfold overwrite
  rw [List.take_length_add_append, Nat.add_assoc, List.drop_length_add_append]
  simp only [List.append_assoc]

variable {u body : Bytes} {hs : List ℕ} {b : Buffer} {q q' : Queue} {ops : List BodyOp}

lemma perform_behind {op : BodyOp} (h : Behind u hs b q) (hop : op.body q = some q') :
    ∃ b', op.perform b = .ok b' ∧ Behind u hs b' q' := by
  cases op with
  | append data =>
    obtain rfl := Option.some.inj hop
    refine ⟨_, rfl, ?_⟩
    have ha := Shows.append h data
    rw [List.append_assoc] at ha
    exact ha
  | push =>
    obtain rfl := Option.some.inj hop
    refine ⟨_, rfl, ?_⟩
    have hp := Shows.push h
    rw [List.length_append] at hp
    exact hp
  | fill data =>
    obtain ⟨bytes, holes⟩ := q
    cases holes with
    | nil => cases hop
    | cons k ks =>
      unfold BodyOp.body at hop
      dsimp only at hop
      by_cases hle : k + data.length ≤ bytes.length
      · rw [if_pos hle] at hop
        obtain rfl := Option.some.inj hop
        obtain ⟨b', pos, -, hpop, hb', hpos, hsame⟩ := Shows.pop h
        have hat : pos = b'.readableBegin + (u.length + k) := by rw [hpos, hsame]
        have hlen : u.length + k + data.length ≤ (u ++ bytes).length := by
          rw [List.length_append]
          omega
        have hfill := hb'.overwrite hlen
        rw [← hat, overwrite_behind] at hfill
        refine ⟨_, ?_, hfill⟩
        rw [BodyOp.perform, hpop]
        rfl
      · rw [if_neg hle] at hop
        cases hop

lemma produce_behind (h : Behind u hs b q) (hops : ops.foldlM BodyOp.body q = some q') :
    ∃ b', produce ops b = .ok b' ∧ Behind u hs b' q' := by
  induction ops generalizing b q with
  | nil =>
    obtain rfl := Option.some.inj hops
    exact ⟨b, rfl, h⟩
  | cons op ops ih =>
    rw [List.foldlM_cons] at hops
    obtain ⟨q₁, hop, hops⟩ := Option.bind_eq_some_iff.mp hops
    obtain ⟨b₁, he₁, h₁⟩ := perform_behind h hop
    obtain ⟨b₂, he₂, h₂⟩ := ih h₁ hops
    refine ⟨b₂, ?_, h₂⟩
    rw [produce, he₁, ok_bind]
    exact he₂

/-- **A response is framed or taken back.** Into any valid buffer, whatever body is made between
`response_begin` and `response_end` is behind its length in the end, or an error is in its place
where it is too large. The bytes in front of it are as they were, and every placeholder that was
open still is, at the same byte. -/
theorem response_framing (h : Valid b) (hops : Makes ops body) :
    ∃ b₁ b', produce ops (responseBegin b) = .ok b₁ ∧ responseEnd b₁ = .ok b' ∧ Keeps b b' ∧
      (body.length ≤ maxMsg → b'.unread = b.unread ++ (leBytes 4 body.length ++ body)) ∧
      (maxMsg < body.length →
        b'.unread = b.unread ++ (leBytes 4 (enc tooBig).length ++ enc tooBig)) := by
  have hs := h.shows
  have hle : ∀ k ∈ holes b, k ≤ b.unread.length := by
    obtain ⟨_, _, -, -, -, -, hle⟩ := hs
    exact hle
  have hbegin : Behind (b.unread ++ leBytes 4 0) (b.unread.length :: holes b) (responseBegin b)
      {} := by
    have hb := shows_responseBegin hs
    rw [← List.append_nil (b.unread ++ leBytes 4 0)] at hb
    exact hb
  obtain ⟨b₁, he₁, h₁⟩ := produce_behind hbegin hops
  obtain ⟨b', he', h'⟩ := responseEnd_spec h₁ hle
  have hunread := h'.unread
  refine ⟨b₁, b', he₁, he', shows_keeps h', fun hfits => ?_, fun hbig => ?_⟩
  · rw [hunread, limited, if_pos hfits, pack]
  · rw [hunread, limited, if_neg (Nat.not_le_of_lt hbig), pack]

/-- A body of one byte too many, behind a response. -/
theorem response_framing_tooBig :
    ∃ b₁ b', produce [.append (List.replicate (maxMsg + 1) 0)]
        (responseBegin (append {} (pack (enc .nil)))) = .ok b₁ ∧ responseEnd b₁ = .ok b' ∧
      Keeps (append {} (pack (enc .nil))) b' ∧
      b'.unread = pack (enc .nil) ++ pack (enc tooBig) := by
  have hs := shows_empty.append (pack (enc .nil))
  have hops : Makes [.append (List.replicate (maxMsg + 1) 0)] (List.replicate (maxMsg + 1) 0) := by
    unfold Makes
    simp only [List.foldlM_cons, List.foldlM_nil, BodyOp.body, List.nil_append]
    rfl
  obtain ⟨b₁, b', he₁, he', hk, -, hbig⟩ := response_framing (shows_valid hs) hops
  rw [hs.unread] at hbig
  refine ⟨b₁, b', he₁, he', hk, hbig ?_⟩
  rw [List.length_replicate]
  exact Nat.lt_succ_self maxMsg

end ByoRedis.Framing
