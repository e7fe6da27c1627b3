import ByoRedis.ByteBufferSpec

/-!
Runs of a buffer: whatever is done to it, it is a queue of bytes, with holes that stay where they
are in the queue.
-/

namespace ByoRedis.BufferRuns

open ByoRedis.Basic ByoRedis.ByteBuffer ByoRedis.ByteBufferSpec ByoRedis.Lib.Runs

variable {b b' : Buffer} {u : Bytes} {hs : List ℕ} {cap : ℕ}

/-- The cursors are in order and inside the array, and the placeholders between them. -/
structure Valid (b : Buffer) : Prop where
  begins : b.readableBegin ≤ b.writableBegin
  fits : b.writableBegin ≤ b.capacity
  between : ∀ pos ∈ b.placeholderStack, b.readableBegin ≤ pos ∧ pos ≤ b.writableBegin

/-- How far into the unread bytes the placeholders are. -/
def holes (b : Buffer) : List ℕ := b.placeholderStack.map fun pos => pos - b.readableBegin

lemma shows_holes (h : Shows b u hs) : holes b = hs := by
  obtain ⟨pre, post, -, hr, -, hst, -⟩ := h
  unfold holes
  rw [hst, hr, List.map_map]
  simp [Function.comp_def]

lemma shows_valid (h : Shows b u hs) : Valid b := by
  obtain ⟨pre, post, hb, hr, hw, hst, hle⟩ := h
  refine ⟨?_, ?_, fun pos hpos => ?_⟩
  · rw [hr, hw]
    exact Nat.le_add_right _ _
  · rw [hw, Buffer.capacity, hb, List.length_append, List.length_append]
    omega
  · rw [hst] at hpos
    obtain ⟨h, hmem, rfl⟩ := List.mem_map.mp hpos
    have := hle h hmem
    rw [hr, hw]
    omega

lemma Valid.shows (h : Valid b) : Shows b b.unread (holes b) := by
  obtain ⟨hbegin, hfits, hbetween⟩ := h
  have hlen : b.unread.length = b.writableBegin - b.readableBegin := by
    unfold Buffer.capacity at hfits
    rw [Buffer.unread, Buffer.readableSize, List.length_take, List.length_drop]
    omega
  have hpre : (b.buf.take b.readableBegin).length = b.readableBegin := by
    unfold Buffer.capacity at hfits
    rw [List.length_take]
    omega
  refine ⟨b.buf.take b.readableBegin, (b.buf.drop b.readableBegin).drop b.readableSize, ?_,
    hpre.symm, ?_, ?_, fun k hk => ?_⟩
  · rw [Buffer.unread, List.take_append_drop, List.take_append_drop]
  · rw [hpre, hlen]
    omega
  · have hback : ∀ pos ∈ b.placeholderStack,
        b.readableBegin + (pos - b.readableBegin) = pos := by
      intro pos hpos
      have := (hbetween pos hpos).1
      omega
    rw [hpre, holes, List.map_map]
    exact ((List.map_congr_left hback).trans (List.map_id _)).symm
  · obtain ⟨pos, hpos, rfl⟩ := List.mem_map.mp hk
    have := hbetween pos hpos
    rw [hlen]
    omega

/-! ### What each operation keeps -/

/-- The unread bytes of one buffer are at the front of those of another, with the same holes in
them: every placeholder is at the same byte. -/
structure Keeps (b b' : Buffer) : Prop where
  valid : Valid b'
  unread : b.unread <+: b'.unread
  holes : holes b' = holes b

lemma shows_keeps {data : Bytes} (hs : Shows b' (b.unread ++ data) (holes b)) : Keeps b b' := by
  refine ⟨shows_valid hs, ?_, shows_holes hs⟩
  rw [hs.unread]
  exact List.prefix_append _ _

inductive Op
  | append (data : Bytes)
  | consume (n : ℕ)
  | shrink (hardMin : ℕ)
  | ensure (n : ℕ)
  | push
  | pop

/-- What the callers of an operation keep to; a size is a `size_t`. -/
def Op.Allowed (b : Buffer) : Op → Prop
  | .consume _ => b.placeholderStack = []
  | .shrink hardMin => 0 < hardMin
  | .ensure n => n < 2 ^ 64
  | _ => True

/-- There is room already, or the size and that of the unread bytes do not wrap. -/
def Op.Fits (b : Buffer) : Op → Prop
  | .ensure n => n ≤ b.writableSize ∨ b.unread.length + n < 2 ^ 64
  | _ => True

def perform (b : Buffer) : Op → Eff Buffer
  | .append data => pure (append b data)
  | .consume n => pure (consume b n)
  | .shrink hardMin => pure (shrinkIfWasteful b hardMin)
  | .ensure n => pure (ensureWritable b n)
  | .push => pure (pushPlaceholder b)
  | .pop => do
    let (b, _) ← popPlaceholder b
    pure b

/-- `Buffer(init_cap)` -/
def newBuffer (cap : ℕ) : Buffer := { buf := List.replicate cap 0 }

/-- What a buffer is for: a queue of bytes with holes to be filled in. -/
structure Queue where
  bytes : Bytes := []
  holes : List ℕ := []

def Queue.perform (q : Queue) : Op → Queue
  | .append data => { q with bytes := q.bytes ++ data }
  | .consume n => { q with bytes := q.bytes.drop n }
  | .push => { q with holes := q.bytes.length :: q.holes }
  | .pop => { q with holes := q.holes.tail }
  | .shrink _ | .ensure _ => q

/-- The buffers that are reached from a new one, each with the queue that the same operations
lead to. A vector has less than 2^63 bytes. -/
inductive Reached (cap : ℕ) : Buffer → Queue → Prop
  | new (hmax : cap < 2 ^ 63) : Reached cap (newBuffer cap) {}
  | step {b b' : Buffer} {q : Queue} (op : Op) (h : Reached cap b q) (ha : op.Allowed b)
    (he : perform b op = .ok b') (hmax : b'.capacity < 2 ^ 63) : Reached cap b' (q.perform op)

/-- A buffer whose bytes were moved to the front, and then to a larger array, around a hole. -/
def moved : Buffer :=
  append (append (pushPlaceholder (consume (append (newBuffer 4) [1, 2, 3]) 2)) [4, 5, 6]) [7]

end ByoRedis.BufferRuns
