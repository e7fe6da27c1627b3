import Mathlib.Data.List.Basic
import ByoRedis.ByteBuffer

/-!
What a buffer shows: its unread bytes, and how far into them the placeholders are.

Compaction, growth and shrinking move the unread bytes to the front of an array and leave what
is shown as it is, so the users of a buffer are told about bytes and distances only.
-/

namespace ByoRedis.ByteBufferSpec

open ByoRedis.Basic ByoRedis.ByteBuffer ByoRedis.Lib.Runs

/-- The array holds the unread bytes `u` somewhere, with placeholders `hs` bytes into them. -/
def Shows (b : Buffer) (u : Bytes) (hs : List ℕ) : Prop :=
  ∃ pre post, b.buf = pre ++ (u ++ post) ∧ b.readableBegin = pre.length ∧
    b.writableBegin = pre.length + u.length ∧
    b.placeholderStack = hs.map (pre.length + ·) ∧ ∀ h ∈ hs, h ≤ u.length

lemma shows_empty : Shows {} [] [] := ⟨[], List.replicate 4096 0, rfl, rfl, rfl, rfl, by simp⟩

lemma Shows.unread {b : Buffer} {u : Bytes} {hs : List ℕ} (h : Shows b u hs) : b.unread = u := by
  obtain ⟨pre, post, hb, hr, hw, -⟩ := h
  simp [Buffer.unread, Buffer.readableSize, hb, hr, hw]

lemma Shows.readableSize {b : Buffer} {u : Bytes} {hs : List ℕ} (h : Shows b u hs) :
    b.readableSize = u.length := by
  obtain ⟨pre, post, hb, hr, hw, -⟩ := h
  simp [Buffer.readableSize, hr, hw]

lemma Shows.stack {b : Buffer} {u : Bytes} (h : Shows b u []) : b.placeholderStack = [] := by
  obtain ⟨pre, post, -, -, -, hs, -⟩ := h
  exact hs

lemma shiftPlaceholders_map (k : ℕ) (hs : List ℕ) : shiftPlaceholders k (hs.map (k + ·)) = hs := by
  simp [shiftPlaceholders, Function.comp_def]

lemma Shows.resized {b : Buffer} {u : Bytes} {hs : List ℕ} (h : Shows b u hs) (newCap : ℕ) :
    Shows (resized b newCap) u hs := by
  have hu := h.unread
  have hsize := h.readableSize
  obtain ⟨pre, post, -, hr, -, hst, hle⟩ := h
  refine ⟨[], List.replicate (newCap - u.length) 0, ?_, rfl, ?_, ?_, hle⟩
  · simp [ByteBuffer.resized, hu, hsize]
  · simp [ByteBuffer.resized, hsize]
  · simp [ByteBuffer.resized, hst, hr, shiftPlaceholders_map]

/-- **`ensure_writable`** shows the same, whatever the sum. -/
theorem Shows.makeRoom {b : Buffer} {u : Bytes} {hs : List ℕ} (h : Shows b u hs) (n sum : ℕ) :
    Shows (makeRoom b n sum) u hs := by
  have hu := h.unread
  have hsize := h.readableSize
  unfold ByteBuffer.makeRoom
  split_ifs
  · exact h
  · obtain ⟨pre, post, hb, hr, hw, hst, hle⟩ := h
    refine ⟨[], b.buf.drop u.length, ?_, rfl, ?_, ?_, hle⟩
    · simp [hu, hsize]
    · simp [hsize]
    · simp [hst, hr, shiftPlaceholders_map]
  · exact h.resized _

lemma Shows.room {b : Buffer} {u : Bytes} {hs : List ℕ} (h : Shows b u hs) {n sum : ℕ}
    (hsum : u.length + n ≤ sum) : n ≤ (ByteBuffer.makeRoom b n sum).writableSize := by
  have hu := h.unread
  have hsize := h.readableSize
  unfold ByteBuffer.makeRoom
  split_ifs with h1 h2
  · exact h1
  · obtain ⟨pre, post, hb, hr, hw, -⟩ := h
    simp only [Buffer.writableSize, Buffer.capacity, hb, hr, hw, hu, hsize, List.length_append,
      List.length_drop] at h2 ⊢
    omega
  · simp only [ByteBuffer.resized, Buffer.writableSize, Buffer.capacity, hu, hsize,
      List.length_append, List.length_replicate]
    omega

/-- Where the sum does not wrap, `append` begins with `ensure_writable`. -/
lemma append_eq {b : Buffer} {data : Bytes} (h : b.readableSize + data.length < 2 ^ 64) :
    append b data =
      { ensureWritable b data.length with
        buf := overwrite (ensureWritable b data.length).buf
          (ensureWritable b data.length).writableBegin data
        writableBegin := (ensureWritable b data.length).writableBegin + data.length } := by
  unfold append ensureWritable
  rw [Nat.mod_eq_of_lt h]

lemma overwrite_append (x y data : Bytes) :
    overwrite (x ++ y) x.length data = x ++ (data ++ y.drop data.length) := by
  simp [overwrite]

/-- **`append`** adds at the end. -/
theorem Shows.append {b : Buffer} {u : Bytes} {hs : List ℕ} (h : Shows b u hs) (data : Bytes) :
    Shows (append b data) (u ++ data) hs := by
  obtain ⟨pre, post, hb, hr, hw, hst, hle⟩ :=
    h.makeRoom data.length (b.readableSize + data.length)
  unfold ByteBuffer.append
  refine ⟨pre, post.drop data.length, ?_, hr, ?_, hst, fun k hk => ?_⟩
  · have hwl : (ByteBuffer.makeRoom b data.length
        (b.readableSize + data.length)).writableBegin = (pre ++ u).length := by
      simp [hw]
    dsimp only
    rw [hb, hwl, ← List.append_assoc, overwrite_append]
    simp
  · simp [hw, Nat.add_assoc]
  · have := hle k hk
    rw [List.length_append]
    omega

/-- **`consume`** drops from the front. -/
theorem Shows.consume {b : Buffer} {u : Bytes} (h : Shows b u []) (n : ℕ) :
    Shows (consume b n) (u.drop n) [] := by
  have hsize := h.readableSize
  obtain ⟨pre, post, hb, hr, hw, hst, -⟩ := h
  unfold ByteBuffer.consume
  rw [hsize]
  dsimp only
  split_ifs with hall
  · have hnil : u.drop n = [] := by
      rw [List.drop_eq_nil_iff]
      rw [hr, hw] at hall
      omega
    rw [hnil]
    exact ⟨[], b.buf, rfl, rfl, rfl, hst, by simp⟩
  · have hn : min n u.length = n := by
      rw [hr, hw] at hall
      omega
    have hlt : n ≤ u.length := by omega
    refine ⟨pre ++ u.take n, post, ?_, ?_, ?_, hst, by simp⟩
    · dsimp only
      rw [hb, List.append_assoc, ← List.append_assoc (u.take n), List.take_append_drop]
    · simp [hr, hn]
    · simp [hw]
      omega

/-- **`shrink_if_wasteful`** shows the same. -/
theorem Shows.shrink {b : Buffer} {u : Bytes} {hs : List ℕ} (h : Shows b u hs) (hardMin : ℕ) :
    Shows (shrinkIfWasteful b hardMin) u hs := by
  unfold shrinkIfWasteful
  split_ifs
  · exact h.resized _
  · exact h

lemma Shows.push {b : Buffer} {u : Bytes} {hs : List ℕ} (h : Shows b u hs) :
    Shows (pushPlaceholder b) u (u.length :: hs) := by
  obtain ⟨pre, post, hb, hr, hw, hst, hle⟩ := h
  refine ⟨pre, post, hb, hr, hw, ?_, ?_⟩
  · simp [pushPlaceholder, hst, hw]
  · simpa using hle

lemma Shows.pop {b : Buffer} {u : Bytes} {h : ℕ} {hs : List ℕ} (hb : Shows b u (h :: hs)) :
    ∃ b' pos, peekPlaceholder b = .ok pos ∧ popPlaceholder b = .ok (b', pos) ∧ Shows b' u hs ∧
      pos = b.readableBegin + h ∧ b' = { b with placeholderStack := b'.placeholderStack } := by
  obtain ⟨pre, post, hbuf, hr, hw, hst, hle⟩ := hb
  rw [List.map_cons] at hst
  refine ⟨{ b with placeholderStack := hs.map (pre.length + ·) }, pre.length + h, ?_, ?_,
    ⟨pre, post, hbuf, hr, hw, rfl, fun k hk => hle k (List.mem_cons_of_mem _ hk)⟩, by rw [hr], rfl⟩
  · simp [peekPlaceholder, hst]
  · simp [popPlaceholder, hst]

lemma Shows.fill {b : Buffer} {x y u : Bytes} {hs : List ℕ} (hb : Shows b (x ++ (u ++ y)) hs)
    (data : Bytes) (hlen : data.length = u.length) :
    Shows { b with buf := overwrite b.buf (b.readableBegin + x.length) data }
      (x ++ (data ++ y)) hs := by
  obtain ⟨pre, post, hbuf, hr, hw, hst, hle⟩ := hb
  refine ⟨pre, post, ?_, hr, ?_, hst, fun k hk => ?_⟩
  · have hl : b.readableBegin + x.length = (pre ++ x).length := by simp [hr]
    have hsplit : pre ++ (x ++ (u ++ y) ++ post) = (pre ++ x) ++ (u ++ (y ++ post)) := by simp
    dsimp only
    rw [hl, hbuf, hsplit, overwrite_append, hlen, List.drop_left]
    simp
  · simp only [hw, List.length_append]
    omega
  · have := hle k hk
    simp only [List.length_append] at this ⊢
    omega

lemma Shows.overwrite {b : Buffer} {u : Bytes} {hs : List ℕ} (hb : Shows b u hs) {k : ℕ}
    {data : Bytes} (hle : k + data.length ≤ u.length) :
    Shows { b with buf := overwrite b.buf (b.readableBegin + k) data } (overwrite u k data) hs := by
  have hsplit : u = u.take k ++ ((u.drop k).take data.length ++ u.drop (k + data.length)) := by
    rw [← List.drop_drop, List.take_append_drop, List.take_append_drop]
  have hk : (u.take k).length = k := by
    rw [List.length_take]
    omega
  rw [hsplit] at hb
  have hfill := hb.fill data (by rw [List.length_take, List.length_drop]; omega)
  have hnew : ByteBuffer.overwrite u k data =
      u.take k ++ (data ++ u.drop (k + data.length)) := List.append_assoc _ _ _
  rw [hk, ← hnew] at hfill
  exact hfill

lemma Shows.rollback {b : Buffer} {x y : Bytes} {hs : List ℕ} (hb : Shows b (x ++ y) hs)
    (hle : ∀ h ∈ hs, h ≤ x.length) :
    Shows { b with writableBegin := b.readableBegin + x.length } x hs := by
  obtain ⟨pre, post, hbuf, hr, -, hst, -⟩ := hb
  refine ⟨pre, y ++ post, ?_, hr, ?_, hst, hle⟩
  · simp [hbuf]
  · simp [hr]

end ByoRedis.ByteBufferSpec
