import ByoRedis.BufferRuns
import ByoRedis.Tlv

/-!
The two ways to write an array: behind its count, or with the count filled in after the last
element.

Elements are arrays themselves, so many counts may be open at once, and the buffer may be moved
while they are. Both ways append the same bytes.
-/

namespace ByoRedis.Writers

open ByoRedis.Basic ByoRedis.ByteBuffer ByoRedis.Proto ByoRedis.ByteBufferSpec ByoRedis.Tlv
open ByoRedis.BufferRuns ByoRedis.Lib.Runs

mutual

/-- Write a value, each array behind its count. -/
def outValue : Value → Buffer → Buffer
  | .nil, buf => outNil buf
  | .err code msg, buf => outError buf code msg
  | .str s, buf => outStr buf s
  | .int v, buf => outInt buf v
  | .dbl bits, buf => outDbl buf bits
  | .arr elems, buf => outValues elems (outArr buf elems.length)

def outValues : List Value → Buffer → Buffer
  | [], buf => buf
  | v :: vs, buf => outValues vs (outValue v buf)

end

mutual

/-- Write a value, with the count of each array filled in after its elements. -/
def outDeferred : Value → Buffer → Eff Buffer
  | .nil, buf => pure (outNil buf)
  | .err code msg, buf => pure (outError buf code msg)
  | .str s, buf => pure (outStr buf s)
  | .int v, buf => pure (outInt buf v)
  | .dbl bits, buf => pure (outDbl buf bits)
  | .arr elems, buf => do
    let buf ← outDeferredAll elems (outBeginArr buf)
    outEndArr buf elems.length

def outDeferredAll : List Value → Buffer → Eff Buffer
  | [], buf => pure buf
  | v :: vs, buf => do
    let buf ← outDeferred v buf
    outDeferredAll vs buf

end

mutual

/-- **A value written** is its bytes appended. -/
theorem shows_outValue (v : Value) {b : Buffer} {u : Bytes} {hs : List ℕ} (h : Shows b u hs) :
    Shows (outValue v b) (u ++ enc v) hs := by
  cases v with
  | nil => exact shows_outNil h
  | err code msg => exact shows_outError h code msg
  | str s => exact shows_outStr h s
  | int v => exact shows_outInt h v
  | dbl bits => exact shows_outDbl h bits
  | arr elems =>
    have hall := shows_outValues elems (shows_outArr h elems.length)
    rw [List.append_assoc] at hall
    exact hall

theorem shows_outValues (vs : List Value) {b : Buffer} {u : Bytes} {hs : List ℕ}
    (h : Shows b u hs) : Shows (outValues vs b) (u ++ encAll vs) hs := by
  cases vs with
  | nil =>
    rw [encAll_nil, List.append_nil]
    exact h
  | cons v vs =>
    rw [encAll_cons, ← List.append_assoc]
    exact shows_outValues vs (shows_outValue v h)

end

mutual

/-- **A value written with its counts filled in** is its bytes appended, too. The elements of an
array are written under the placeholder of its count, and leave it where it is. -/
theorem shows_outDeferred (v : Value) {b : Buffer} {u : Bytes} {hs : List ℕ}
    (h : Shows b u hs) : ∃ b', outDeferred v b = .ok b' ∧ Shows b' (u ++ enc v) hs := by
  cases v with
  | nil => exact ⟨_, rfl, shows_outNil h⟩
  | err code msg => exact ⟨_, rfl, shows_outError h code msg⟩
  | str s => exact ⟨_, rfl, shows_outStr h s⟩
  | int v => exact ⟨_, rfl, shows_outInt h v⟩
  | dbl bits => exact ⟨_, rfl, shows_outDbl h bits⟩
  | arr elems =>
    obtain ⟨b₁, he₁, h₁⟩ := shows_outDeferredAll elems (shows_outBeginArr h)
    obtain ⟨b₂, he₂, h₂⟩ := shows_outEndArr h₁ elems.length
    refine ⟨b₂, ?_, ?_⟩
    · rw [outDeferred, he₁, ok_bind]
      exact he₂
    · rw [List.append_assoc] at h₂
      exact h₂

theorem shows_outDeferredAll (vs : List Value) {b : Buffer} {u : Bytes} {hs : List ℕ}
    (h : Shows b u hs) :
    ∃ b', outDeferredAll vs b = .ok b' ∧ Shows b' (u ++ encAll vs) hs := by
  cases vs with
  | nil =>
    rw [encAll_nil, List.append_nil]
    exact ⟨b, rfl, h⟩
  | cons v vs =>
    obtain ⟨b₁, he₁, h₁⟩ := shows_outDeferred v h
    obtain ⟨b₂, he₂, h₂⟩ := shows_outDeferredAll vs h₁
    refine ⟨b₂, ?_, ?_⟩
    · rw [outDeferredAll, he₁, ok_bind]
      exact he₂
    · rw [encAll_cons, ← List.append_assoc]
      exact h₂

end

/-- **Counts filled in are counts written first.** Into any valid buffer, a value is written with
the count of each array filled in as it is with the counts first: the same bytes are appended, no
assertion fails, and every placeholder that was open still is, at the same byte. -/
theorem deferred_counts (v : Value) {b : Buffer} (h : Valid b) :
    ∃ b', outDeferred v b = .ok b' ∧ Keeps b b' ∧
      b'.unread = b.unread ++ enc v ∧ b'.unread = (outValue v b).unread ∧
      b'.placeholderStack.length = b.placeholderStack.length := by
  obtain ⟨b', he, hs⟩ := shows_outDeferred v h.shows
  have hdirect := shows_outValue v h.shows
  refine ⟨b', he, shows_keeps hs, hs.unread, ?_, ?_⟩
  · rw [hs.unread, hdirect.unread]
  · have hlen := congrArg List.length (shows_holes hs)
    rw [holes, holes, List.length_map, List.length_map] at hlen
    exact hlen

/-- A nested array, into a buffer of no bytes with a placeholder open. -/
theorem deferred_counts_nested :
    ∃ b', outDeferred (.arr [.arr [.nil], .int 1]) (pushPlaceholder (newBuffer 0)) = .ok b' ∧
      Keeps (pushPlaceholder (newBuffer 0)) b' ∧
      b'.unread = (pushPlaceholder (newBuffer 0)).unread ++ enc (.arr [.arr [.nil], .int 1]) ∧
      b'.unread = (outValue (.arr [.arr [.nil], .int 1]) (pushPlaceholder (newBuffer 0))).unread ∧
      b'.placeholderStack.length = (pushPlaceholder (newBuffer 0)).placeholderStack.length :=
  deferred_counts _ ⟨by decide, by decide, by decide⟩

end ByoRedis.Writers
