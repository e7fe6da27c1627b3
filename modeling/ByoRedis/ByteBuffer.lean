import Mathlib.Data.Nat.Notation
import ByoRedis.Basic

/-!
The byte buffer of a connection: a queue of unread bytes in an array, with the positions of
numbers that are filled in later.

Copies stay inside the array, which the specification proves; here a copy is made of list
operations that are total. A size that is only asked for may be any `size_t`, and its sum with that
of the unread bytes wraps around.
-/

namespace ByoRedis.ByteBuffer

open ByoRedis.Basic

structure Buffer where
  buf : Bytes := List.replicate 4096 0
  readableBegin : ℕ := 0
  writableBegin : ℕ := 0
  /-- The positions to fill in, the last one pushed first. -/
  placeholderStack : List ℕ := []
  deriving DecidableEq, Repr

namespace Buffer

def capacity (b : Buffer) : ℕ := b.buf.length

def readableSize (b : Buffer) : ℕ := b.writableBegin - b.readableBegin

def writableSize (b : Buffer) : ℕ := b.capacity - b.writableBegin

/-- The `readable_size` bytes from `readable_data` on. -/
def unread (b : Buffer) : Bytes := (b.buf.drop b.readableBegin).take b.readableSize

end Buffer

/-- Positions after the readable bytes were moved to the front. -/
def shiftPlaceholders (shift : ℕ) (stack : List ℕ) : List ℕ :=
  stack.map fun pos => if shift ≤ pos then pos - shift else pos

/-- The readable bytes moved to the front of a new array of zeros. -/
def resized (b : Buffer) (newCap : ℕ) : Buffer :=
  { buf := b.unread ++ List.replicate (newCap - b.readableSize) 0
    readableBegin := 0
    writableBegin := b.readableSize
    placeholderStack := shiftPlaceholders b.readableBegin b.placeholderStack }

/-- The body of `ensure_writable`, where the unread bytes and `ensureSize` more have this sum. -/
def makeRoom (b : Buffer) (ensureSize sum : ℕ) : Buffer :=
  if ensureSize ≤ b.writableSize then b
  else if ensureSize ≤ b.readableBegin + b.writableSize then
    { buf := b.unread ++ b.buf.drop b.readableSize
      readableBegin := 0
      writableBegin := b.readableSize
      placeholderStack := shiftPlaceholders b.readableBegin b.placeholderStack }
  else resized b (max (b.capacity * 2) sum)

def ensureWritable (b : Buffer) (ensureSize : ℕ) : Buffer :=
  makeRoom b ensureSize ((b.readableSize + ensureSize) % 2 ^ 64)

/-- `memcpy(&buf[pos], data, n)` -/
def overwrite (buf : Bytes) (pos : ℕ) (data : Bytes) : Bytes :=
  buf.take pos ++ data ++ buf.drop (pos + data.length)

/-- The data are in memory beside the unread bytes, so that here the sum does not wrap. -/
def append (b : Buffer) (data : Bytes) : Buffer :=
  let b := makeRoom b data.length (b.readableSize + data.length)
  { b with
    buf := overwrite b.buf b.writableBegin data
    writableBegin := b.writableBegin + data.length }

def consume (b : Buffer) (n : ℕ) : Buffer :=
  let n := min n b.readableSize
  let b := { b with readableBegin := b.readableBegin + n }
  if b.writableBegin ≤ b.readableBegin then { b with readableBegin := 0, writableBegin := 0 }
  else b

def shrinkIfWasteful (b : Buffer) (hardMin : ℕ) : Buffer :=
  if max hardMin (b.readableSize * 4) < b.capacity then
    resized b (max hardMin (b.readableSize * 2))
  else b

def pushPlaceholder (b : Buffer) : Buffer :=
  { b with placeholderStack := b.writableBegin :: b.placeholderStack }

def peekPlaceholder (b : Buffer) : Eff ℕ :=
  match b.placeholderStack with
  | [] => throw .assertion
  | pos :: _ => pure pos

def popPlaceholder (b : Buffer) : Eff (Buffer × ℕ) :=
  match b.placeholderStack with
  | [] => throw .assertion
  | pos :: rest => pure ({ b with placeholderStack := rest }, pos)

end ByoRedis.ByteBuffer
