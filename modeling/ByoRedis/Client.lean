import ByoRedis.Commands
import ByoRedis.Proto

/-!
The client: sending a request, and reading and printing a response.

Memory is the bytes from a pointer to the end of the array it points into. Sizes of 32 and 64 bits
wrap as they do in the source. The stack has room for so many calls of `print_response` within each
other, and no more.
-/

namespace ByoRedis.Client

open ByoRedis.Basic ByoRedis.ByteBuffer ByoRedis.Proto ByoRedis.Commands
open ByoRedis.Lib.LittleEndian

/-! ### Requests -/

/-- `memcpy(&buf[pos], data, n)` into an array of the size of `buf`. -/
def writeAt (buf : Bytes) (pos : ℕ) (data : Bytes) : Eff Bytes :=
  if pos + data.length ≤ buf.length then pure (overwrite buf pos data) else throw .access

/-- The total payload size, as it is summed up in 32 bits. -/
def payloadSize (cmd : List Bytes) : ℕ := cmd.foldl (fun n s => (n + (4 + s.length)) % 2 ^ 32) 4

def writeStrs : List Bytes → Bytes → ℕ → Eff Bytes
  | [], wbuf, _ => pure wbuf
  | s :: cmd, wbuf, cur => do
    let wbuf ← writeAt wbuf cur (leBytes 4 s.length)
    let wbuf ← writeAt wbuf (cur + 4) s
    writeStrs cmd wbuf (cur + (4 + s.length))

/-- `send_req`: the bytes passed to `write_all`, or `none` where the request is refused. -/
def sendReq (cmd : List Bytes) : Eff (Option Bytes) :=
  if maxMsg < payloadSize cmd then pure none
  else do
    let wbuf := List.replicate ((4 + payloadSize cmd) % 2 ^ 32) 0
    let wbuf ← writeAt wbuf 0 (leBytes 4 (payloadSize cmd))
    let wbuf ← writeAt wbuf 4 (leBytes 4 cmd.length)
    let wbuf ← writeStrs cmd wbuf 8
    pure (some wbuf)

/-! ### Responses -/

/-- What is printed for one value, or at the ends of an array. -/
inductive Printed
  | nil
  | err (code : ℤ) (text : Bytes)
  | str (text : Bytes)
  | int (val : ℤ)
  | dbl (bits : UInt64)
  | arr (len : ℕ)
  | arrEnd
  deriving DecidableEq, Repr

def toI32 (n : ℕ) : ℤ := Int.bmod n (2 ^ 32)

/-- `memcpy` of a number from memory. -/
def readAt (data : Bytes) (pos n : ℕ) : Eff ℕ :=
  if pos + n ≤ data.length then pure (ofLeBytes ((data.drop pos).take n)) else throw .access

/-- `%.*s`: up to a zero, and no more than `len` bytes where that is not negative. -/
def printText (data : Bytes) (len : ℤ) : Eff Bytes :=
  let upTo := if len < 0 then data else data.take len.toNat
  if 0 ∈ upTo then pure (cStr upTo)
  else if 0 ≤ len ∧ len.toNat ≤ data.length then pure upTo
  else throw .access

/-- The loop over the elements of an array, which have this way to be printed: a negative result,
or the size of the array so far. -/
def printElems (print : Bytes → ℕ → Eff (ℤ × List Printed)) (data : Bytes) (size : ℕ) :
    ℕ → ℕ → Eff ((ℤ ⊕ ℕ) × List Printed)
  | 0, arrBytes => pure (.inr arrBytes, [])
  | left + 1, arrBytes => do
    let (rv, out) ← print (data.drop arrBytes) ((2 ^ 64 + size - arrBytes) % 2 ^ 64)
    if rv < 0 then pure (.inl rv, out)
    else do
      let (r, rest) ← printElems print data size left ((arrBytes + rv.toNat) % 2 ^ 64)
      pure (r, out ++ rest)

/-- `print_response`, with the calls that the stack has room for. -/
def printResponse : ℕ → Bytes → ℕ → Eff (ℤ × List Printed)
  | 0, _, _ => throw .overflow
  | stack + 1, data, size =>
    if size < 1 then pure (-1, [])
    else
      match data with
      | [] => throw .access
      | tag :: _ =>
        if tag = Tag.nil.byte then pure (1, [.nil])
        else if tag = Tag.err.byte then
          if size < 1 + 8 then pure (-1, [])
          else do
            let code ← readAt data 1 4
            let len ← readAt data (1 + 4) 4
            if size < (1 + 8 + len) % 2 ^ 32 then pure (-1, [])
            else do
              let text ← printText (data.drop (1 + 8)) (toI32 len)
              pure (toI32 (1 + 8 + len), [.err (toI32 code) text])
        else if tag = Tag.str.byte then
          if size < 1 + 4 then pure (-1, [])
          else do
            let len ← readAt data 1 4
            if size < (1 + 4 + len) % 2 ^ 32 then pure (-1, [])
            else do
              let text ← printText (data.drop (1 + 4)) (toI32 len)
              pure (toI32 (1 + 4 + len), [.str text])
        else if tag = Tag.int.byte then
          if size < 1 + 8 then pure (-1, [])
          else do
            let val ← readAt data 1 8
            pure (1 + 8, [.int (toI64 val)])
        else if tag = Tag.dbl.byte then
          if size < 1 + 8 then pure (-1, [])
          else do
            let val ← readAt data 1 8
            pure (1 + 8, [.dbl (UInt64.ofNat val)])
        else if tag = Tag.arr.byte then
          if size < 1 + 4 then pure (-1, [])
          else do
            let len ← readAt data 1 4
            match ← printElems (printResponse stack) data size len (1 + 4) with
            | (.inl rv, out) => pure (rv, .arr len :: out)
            | (.inr arrBytes, out) => pure (toI32 arrBytes, .arr len :: out ++ [.arrEnd])
        else pure (-1, [])

/-- `read_res` on the bytes that the socket has to give. -/
def readRes (stack : ℕ) (socket : Bytes) : Eff (ℤ × List Printed) :=
  if socket.length < 4 then pure (-1, [])
  else
    let len := ofLeBytes (socket.take 4)
    if maxMsg < len then pure (-1, [])
    else if socket.length < 4 + len then pure (-1, [])
    else do
      let data := (socket.drop 4).take len
      let (rv, out) ← printResponse stack data len
      if 0 < rv ∧ rv ≠ len then pure (-1, out) else pure (rv, out)

/-- A stack with room for a value and for an element of it. -/
structure Stack where
  calls : ℕ
  two_le : 2 ≤ calls

lemma two_le_two : 2 ≤ 2 := Nat.le_refl 2

def Stack.least : Stack := ⟨2, two_le_two⟩

end ByoRedis.Client
