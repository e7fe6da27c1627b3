import Mathlib.Data.Int.Notation
import ByoRedis.ByteBuffer
import ByoRedis.Lib.LittleEndian

/-!
The tag-length-value format as it is written into a buffer, and the reading of requests.
-/

namespace ByoRedis.Proto

open ByoRedis.Basic ByoRedis.ByteBuffer ByoRedis.Lib.LittleEndian

/-- `k_max_msg` -/
def maxMsg : ℕ := 32 <<< 20

/-- `k_max_args` -/
def maxArgs : ℕ := 200 * 1000

/-- `TAG`: the types of serialized data. -/
inductive Tag
  | nil | err | str | int | dbl | arr
  deriving DecidableEq, Repr

def Tag.byte : Tag → UInt8
  | .nil => 0
  | .err => 1
  | .str => 2
  | .int => 3
  | .dbl => 4
  | .arr => 5

/-- `TAG_ERR_CODE` -/
inductive ErrCode
  | unknown | tooBig | badArg | badTyp
  deriving DecidableEq, Repr

def ErrCode.code : ErrCode → ℕ
  | .unknown => 1
  | .tooBig => 2
  | .badArg => 3
  | .badTyp => 4

/-- `read_u32`; the cursor is the bytes from it to the end. -/
def readU32 (cur : Bytes) : Option (ℕ × Bytes) :=
  if cur.length < 4 then none else some (ofLeBytes (cur.take 4), cur.drop 4)

def readStr (cur : Bytes) (n : ℕ) : Option (Bytes × Bytes) :=
  if cur.length < n then none else some (cur.take n, cur.drop n)

def bufAppendU8 (buf : Buffer) (data : UInt8) : Buffer := append buf [data]

/-- `buf_append_u32`; a number that is too large is cut off, as by the casts of the callers. -/
def bufAppendU32 (buf : Buffer) (data : ℕ) : Buffer := append buf (leBytes 4 data)

/-- The eight bytes of an `int64_t`, in two's complement. -/
def i64Bytes (data : ℤ) : Bytes := leBytes 8 (data % 2 ^ 64).toNat

def bufAppendI64 (buf : Buffer) (data : ℤ) : Buffer := append buf (i64Bytes data)

def bufAppendDbl (buf : Buffer) (bits : UInt64) : Buffer := append buf (leBytes 8 bits.toNat)

def bufAppendStr (buf : Buffer) (data : Bytes) : Buffer := append buf data

def outNil (buf : Buffer) : Buffer := bufAppendU8 buf Tag.nil.byte

def outStr (buf : Buffer) (s : Bytes) : Buffer :=
  let buf := bufAppendU8 buf Tag.str.byte
  let buf := bufAppendU32 buf s.length
  bufAppendStr buf s

def outInt (buf : Buffer) (val : ℤ) : Buffer :=
  let buf := bufAppendU8 buf Tag.int.byte
  bufAppendI64 buf val

def outDbl (buf : Buffer) (bits : UInt64) : Buffer :=
  let buf := bufAppendU8 buf Tag.dbl.byte
  bufAppendDbl buf bits

/-- `out_err` -/
def outError (buf : Buffer) (code : ℕ) (msg : Bytes) : Buffer :=
  let buf := bufAppendU8 buf Tag.err.byte
  let buf := bufAppendU32 buf code
  let buf := bufAppendU32 buf msg.length
  bufAppendStr buf msg

/-- `out_err` of one of the server's codes and a literal. -/
def outErr (buf : Buffer) (code : ErrCode) (msg : String) : Buffer :=
  outError buf code.code (str msg)

def outArr (buf : Buffer) (n : ℕ) : Buffer :=
  let buf := bufAppendU8 buf Tag.arr.byte
  bufAppendU32 buf n

def outBeginArr (buf : Buffer) : Buffer :=
  let buf := bufAppendU8 buf Tag.arr.byte
  let buf := pushPlaceholder buf
  bufAppendU32 buf 0

def outEndArr (buf : Buffer) (n : ℕ) : Eff Buffer := do
  let (buf, pos) ← popPlaceholder buf
  match buf.buf[pos - 1]? with
  | none => throw .access
  | some tag =>
    if tag = Tag.arr.byte then pure { buf with buf := overwrite buf.buf pos (leBytes 4 n) }
    else throw .assertion

end ByoRedis.Proto
