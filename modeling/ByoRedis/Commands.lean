import ByoRedis.Database
import ByoRedis.Proto

/-!
The commands, each reading its arguments and writing one answer.

`strtod` is a parameter: for the bytes of a C string it gives the bits of a double and the
number of bytes it took.
-/

namespace ByoRedis.Commands

open ByoRedis.Basic ByoRedis.HashTable ByoRedis.Avl ByoRedis.Heap ByoRedis.SortedSet
open ByoRedis.ByteBuffer ByoRedis.Proto ByoRedis.Database

/-- `cmd[i]`; the dispatcher has checked how many there are. -/
def arg (cmd : List Bytes) (i : ℕ) : Bytes := cmd.getD i []

/-- The key of a lookup: `LookupKey` with its hash. -/
def lookupKey (key : Bytes) : HNode Bytes := ⟨strHash key, key⟩

/-- `hm_lookup(&g_data.db, &key.node, &entry_eq)` -/
def findEntry (g : GlobalData) (key : Bytes) : Eff (GlobalData × Option Addr) := do
  let (db, node) ← hmLookup g.db (lookupKey key) (entryEq g.ents)
  pure ({ g with db := db }, node.map HNode.ref)

def addEntry (g : GlobalData) (type : EntryType) (key val : Bytes) : Eff (GlobalData × Addr) := do
  let (g, ent) := entryNew g type
  let e ← g.deref ent
  let g := g.setEntry ent { e with key := key, hcode := strHash key, str := val }
  let db ← hmInsert g.db ⟨strHash key, ent⟩
  pure ({ g with db := db }, ent)

/-! ### Strings and keys -/

def doGet (g : GlobalData) (cmd : List Bytes) (buffer : Buffer) : Eff (GlobalData × Buffer) := do
  match ← findEntry g (arg cmd 1) with
  | (g, none) => pure (g, outNil buffer)
  | (g, some ent) => do
    let e ← g.deref ent
    if e.type ≠ .str then pure (g, outErr buffer .badTyp "not a string value")
    else pure (g, outStr buffer e.str)

def doSet (g : GlobalData) (cmd : List Bytes) (buffer : Buffer) : Eff (GlobalData × Buffer) := do
  match ← findEntry g (arg cmd 1) with
  | (g, some ent) => do
    let e ← g.deref ent
    if e.type ≠ .str then pure (g, outErr buffer .badTyp "a non-string value exists")
    else pure (g.setEntry ent { e with str := arg cmd 2 }, outNil buffer)
  | (g, none) => do
    let (g, _) ← addEntry g .str (arg cmd 1) (arg cmd 2)
    pure (g, outNil buffer)

def doDel (g : GlobalData) (clock : Timespec) (cmd : List Bytes) (buffer : Buffer) :
    Eff (GlobalData × Buffer) := do
  match ← hmDelete g.db (lookupKey (arg cmd 1)) (entryEq g.ents) with
  | (db, some node) => do
    let g ← entryDel { g with db := db } clock node.ref
    pure (g, outInt buffer 1)
  | (db, none) => pure ({ g with db := db }, outInt buffer 0)

def cbKeys (ents : Addr → Option Entry) (node : HNode Addr) (buf : Buffer) : Buffer × Bool :=
  match ents node.ref with
  | none => (buf, true)
  | some e => (outStr buf e.key, true)

def doKeys (g : GlobalData) (buffer : Buffer) : Eff (GlobalData × Buffer) := do
  let buffer := outArr buffer (hmSize g.db)
  let buffer ← hmForeach g.db (cbKeys g.ents) buffer
  pure (g, buffer)

/-! ### Numbers -/

/-- `s.c_str()`, up to the first zero. -/
def cStr (s : Bytes) : Bytes := s.takeWhile (· ≠ 0)

/-- `str2dbl`; what is written to `out` on a failure is not used. -/
def str2dbl (strtod : Bytes → UInt64 × ℕ) (s : Bytes) : Option Score :=
  let (out, endp) := strtod (cStr s)
  if endp = s.length then
    if h : isNan out = false then some ⟨out, h⟩ else none
  else none

def isDigit (b : UInt8) : Bool := 48 ≤ b && b ≤ 57

def digitsVal (ds : Bytes) : ℕ := ds.foldl (fun n b => n * 10 + (b.toNat - 48)) 0

/-- The sign at the front, and how many bytes it takes. -/
def signOf : Bytes → ℤ × ℕ
  | 45 :: _ => (-1, 1)
  | 43 :: _ => (1, 1)
  | _ => (1, 0)

/-- `strtoll` in base 10: the number, clamped to 64 bits, and the number of bytes taken. -/
def strtoll (s : Bytes) : ℤ × ℕ :=
  let skipped := (s.takeWhile isSpace).length
  let (sign, signLen) := signOf (s.drop skipped)
  let digits := (s.drop (skipped + signLen)).takeWhile isDigit
  if digits = [] then (0, 0)
  else
    (max (-2 ^ 63) (min (2 ^ 63 - 1) (sign * digitsVal digits)),
      skipped + signLen + digits.length)

def str2int (s : Bytes) : Option ℤ :=
  let (out, endp) := strtoll (cStr s)
  if endp = s.length then some out else none

/-! ### Sorted sets -/

/-- Add or update the tuple: the end of `do_zadd`. -/
def addTuple (g : GlobalData) (ent : Addr) (name : Bytes) (score : Score) (buffer : Buffer) :
    Eff (GlobalData × Buffer) := do
  let e ← g.deref ent
  let (zset, added) ← zsetInsert e.zset name score
  pure (g.setEntry ent { e with zset := zset }, outInt buffer (added.toNat : ℤ))

/-- `do_zadd`: zadd zset score name -/
def doZadd (strtod : Bytes → UInt64 × ℕ) (g : GlobalData) (cmd : List Bytes) (buffer : Buffer) :
    Eff (GlobalData × Buffer) :=
  match str2dbl strtod (arg cmd 2) with
  | none => pure (g, outErr buffer .badArg "expect float")
  | some score => do
    match ← findEntry g (arg cmd 1) with
    | (g, none) => do
      let (g, ent) ← addEntry g .zset (arg cmd 1) []
      addTuple g ent (arg cmd 3) score buffer
    | (g, some ent) => do
      let e ← g.deref ent
      if e.type ≠ .zset then pure (g, outErr buffer .badTyp "expect zset")
      else addTuple g ent (arg cmd 3) score buffer

/-- A `ZSet *` from `expect_zset`: the constant `EMPTY_ZSET`, or the set of an entry. -/
inductive ZSetRef
  | empty
  | entry (ent : Addr)

/-- `expect_zset`, or `none` for a value of another type. -/
def expectZset (g : GlobalData) (s : Bytes) : Eff (GlobalData × Option ZSetRef) := do
  match ← findEntry g s with
  | (g, none) => pure (g, some .empty)
  | (g, some ent) => do
    let e ← g.deref ent
    pure (g, if e.type = .zset then some (.entry ent) else none)

/-- `*zset` -/
def readZset (g : GlobalData) : ZSetRef → Eff ZSet
  | .empty => pure {}
  | .entry ent => do
    let e ← g.deref ent
    pure e.zset

/-- Store what was done to `*zset`. Nothing is ever done to the empty one. -/
def writeZset (g : GlobalData) (ref : ZSetRef) (zset : ZSet) : Eff GlobalData :=
  match ref with
  | .empty => pure g
  | .entry ent => do
    let e ← g.deref ent
    pure (g.setEntry ent { e with zset := zset })

/-- `do_zrem`: zrem zset name -/
def doZrem (g : GlobalData) (cmd : List Bytes) (buffer : Buffer) : Eff (GlobalData × Buffer) := do
  match ← expectZset g (arg cmd 1) with
  | (g, none) => pure (g, outErr buffer .badTyp "expect zset")
  | (g, some ref) => do
    let zset ← readZset g ref
    match ← zsetLookup zset (arg cmd 2) with
    | (zset, some znode) => do
      let zset ← zsetDelete zset znode
      let g ← writeZset g ref zset
      pure (g, outInt buffer 1)
    | (zset, none) => do
      let g ← writeZset g ref zset
      pure (g, outInt buffer 0)

/-- `do_zscore`: zscore zset name -/
def doZscore (g : GlobalData) (cmd : List Bytes) (buffer : Buffer) : Eff (GlobalData × Buffer) := do
  match ← expectZset g (arg cmd 1) with
  | (g, none) => pure (g, outErr buffer .badTyp "expect zset")
  | (g, some ref) => do
    let zset ← readZset g ref
    let (zset, znode) ← zsetLookup zset (arg cmd 2)
    let g ← writeZset g ref zset
    match znode with
    | some a => do
      let d ← zset.deref a
      pure (g, outDbl buffer d.score.bits)
    | none => pure (g, outNil buffer)

/-- The loop of `do_zquery`, with the rounds left until `n` is `limit`. -/
def zqueryLoop (zset : ZSet) : ℕ → Option Addr → Buffer → ℕ → Eff (Buffer × ℕ)
  | 0, _, buffer, n => pure (buffer, n)
  | _ + 1, none, buffer, n => pure (buffer, n)
  | left + 1, some a, buffer, n => do
    let d ← zset.deref a
    let buffer := outStr buffer d.name
    let buffer := outDbl buffer d.score.bits
    let znode ← znodeOffset zset (some a) 1
    zqueryLoop zset left znode buffer (n + 1)

/-- `do_zquery`: zquery zset score name offset limit -/
def doZquery (strtod : Bytes → UInt64 × ℕ) (g : GlobalData) (cmd : List Bytes) (buffer : Buffer) :
    Eff (GlobalData × Buffer) :=
  match str2dbl strtod (arg cmd 2) with
  | none => pure (g, outErr buffer .badArg "expect fp number")
  | some score =>
    match str2int (arg cmd 4), str2int (arg cmd 5) with
    | some offset, some limit => do
      match ← expectZset g (arg cmd 1) with
      | (g, none) => pure (g, outErr buffer .badTyp "expect zset")
      | (g, some ref) =>
        if limit ≤ 0 then pure (g, outArr buffer 0)
        else do
          let zset ← readZset g ref
          let znode ← zsetSeekge zset score (arg cmd 3)
          let znode ← znodeOffset zset znode offset
          let (buffer, n) ← zqueryLoop zset limit.toNat znode (outBeginArr buffer) 0
          let buffer ← outEndArr buffer (n * 2)
          pure (g, buffer)
    | _, _ => pure (g, outErr buffer .badArg "expect int")

/-- `do_zrank`: zrank zset name -/
def doZrank (g : GlobalData) (cmd : List Bytes) (buffer : Buffer) : Eff (GlobalData × Buffer) := do
  match ← expectZset g (arg cmd 1) with
  | (g, none) => pure (g, outErr buffer .badTyp "expect zset")
  | (g, some ref) => do
    let zset ← readZset g ref
    let (zset, znode) ← zsetLookup zset (arg cmd 2)
    let g ← writeZset g ref zset
    match znode with
    | some a => do
      let rank ← avlRank zset.rounds zset.tree a
      pure (g, outInt buffer rank)
    | none => pure (g, outNil buffer)

/-- `do_zcount`: zcount zset score1 name1 score2 name2(exclusive) -/
def doZcount (strtod : Bytes → UInt64 × ℕ) (g : GlobalData) (cmd : List Bytes) (buffer : Buffer) :
    Eff (GlobalData × Buffer) :=
  match str2dbl strtod (arg cmd 2), str2dbl strtod (arg cmd 4) with
  | some score1, some score2 => do
    match ← expectZset g (arg cmd 1) with
    | (g, none) => pure (g, outErr buffer .badTyp "expect zset")
    | (g, some ref) => do
      let zset ← readZset g ref
      let znode1 ← zsetSeekge zset score1 (arg cmd 3)
      let znode2 ← zsetSeekge zset score2 (arg cmd 5)
      match znode1, znode2 with
      | some a1, some a2 => do
        let rank1 ← avlRank zset.rounds zset.tree a1
        let rank2 ← avlRank zset.rounds zset.tree a2
        let count := rank2 - rank1
        pure (g, outInt buffer (if count < 0 then 0 else count))
      | _, _ => pure (g, outInt buffer 0)
  | _, _ => pure (g, outErr buffer .badArg "expect fp number")

/-! ### Expiration times -/

/-- `do_expire`: pexpire key ttl_ms -/
def doExpire (g : GlobalData) (clock : Timespec) (cmd : List Bytes) (buffer : Buffer) :
    Eff (GlobalData × Buffer) :=
  match str2int (arg cmd 2) with
  | none => pure (g, outErr buffer .badArg "expect int64")
  | some ttlMs => do
    match ← findEntry g (arg cmd 1) with
    | (g, some ent) => do
      let g ← entrySetTtl g clock ent ttlMs
      pure (g, outInt buffer 1)
    | (g, none) => pure (g, outInt buffer 0)

/-- The cast of a `uint64_t` to an `int64_t`. -/
def toI64 (n : ℕ) : ℤ := Int.bmod n (2 ^ 64)

/-- `do_ttl`: pttl key -/
def doTtl (g : GlobalData) (clock : Timespec) (cmd : List Bytes) (buffer : Buffer) :
    Eff (GlobalData × Buffer) := do
  match ← findEntry g (arg cmd 1) with
  | (g, none) => pure (g, outInt buffer (-2))
  | (g, some ent) =>
    match g.heap.idx ent with
    | none => pure (g, outInt buffer (-1))
    | some pos =>
      match g.heap.a[pos]? with
      | none => throw .access
      | some item =>
        let expireAt := item.val
        let nowMs := getMonotonicMsec clock
        pure (g, outInt buffer (if nowMs < expireAt then toI64 (expireAt - nowMs) else 0))

def doRequestAndMakeResponse (strtod : Bytes → UInt64 × ℕ) (g : GlobalData) (clock : Timespec)
    (cmd : List Bytes) (buffer : Buffer) : Eff (GlobalData × Buffer) :=
  if cmd.length = 2 ∧ arg cmd 0 = str "get" then doGet g cmd buffer
  else if cmd.length = 3 ∧ arg cmd 0 = str "set" then doSet g cmd buffer
  else if cmd.length = 2 ∧ arg cmd 0 = str "del" then doDel g clock cmd buffer
  else if cmd.length = 1 ∧ arg cmd 0 = str "keys" then doKeys g buffer
  else if cmd.length = 4 ∧ arg cmd 0 = str "zadd" then doZadd strtod g cmd buffer
  else if cmd.length = 3 ∧ arg cmd 0 = str "zrem" then doZrem g cmd buffer
  else if cmd.length = 3 ∧ arg cmd 0 = str "zscore" then doZscore g cmd buffer
  else if cmd.length = 6 ∧ arg cmd 0 = str "zquery" then doZquery strtod g cmd buffer
  else if cmd.length = 3 ∧ arg cmd 0 = str "zrank" then doZrank g cmd buffer
  else if cmd.length = 6 ∧ arg cmd 0 = str "zcount" then doZcount strtod g cmd buffer
  else if cmd.length = 3 ∧ arg cmd 0 = str "pexpire" then doExpire g clock cmd buffer
  else if cmd.length = 2 ∧ arg cmd 0 = str "pttl" then doTtl g clock cmd buffer
  else pure (g, outErr buffer .unknown "unknown command")

end ByoRedis.Commands
