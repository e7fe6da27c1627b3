import ByoRedis.Heap
import ByoRedis.SortedSet

/-!
The database: entries in a hash map by key, and their expiration times in a heap.

The entries are kept by address, an address being given out once. `Entry::heap_idx`, to which
the heap items point, is in the index map of the heap.
-/

namespace ByoRedis.Database

open ByoRedis.Basic ByoRedis.HashTable ByoRedis.Heap ByoRedis.SortedSet

inductive EntryType
  | init | str | zset
  deriving DecidableEq, Repr

structure Entry where
  /-- `node.hcode` -/
  hcode : ℕ := 0
  key : Bytes := []
  type : EntryType := .init
  str : Bytes := []
  zset : ZSet := {}

structure GlobalData where
  db : HMap Addr := {}
  heap : Timers Addr := {}
  ents : Addr → Option Entry := fun _ => none
  /-- No address from here on was ever given out. -/
  fresh : Addr := 0
  /-- The entries handed to the thread pool, the last one last. -/
  queue : List Addr := []

def GlobalData.deref (g : GlobalData) (ent : Addr) : Eff Entry :=
  match g.ents ent with
  | none => throw .access
  | some e => pure e

def GlobalData.setEntry (g : GlobalData) (ent : Addr) (e : Entry) : GlobalData :=
  { g with ents := Function.update g.ents ent (some e) }

/-! ### The clock -/

/-- A reading of `CLOCK_MONOTONIC`, which counts nanoseconds in 63 bits. -/
structure Timespec where
  sec : ℕ
  nsec : ℕ
  nsec_lt : nsec < 10 ^ 9
  in_range : sec * 10 ^ 9 + nsec < 2 ^ 63
  deriving DecidableEq, Repr

lemma Timespec.nsec_zero : 0 < 10 ^ 9 := by decide

def getMonotonicMsec (tv : Timespec) : ℕ := (tv.sec * 1000 + tv.nsec / 1000 / 1000) % 2 ^ 64

/-! ### Entries -/

/-- `k_large_container_size` -/
def largeContainerSize : ℕ := 10

/-- `entry_new`; the caller names the entry and its hash. -/
def entryNew (g : GlobalData) (type : EntryType) : GlobalData × Addr :=
  ({ g with
    ents := Function.update g.ents g.fresh (some { type := type })
    heap := { g.heap with idx := Function.update g.heap.idx g.fresh none }
    fresh := g.fresh + 1 }, g.fresh)

def entryDelSync (g : GlobalData) (ent : Addr) : Eff GlobalData := do
  let e ← g.deref ent
  if e.type = .zset then
    let _ ← zsetClear e.zset
  pure { g with ents := Function.update g.ents ent none }

/-- `entry_set_ttl`: set or remove the TTL. -/
def entrySetTtl (g : GlobalData) (clock : Timespec) (ent : Addr) (ttlMs : ℤ) : Eff GlobalData :=
  if ttlMs < 0 ∧ (g.heap.idx ent).isSome then do
    let heap ← heapDelete g.heap (g.heap.idx ent)
    pure { g with heap := { heap with idx := Function.update heap.idx ent none } }
  else if 0 ≤ ttlMs then do
    let expireAt := (getMonotonicMsec clock + ttlMs.toNat) % 2 ^ 64
    let heap ← heapUpsert g.heap (g.heap.idx ent) ⟨expireAt, ent⟩
    pure { g with heap := heap }
  else pure g

/-- `entry_del`: unlink from the heap, and free here or in the thread pool. -/
def entryDel (g : GlobalData) (clock : Timespec) (ent : Addr) : Eff GlobalData := do
  let g ← entrySetTtl g clock ent (-1)
  let e ← g.deref ent
  let setSize := if e.type = .zset then hmSize e.zset.hmap else 0
  if largeContainerSize < setSize then pure { g with queue := g.queue ++ [ent] }
  else entryDelSync g ent

def entryEq (ents : Addr → Option Entry) (n : HNode Addr) (key : HNode Bytes) : Bool :=
  match ents n.ref with
  | none => false
  | some e => e.key == key.ref

def hnodeSame (n key : HNode Addr) : Bool := n.ref == key.ref

/-! ### Expiration -/

/-- `k_max_works` -/
def maxWorks : ℕ := 2000

/-- The TTL loop of `process_timers`. -/
def ttlLoop (clock : Timespec) : ℕ → GlobalData → ℕ → Eff GlobalData
  | 0, _, _ => throw .spin
  | fuel + 1, g, nworks =>
    match g.heap.a[0]? with
    | none => pure g
    | some item =>
      if item.val < getMonotonicMsec clock then do
        let e ← g.deref item.ref
        let (db, node) ← hmDelete g.db ⟨e.hcode, item.ref⟩ hnodeSame
        if node.map HNode.ref = some item.ref then do
          let g ← entryDel { g with db := db } clock item.ref
          if maxWorks ≤ nworks then pure g else ttlLoop clock fuel g (nworks + 1)
        else throw .assertion
      else pure g

/-- The TTL timers of `process_timers`, at one reading of the clock. -/
def processTtlTimers (g : GlobalData) (clock : Timespec) : Eff GlobalData :=
  ttlLoop clock (maxWorks + 2) g 0

end ByoRedis.Database
