import ByoRedis.ByteBufferSpec
import ByoRedis.Commands
import ByoRedis.Lib.WorkQueue

/-!
The thread pool beside the main thread, in any interleaving.

A worker holds the lock while it tests the queue, and the main thread while it pushes and signals;
each of the two is one step, and so is a command or the removal of one expired key, of which the
workers see the push only. An entry that a worker frees is taken from the queue in one step and
freed in a later one.
-/

namespace ByoRedis.ThreadPool

open ByoRedis.Basic ByoRedis.HashTable ByoRedis.Heap ByoRedis.ByteBuffer
open ByoRedis.ByteBufferSpec ByoRedis.Database ByoRedis.Commands ByoRedis.Lib.WorkQueue

/-- `thread_pool_init`: there are four workers at least. -/
def threadPoolInit (numThreads : ℕ) : List (Worker Addr) :=
  List.replicate (max numThreads 4) .ready

/-- The critical section of `worker`: wait, or take the first job. -/
def testQueue (g : GlobalData) : GlobalData × Worker Addr :=
  match g.queue with
  | [] => (g, .waiting)
  | ent :: rest => ({ g with queue := rest }, .running ent)

structure Pool where
  g : GlobalData
  workers : List (Worker Addr)
  /-- The entries `entry_del` was called for. -/
  removed : List Addr := []
  /-- The entries `entry_del_sync` has freed. -/
  destroyed : List Addr := []

/-- `entry_del` of an entry that `hm_delete` has unlinked. What it hands to the pool is signalled;
what it does not hand over it has freed. -/
inductive Deletes (p : Pool) (db : HMap Addr) (clock : Timespec) (ent : Addr) : Pool → Prop
  | queued {g : GlobalData} {ws : List (Worker Addr)}
    (hd : entryDel { p.g with db := db } clock ent = .ok g) (hq : g.queue = p.g.queue ++ [ent])
    (hs : Signal p.workers ws) : Deletes p db clock ent
      { p with g := g, workers := ws, removed := p.removed ++ [ent] }
  | sync {g : GlobalData} (hd : entryDel { p.g with db := db } clock ent = .ok g)
    (hq : g.queue = p.g.queue) : Deletes p db clock ent
      { p with g := g, removed := p.removed ++ [ent], destroyed := p.destroyed ++ [ent] }

/-- The vector is dispatched to `do_del`. -/
def IsDel (cmd : List Bytes) : Prop := cmd.length = 2 ∧ arg cmd 0 = str "del"

inductive Step (strtod : Bytes → UInt64 × ℕ) : Pool → Pool → Prop
  /-- A command other than a deletion. -/
  | command {p : Pool} {clock : Timespec} {cmd : List Bytes} {b b' : Buffer} {u : Bytes}
    {hs : List ℕ} {g : GlobalData} (hc : ¬ IsDel cmd) (hb : Shows b u hs)
    (hr : doRequestAndMakeResponse strtod p.g clock cmd b = .ok (g, b')) :
    Step strtod p { p with g := g }
  /-- `do_del` of a key that is not there. -/
  | missed {p : Pool} {key : Bytes} {db : HMap Addr}
    (hm : hmDelete p.g.db (lookupKey key) (entryEq p.g.ents) = .ok (db, none)) :
    Step strtod p { p with g := { p.g with db := db } }
  /-- `do_del` of a key. -/
  | del {p p' : Pool} {key : Bytes} {clock : Timespec} {db : HMap Addr} {node : HNode Addr}
    (hm : hmDelete p.g.db (lookupKey key) (entryEq p.g.ents) = .ok (db, some node))
    (hd : Deletes p db clock node.ref p') : Step strtod p p'
  /-- One round of the TTL loop of `process_timers`. -/
  | expire {p p' : Pool} {clock : Timespec} {item : HeapItem Addr} {e : Entry} {db : HMap Addr}
    {node : HNode Addr} (hx : p.g.heap.a[0]? = some item)
    (hdue : item.val < getMonotonicMsec clock) (he : p.g.deref item.ref = .ok e)
    (hm : hmDelete p.g.db ⟨e.hcode, item.ref⟩ hnodeSame = .ok (db, some node))
    (hsame : node.ref = item.ref) (hd : Deletes p db clock item.ref p') : Step strtod p p'
  /-- A worker has the lock. -/
  | test {p : Pool} {i : ℕ} {g : GlobalData} {w : Worker Addr} (hw : p.workers[i]? = some .ready)
    (ht : testQueue p.g = (g, w)) : Step strtod p { p with g := g, workers := p.workers.set i w }
  /-- `pthread_cond_wait` returns without a signal. -/
  | wake {p : Pool} {i : ℕ} (hw : p.workers[i]? = some .waiting) :
    Step strtod p { p with workers := p.workers.set i .ready }
  /-- A worker has done its work. -/
  | finish {p : Pool} {i : ℕ} {ent : Addr} {g : GlobalData}
    (hw : p.workers[i]? = some (.running ent)) (hd : entryDelSync p.g ent = .ok g) :
    Step strtod p
      { p with g := g, workers := p.workers.set i .ready, destroyed := p.destroyed ++ [ent] }

/-- The states of the server and its pool, from an empty database and `ws`. -/
inductive Reachable (strtod : Bytes → UInt64 × ℕ) (ws : List (Worker Addr)) : Pool → Prop
  | start : Reachable strtod ws { g := {}, workers := ws }
  | step {p p' : Pool} (hp : Reachable strtod ws p) (hs : Step strtod p p') : Reachable strtod ws p'

end ByoRedis.ThreadPool
