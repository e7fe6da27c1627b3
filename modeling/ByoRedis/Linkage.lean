import ByoRedis.StoreRuns

/-!
The links between the entries of the database and the heap of timers, in every state a run of
the store can reach.
-/

namespace ByoRedis.Linkage

open ByoRedis.Basic ByoRedis.HashTable ByoRedis.HashSpec ByoRedis.Heap ByoRedis.HeapSpec
open ByoRedis.Database ByoRedis.TimerSpec ByoRedis.DatabaseSpec ByoRedis.ExpireSpec
open ByoRedis.StoreRuns ByoRedis.KeySpace ByoRedis.Lib.Runs ByoRedis.Lib.HeapOrder

/-- Every heap item belongs to one linked entry that knows its place, the others know that they
have none, and the entries are linked under the hashes of their keys, each key once. -/
structure Linked (g : GlobalData) : Prop where
  minHeap : ∀ i x y, g.heap.a[i]? = some x →
    (g.heap.a[heapLeft i]? = some y ∨ g.heap.a[heapRight i]? = some y) → x.val ≤ y.val
  once : (live g).Nodup
  owned : ∀ i x, g.heap.a[i]? = some x → x.ref ∈ live g ∧ g.heap.idx x.ref = some i
  idle : ∀ ent ∈ live g, (∀ x ∈ g.heap.a, x.ref ≠ ent) → g.heap.idx ent = none
  hashed : ∀ n ∈ nodes g.db, ∃ e, g.ents n.ref = some e ∧ n.hcode = strHash e.key ∧
    e.hcode = strHash e.key
  keys : ∀ a ∈ live g, ∀ b ∈ live g, ∀ e e', g.ents a = some e → g.ents b = some e' →
    e.key = e'.key → a = b

/-- What `do_ttl` and the expiration loop rely on. -/
structure Reliable (g : GlobalData) : Prop where
  inRange : ∀ ent ∈ live g, ∀ pos, g.heap.idx ent = some pos → pos < g.heap.a.length
  unlinks : ∀ item, g.heap.a[0]? = some item → ∃ e db node, g.deref item.ref = .ok e ∧
    hmDelete g.db ⟨e.hcode, item.ref⟩ hnodeSame = .ok (db, some node) ∧ node.ref = item.ref

lemma Linked.of_inv {g : GlobalData} (hg : Inv g) : Linked g where
  minHeap := by
    intro i x y hx hy
    have hle : ∀ j, Kid j i → g.heap.a[j]? = some y → x.val ≤ y.val := by
      intro j hkid hy
      have h := hg.timed.heaped.ordered i j hkid
      rw [valAt_some hx, valAt_some hy] at h
      exact WithTop.coe_le_coe.mp h
    rcases hy with hy | hy
    · exact hle _ (kid_iff.mpr (.inl rfl)) hy
    · exact hle _ (kid_iff.mpr (.inr rfl)) hy
  once := hg.once
  owned := fun i x hx =>
    ⟨hg.timed.owned x (List.mem_of_getElem? hx), hg.timed.heaped.indexed i x hx⟩
  idle := by
    intro ent hent hno
    refine hg.timed.idle ent hent fun hm => ?_
    obtain ⟨x, hx, hr⟩ := List.mem_map.mp hm
    exact hno x hx hr
  hashed := by
    intro n hn
    obtain ⟨e, c, he, hcode, hhash, -⟩ := hg.linked n hn
    exact ⟨e, he, hcode.trans hhash, hhash⟩
  keys := hg.keys

lemma Reliable.of_good {g : GlobalData} {σ : Store} (hg : Good g σ) : Reliable g where
  inRange := by
    intro ent hent pos hpos
    obtain ⟨t, hx⟩ := hg.timed.points hent pos hpos
    exact (List.getElem?_eq_some_iff.mp hx).1
  unlinks := by
    intro item hx
    obtain ⟨e, hat, -⟩ := root_earliest hg hx
    obtain ⟨db, node, he, hsame, -⟩ := unlink_spec hg hat
    exact ⟨e, db, node, hat.deref, he, hsame⟩

/-- **The heap and the database stay linked.** No run of commands and rounds of timers fails, and
every state it reaches is linked, so that an index of an entry is in range and the expiration
loop unlinks the very entry it found in the heap. -/
theorem stays_linked (strtod : Bytes → UInt64 × ℕ) (ops : List Op) :
    ∃ g outs, run (serve strtod) {} ops = .ok (g, outs) ∧ Linked g ∧ Reliable g := by
  obtain ⟨g, outs, σ, he, hg⟩ := run_good strtod ops
  exact ⟨g, outs, he, .of_inv hg.toInv, .of_good hg⟩

end ByoRedis.Linkage
