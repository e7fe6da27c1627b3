import ByoRedis.DatabaseSpec

/-!
The round of TTL timers, which removes the keys that are due.
-/

namespace ByoRedis.ExpireSpec

open ByoRedis.Basic ByoRedis.HashTable ByoRedis.HashSpec ByoRedis.Heap ByoRedis.HeapSpec
open ByoRedis.Database ByoRedis.TimerSpec ByoRedis.DatabaseSpec ByoRedis.KeySpace
open ByoRedis.Lib.Runs

/-- The first item of the heap is that of the key that expires first. -/
lemma root_earliest {g : GlobalData} {σ : Store} (hg : Good g σ) {item : HeapItem Addr}
    (hx : g.heap.a[0]? = some item) : ∃ e, At g e.key item.ref e ∧
      (∃ content, σ e.key = some ⟨content, some item.val⟩) ∧
      ∀ key content t, σ key = some ⟨content, some t⟩ → item.val ≤ t := by
  have hmem := List.mem_of_getElem? hx
  obtain ⟨e, hat⟩ := hg.toInv.exists_at (hg.timed.owned item hmem)
  obtain ⟨c, expiry, -, hd, hs⟩ := hg.get hat
  have hexp : expiry = some item.val := (hd item.val).mpr hmem
  refine ⟨e, hat, ⟨c, by rw [hs, hexp]⟩, fun key content t hk => ?_⟩
  obtain ⟨a, f, -, -, hd'⟩ := (hg.holds key _).mp hk
  exact hg.timed.heaped.root_le hx ((hd' t).mp rfl)

lemma unlink_spec {g : GlobalData} {σ : Store} (hg : Good g σ) {key : Bytes} {a : Addr} {e : Entry}
    (hat : At g key a e) :
    ∃ db n, hmDelete g.db ⟨e.hcode, a⟩ hnodeSame = .ok (db, some n) ∧ n.ref = a ∧ WF db ∧
      (nodes g.db).Perm (n :: nodes db) := by
  obtain ⟨db, r, he, w, hr⟩ := hmDelete_spec hg.table ⟨e.hcode, a⟩ hnodeSame
  cases r with
  | none =>
    obtain ⟨n, hn, rfl⟩ := List.mem_map.mp hat.live
    obtain ⟨f, -, hf, hcode, -⟩ := hg.linked n hn
    obtain rfl : f = e := Option.some.inj (hf.symm.trans hat.ent)
    exact absurd ⟨hcode, by simp [hnodeSame]⟩ (hr.2 n hn)
  | some n =>
    have hsame : n.ref = a := by simpa [hnodeSame] using hr.2.2
    exact ⟨db, n, he, hsame, w, hr.1⟩

/-- One round of the loop: the assertion holds, and the earliest key is removed. -/
lemma expire_first {g : GlobalData} {σ : Store} (hg : Good g σ) {item : HeapItem Addr}
    (hx : g.heap.a[0]? = some item) (clock : Timespec) (hdue : item.val < getMonotonicMsec clock) :
    ∃ e db n g' key, g.deref item.ref = .ok e ∧
      hmDelete g.db ⟨e.hcode, item.ref⟩ hnodeSame = .ok (db, some n) ∧ n.ref = item.ref ∧
      entryDel { g with db := db } clock item.ref = .ok g' ∧
      Earliest (getMonotonicMsec clock) σ key item.val ∧ Good g' (drop σ key) := by
  obtain ⟨e, hat, ⟨c, hs⟩, hle⟩ := root_earliest hg hx
  obtain ⟨db, n, he, hsame, w, hp⟩ := unlink_spec hg hat
  rw [← hsame] at hat
  obtain ⟨g', hdel, hg'⟩ := entryDel_spec hg hat w hp clock
  rw [hsame] at hat hdel
  refine ⟨e, db, n, g', e.key, ?_, he, hsame, hdel, ⟨⟨hdue, c, hs⟩, hle⟩, hg'⟩
  simp [GlobalData.deref, hat.ent]

/-- The loop removes the earliest keys until none is due, or its work is done. -/
lemma ttlLoop_spec (clock : Timespec) {fuel nworks : ℕ} {g : GlobalData} {σ : Store}
    (hg : Good g σ) (hn : nworks ≤ maxWorks) (hf : maxWorks + 1 < fuel + nworks) :
    ∃ g' σ' ks, ttlLoop clock fuel g nworks = .ok g' ∧ Good g' σ' ∧
      Removes (getMonotonicMsec clock) σ ks σ' ∧ nworks + ks.length ≤ maxWorks + 1 ∧
      ((∃ key t, Due (getMonotonicMsec clock) σ' key t) → nworks + ks.length = maxWorks + 1) := by
  induction fuel generalizing nworks g σ with
  | zero => omega
  | succ fuel ih =>
    unfold ttlLoop
    cases hx : g.heap.a[0]? with
    | none =>
      refine ⟨g, σ, [], rfl, hg, .nil σ, by rw [List.length_nil]; omega, ?_⟩
      rintro ⟨key, t, -, c, hs⟩
      obtain ⟨a, e, -, -, hd⟩ := (hg.holds key _).mp hs
      have hmem := (hd t).mp rfl
      rw [List.getElem?_eq_none_iff] at hx
      have := List.length_pos_of_mem hmem
      omega
    | some item =>
      dsimp only
      by_cases hdue : item.val < getMonotonicMsec clock
      · obtain ⟨e, db, n, g', key, hde, hd, hsame, hdel, hearly, hg'⟩ :=
          expire_first hg hx clock hdue
        rw [if_pos hdue, hde]
        simp only [ok_bind, hd, Option.map_some, hsame, if_true, hdel]
        by_cases hlast : maxWorks ≤ nworks
        · rw [if_pos hlast]
          refine ⟨g', _, [key], rfl, hg', .cons hearly (.nil _), ?_, fun _ => ?_⟩ <;>
            rw [List.length_singleton] <;> omega
        · rw [if_neg hlast]
          obtain ⟨g'', σ'', ks, he, hg'', hr, hlen, hrest⟩ :=
            ih hg' (by omega : nworks + 1 ≤ maxWorks) (by omega)
          refine ⟨g'', σ'', key :: ks, he, hg'', .cons hearly hr, ?_, fun h => ?_⟩
          · rw [List.length_cons]
            omega
          · have := hrest h
            rw [List.length_cons]
            omega
      · rw [if_neg hdue]
        refine ⟨g, σ, [], rfl, hg, .nil σ, by rw [List.length_nil]; omega, ?_⟩
        rintro ⟨key, t, hlt, c, hs⟩
        obtain ⟨-, -, -, hle⟩ := root_earliest hg hx
        have := hle key c t hs
        omega

/-- **The TTL timers** remove due keys only, the earliest first, up to one more than
`k_max_works`. -/
theorem processTtlTimers_spec {g : GlobalData} {σ : Store} (hg : Good g σ) (clock : Timespec) :
    ∃ g' σ', processTtlTimers g clock = .ok g' ∧ Good g' σ' ∧
      Expires (maxWorks + 1) (getMonotonicMsec clock) σ σ' := by
  obtain ⟨g', σ', ks, he, hg', hr, hlen, hrest⟩ := ttlLoop_spec clock hg (Nat.zero_le maxWorks)
    (by omega : maxWorks + 1 < (maxWorks + 2) + 0)
  obtain ⟨hnd, hks⟩ := hr.facts
  exact ⟨g', σ', he, hg', ks, hnd, by omega, hr.eq, hks, fun h => by have := hrest h; omega⟩

end ByoRedis.ExpireSpec
