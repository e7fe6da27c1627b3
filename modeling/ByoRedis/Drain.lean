import ByoRedis.RangeCommands
import ByoRedis.Reclaim

/-!
What is handed to the thread pool is freed in the end, and no entry is lost before.

The main thread may hand over more in the meantime, and the workers may be slow; but a worker that
is not waiting goes on at some time. Then no entry that was removed is kept for ever. An entry that
was not removed is linked in the database: whatever was given out is in one place.
-/

namespace ByoRedis.Drain

open ByoRedis.Basic ByoRedis.HashTable ByoRedis.HashSpec ByoRedis.Heap ByoRedis.Database
open ByoRedis.DatabaseSpec ByoRedis.Commands ByoRedis.CommandFrame ByoRedis.RangeCommands
open ByoRedis.StoreRuns ByoRedis.ByteBufferSpec ByoRedis.ThreadPool ByoRedis.Reclaim
open ByoRedis.Lib.Runs ByoRedis.Lib.Liveness ByoRedis.Lib.WorkQueue
open scoped List

/-- A worker is at the queue, or has a job. -/
def Busy (p : Pool) (i : ℕ) : Prop := Awake (poolState p) i

/-- One step of the loop of a worker. -/
inductive Goes (p : Pool) (i : ℕ) : Pool → Prop
  | test {g : GlobalData} {w : Worker Addr} (hw : p.workers[i]? = some .ready)
    (ht : testQueue p.g = (g, w)) : Goes p i { p with g := g, workers := p.workers.set i w }
  | finish {ent : Addr} {g : GlobalData} (hw : p.workers[i]? = some (.running ent))
    (hd : entryDelSync p.g ent = .ok g) : Goes p i
      { p with g := g, workers := p.workers.set i .ready, destroyed := p.destroyed ++ [ent] }

variable {strtod : Bytes → UInt64 × ℕ} {p p' : Pool} {ws : List (Worker Addr)} {i : ℕ}

lemma Goes.step (h : Goes p i p') : ThreadPool.Step strtod p p' := by
  cases h with
  | test hw ht => exact .test hw ht
  | finish hw hd => exact .finish hw hd

lemma takes_of_test {g : GlobalData} {w : Worker Addr} (hw : p.workers[i]? = some .ready)
    (ht : testQueue p.g = (g, w)) :
    Takes (poolState p) i (poolState { p with g := g, workers := p.workers.set i w }) := by
  unfold testQueue at ht
  cases hq : p.g.queue with
  | nil =>
    rw [hq] at ht
    obtain ⟨rfl, rfl⟩ := Prod.mk.inj ht
    exact .wait hw hq
  | cons ent rest =>
    rw [hq] at ht
    obtain ⟨rfl, rfl⟩ := Prod.mk.inj ht
    exact .take hw hq

lemma queue_of_free {g g' : GlobalData} {ent : Addr} (h : entryDelSync g ent = .ok g') :
    g'.queue = g.queue := by
  obtain ⟨e, -, h⟩ := bind_eq_ok.mp h
  split_ifs at h
  · obtain ⟨z, -, h⟩ := bind_eq_ok.mp h
    obtain rfl := Except.ok.inj h
    rfl
  · obtain rfl := Except.ok.inj h
    rfl

lemma Goes.takes (h : Goes p i p') : Takes (poolState p) i (poolState p') := by
  cases h with
  | test hw ht => exact takes_of_test hw ht
  | @finish ent g hw hd =>
    unfold poolState
    dsimp only
    rw [queue_of_free hd]
    exact .finish hw

lemma step_of_takes {s s' : State Addr} (h : Takes s i s') : Lib.WorkQueue.Step s s' := by
  cases h with
  | wait hw hq => exact .wait hw hq
  | take hw hq => exact .take hw hq
  | finish hw => exact .finish hw

lemma step_of_deletes {db : HMap Addr} {clock : Timespec} {ent : Addr}
    (h : Deletes p db clock ent p') : Lib.WorkQueue.Step (poolState p) (poolState p') := by
  cases h with
  | queued hd hq hs =>
    unfold poolState
    dsimp only
    rw [hq]
    exact .push ent hs
  | sync hd hq =>
    unfold poolState
    dsimp only
    rw [hq]
    exact .direct ent

/-- **Every step** of the server and its pool is one of the queue, or none. -/
lemma queue_step (h : Sound p) (hs : ThreadPool.Step strtod p p') :
    poolState p' = poolState p ∨ Lib.WorkQueue.Step (poolState p) (poolState p') := by
  cases hs with
  | command hc hb hr =>
    refine .inl ?_
    unfold poolState
    dsimp only
    rw [(doRequest_frames h.inv.table hc _ _ hr).queue]
  | missed hm => exact .inl rfl
  | del hm hd => exact .inr (step_of_deletes hd)
  | expire hx hdue he hm hsame hd => exact .inr (step_of_deletes hd)
  | test hw ht => exact .inr (step_of_takes (takes_of_test hw ht))
  | wake hw => exact .inr (.wake hw)
  | finish hw hd =>
    have hgoes : Goes p _ _ := .finish hw hd
    exact .inr (step_of_takes hgoes.takes)

lemma exists_goes (h : Sound p) (hb : Busy p i) : ∃ p', Goes p i p' := by
  obtain ⟨w, hw, hne⟩ := hb
  cases w with
  | ready => exact ⟨_, .test hw rfl⟩
  | waiting => exact absurd rfl hne
  | running ent =>
    obtain ⟨g, hd, -⟩ := h.finish hw
    exact ⟨_, .finish hw hd⟩

lemma reachable_from {ps : ℕ → Pool} (hstart : ThreadPool.Reachable strtod ws (ps 0))
    (hstep : ∀ n, ThreadPool.Step strtod (ps n) (ps (n + 1))) (n : ℕ) :
    ThreadPool.Reachable strtod ws (ps n) := by
  induction n with
  | zero => exact hstart
  | succ n ih => exact ih.step (hstep n)

/-- **Nothing is kept for ever.** In every run of the main thread and the workers in which no worker
that is not waiting is put off for ever, an entry that was removed is freed in the end. Such a
worker can always go on. -/
theorem freed_in_the_end {ps : ℕ → Pool} (hne : ws ≠ []) (hready : ∀ w ∈ ws, w = .ready)
    (hstart : ThreadPool.Reachable strtod ws (ps 0))
    (hstep : ∀ n, ThreadPool.Step strtod (ps n) (ps (n + 1))) (hfair : Fair Busy Goes ps) :
    (∀ n ent, ent ∈ (ps n).removed →
      ∃ m, n ≤ m ∧ ent ∈ (ps m).destroyed ∧ (ps m).g.ents ent = none) ∧
    ∀ n i, Busy (ps n) i → ∃ p', Goes (ps n) i p' := by
  have hsound : ∀ n, Sound (ps n) := fun n =>
    sound_of_reachable hne hready (reachable_from hstart hstep n)
  refine ⟨fun n ent hent => ?_, fun n i => exists_goes (hsound n)⟩
  have hqueue : Fair Awake Takes fun k => poolState (ps (n + k)) := by
    intro i k hk
    obtain ⟨j, hj, hgoes⟩ := hfair.shift n i k hk
    exact ⟨j, hj, hgoes.takes⟩
  obtain ⟨k, hk⟩ := done_of_fair (hsound n).jobs (fun k => queue_step (hsound (n + k)) (hstep _))
    hqueue hent
  exact ⟨n + k, Nat.le_add_right n k, hk, (hsound (n + k)).gone ent hk⟩

/-! ### A set that is too large to be freed at once -/

/-- A vector that is no command changes nothing. -/
lemma step_idle (p : Pool) : ThreadPool.Step strtod p p :=
  @ThreadPool.Step.command strtod p zeroTime [] {} _ [] [] p.g (by simp [IsDel]) shows_empty rfl

/-- A set of eleven members is deleted. A worker is woken, frees it and waits again; then vectors
are sent that are no commands. -/
theorem freed_in_the_end_eleven : ∃ (ps : ℕ → Pool) (ent : Addr), (ps 0).g.queue = [ent] ∧
    ∃ m, 0 ≤ m ∧ ent ∈ (ps m).destroyed ∧ (ps m).g.ents ent = none := by
  obtain ⟨g, ent, hqueue, hreach⟩ := queued_reachable
  have hready : ∀ w ∈ threadPoolInit 1, w = .ready := fun w hw => List.eq_of_mem_replicate hw
  have hne : threadPoolInit 1 ≠ [] := by simp [threadPoolInit]
  have htake : testQueue g = ({ g with queue := [] }, .running ent) := by
    rw [testQueue, hqueue]
  have h₁ : Goes (oneWorker g .ready [ent] []) 0
      (oneWorker { g with queue := [] } (.running ent) [ent] []) := .test rfl htake
  have hrunning : (oneWorker { g with queue := [] } (.running ent) [ent] []).workers[0]? =
      some (.running ent) := rfl
  obtain ⟨g₂, hfree, -⟩ :=
    (sound_of_reachable hne hready (hreach.step h₁.step)).finish hrunning
  have h₂ : Goes (oneWorker { g with queue := [] } (.running ent) [ent] []) 0
      (oneWorker g₂ .ready [ent] [ent]) := .finish rfl hfree
  have hempty : testQueue g₂ = (g₂, .waiting) := by
    rw [testQueue, queue_of_free hfree]
    rfl
  have h₃ : Goes (oneWorker g₂ .ready [ent] [ent]) 0 (oneWorker g₂ .waiting [ent] [ent]) :=
    .test rfl hempty
  let ps (n : ℕ) : Pool :=
    [oneWorker g .ready [ent] [], oneWorker { g with queue := [] } (.running ent) [ent] [],
      oneWorker g₂ .ready [ent] [ent]].getD n (oneWorker g₂ .waiting [ent] [ent])
  have hstep : ∀ n, ThreadPool.Step allZero (ps n) (ps (n + 1)) := by
    rintro (_ | _ | _ | n)
    · exact h₁.step
    · exact h₂.step
    · exact h₃.step
    · exact step_idle _
  have hfair : Fair Busy Goes ps := by
    intro i n h
    obtain ⟨w, hw, hbusy⟩ := h (n + 3) (by omega)
    have hmem : w ∈ [.waiting, .waiting, .waiting, .waiting] := List.mem_of_getElem? hw
    simp only [List.mem_cons, List.not_mem_nil, or_false, or_self] at hmem
    exact absurd hmem hbusy
  exact ⟨ps, ent, hqueue,
    (freed_in_the_end hne hready hreach hstep hfair).1 0 ent (List.mem_singleton_self ent)⟩

/-! ### Where the entries are -/

/-- The entries that were given out are linked, or `entry_del` was called for them. -/
def Given (p : Pool) : Prop := live p.g ++ p.removed ~ List.range p.g.fresh

lemma Given.keeps (h : Given p) {g : GlobalData} (hk : Keeps p.g g) : Given { p with g := g } := by
  obtain ⟨n, hn⟩ := Nat.exists_eq_add_of_le hk.fresh
  have hgrown := hk.grown
  rw [hn, Nat.add_sub_cancel_left] at hgrown
  have hrange : List.range p.g.fresh ++ List.range' p.g.fresh n = List.range (p.g.fresh + n) := by
    have happend := List.range'_append_1 (s := 0) (m := p.g.fresh) (n := n)
    rwa [Nat.zero_add, ← List.range_eq_range', ← List.range_eq_range'] at happend
  unfold Given at h ⊢
  dsimp only
  rw [hn, ← hrange]
  calc live g ++ p.removed
    _ ~ live p.g ++ List.range' p.g.fresh n ++ p.removed := hgrown.append_right _
    _ ~ p.removed ++ (live p.g ++ List.range' p.g.fresh n) := List.perm_append_comm
    _ = p.removed ++ live p.g ++ List.range' p.g.fresh n := (List.append_assoc ..).symm
    _ ~ List.range p.g.fresh ++ List.range' p.g.fresh n :=
      (List.perm_append_comm.trans h).append_right _

lemma Given.deletes (h : Given p) {db : HMap Addr} {node : HNode Addr}
    (hp : nodes p.g.db ~ node :: nodes db) {clock : Timespec}
    (hd : Deletes p db clock node.ref p') : Given p' := by
  have hmoved : (nodes db).map HNode.ref ++ (p.removed ++ [node.ref]) ~ List.range p.g.fresh := by
    calc (nodes db).map HNode.ref ++ (p.removed ++ [node.ref])
      _ = (nodes db).map HNode.ref ++ p.removed ++ [node.ref] := (List.append_assoc ..).symm
      _ ~ node.ref :: (nodes db).map HNode.ref ++ p.removed := List.perm_append_singleton _ _
      _ ~ live p.g ++ p.removed := (hp.map HNode.ref).symm.append_right _
      _ ~ List.range p.g.fresh := h
  cases hd with
  | queued hd hq hs =>
    obtain ⟨hdb, hfresh, -⟩ := entryDel_cases hd
    unfold Given live
    dsimp only
    rw [hdb, hfresh]
    exact hmoved
  | sync hd hq =>
    obtain ⟨hdb, hfresh, -⟩ := entryDel_cases hd
    unfold Given live
    dsimp only
    rw [hdb, hfresh]
    exact hmoved

lemma testQueue_given {g g' : GlobalData} {w : Worker Addr} (h : testQueue g = (g', w)) :
    live g' = live g ∧ g'.fresh = g.fresh := by
  unfold testQueue at h
  split at h
  all_goals
    obtain ⟨rfl, -⟩ := Prod.mk.inj h
    exact ⟨rfl, rfl⟩

lemma entryDelSync_given {g g' : GlobalData} {ent : Addr} (h : entryDelSync g ent = .ok g') :
    live g' = live g ∧ g'.fresh = g.fresh := by
  obtain ⟨e, -, h⟩ := bind_eq_ok.mp h
  split_ifs at h
  · obtain ⟨z, -, h⟩ := bind_eq_ok.mp h
    obtain rfl := Except.ok.inj h
    exact ⟨rfl, rfl⟩
  · obtain rfl := Except.ok.inj h
    exact ⟨rfl, rfl⟩

/-- **Every step** leaves what was given out in the database or removes it. -/
lemma Given.step (h : Given p) (hsound : Sound p) (hs : ThreadPool.Step strtod p p') :
    Given p' := by
  cases hs with
  | command hc hb hr => exact h.keeps (doRequest_frames hsound.inv.table hc _ _ hr)
  | @missed key db hm =>
    obtain ⟨db', r, he, w, hr⟩ := hmDelete_spec hsound.inv.table (lookupKey key) (entryEq p.g.ents)
    obtain ⟨rfl, rfl⟩ := Prod.mk.inj (Except.ok.inj (he.symm.trans hm))
    exact h.keeps (keeps_rehashed hr.1)
  | del hm hd =>
    obtain ⟨e, -, -, hp⟩ := found_at hsound.inv hm
    exact h.deletes hp hd
  | @expire _ clock item e db node hx hdue he hm hsame hd =>
    obtain ⟨db', r, he', w, hr⟩ := hmDelete_spec hsound.inv.table ⟨e.hcode, item.ref⟩ hnodeSame
    obtain ⟨rfl, rfl⟩ := Prod.mk.inj (Except.ok.inj (he'.symm.trans hm))
    rw [← hsame] at hd
    exact h.deletes hr.1 hd
  | test hw ht =>
    obtain ⟨hlive, hfresh⟩ := testQueue_given ht
    unfold Given
    rwa [hlive, hfresh]
  | wake hw => exact h
  | finish hw hd =>
    obtain ⟨hlive, hfresh⟩ := entryDelSync_given hd
    unfold Given
    rwa [hlive, hfresh]

end ByoRedis.Drain
