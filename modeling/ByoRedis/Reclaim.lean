import ByoRedis.CommandFrame
import ByoRedis.RangeCommands
import ByoRedis.StoreRuns
import ByoRedis.ThreadPool

/-!
Entries are freed once, in any interleaving of the main thread and the workers.

The entries removed from the database are the jobs of the thread pool: the queue is that of a pool
of workers, and an entry that is queued or being freed is out of reach of every command.
-/

namespace ByoRedis.Reclaim

open ByoRedis.Basic ByoRedis.HashTable ByoRedis.HashSpec ByoRedis.Heap ByoRedis.HeapSpec
open ByoRedis.Avl ByoRedis.AvlTree ByoRedis.SortedSet ByoRedis.SortedSetSpec ByoRedis.ByteBuffer
open ByoRedis.ByteBufferSpec ByoRedis.Database ByoRedis.DatabaseSpec ByoRedis.Commands
open ByoRedis.CommandFrame ByoRedis.Dispatch ByoRedis.ExpireSpec ByoRedis.ThreadPool
open ByoRedis.StoreRuns
open ByoRedis.KeySpace ByoRedis.Lib.Runs ByoRedis.Lib.Trees ByoRedis.Lib.WorkQueue
open ByoRedis.RangeCommands (allZero)
open scoped List

/-! ### Freeing the members of a set -/

/-- `tree_dispose` with the nodes it frees, the first one first. -/
def treeDisposeLog : ℕ → ZSet → Option Addr → Eff (ZSet × List Addr)
  | 0, _, _ => throw .spin
  | fuel + 1, zset, node =>
    match node with
    | none => pure (zset, [])
    | some a => do
      let (zset, l) ← treeDisposeLog fuel zset (zset.tree a).left
      let (zset, r) ← treeDisposeLog fuel zset (zset.tree a).right
      let _ ← zset.deref a
      pure (znodeFree zset a, l ++ r ++ [a])

/-- `zset_clear` with the nodes it frees. -/
def zsetClearLog (zset : ZSet) : Eff (ZSet × List Addr) := do
  let zset := { zset with hmap := hmClear zset.hmap }
  let (zset, freed) ← treeDisposeLog zset.rounds zset zset.root
  pure ({ zset with root := none }, freed)

lemma treeDisposeLog_of {fuel : ℕ} {z z' : ZSet} {node : Option Addr}
    (h : treeDispose fuel z node = .ok z') :
    ∃ freed, treeDisposeLog fuel z node = .ok (z', freed) := by
  induction fuel generalizing z z' node with
  | zero => simp [treeDispose] at h
  | succ fuel ih =>
    cases node with
    | none =>
      obtain rfl := Except.ok.inj h
      exact ⟨[], rfl⟩
    | some a =>
      obtain ⟨z₁, h₁, h⟩ := bind_eq_ok.mp h
      obtain ⟨z₂, h₂, h⟩ := bind_eq_ok.mp h
      obtain ⟨d, hd, h⟩ := bind_eq_ok.mp h
      obtain rfl := Except.ok.inj h
      obtain ⟨l, hl⟩ := ih h₁
      obtain ⟨r, hr⟩ := ih h₂
      refine ⟨l ++ r ++ [a], ?_⟩
      simp only [treeDisposeLog, hl, hr, hd, ok_bind, pure_eq_ok]

lemma treeDisposeLog_perm {t : BinaryTree Addr} {fuel : ℕ} {z z' : ZSet} {p root : Option Addr}
    {freed : List Addr} (hR : Repr z.tree p t) (hroot : root = top t)
    (h : treeDisposeLog fuel z root = .ok (z', freed)) :
    freed ~ inorder t ∧ z'.tree = z.tree := by
  subst hroot
  induction t generalizing fuel z z' p freed with
  | nil =>
    cases fuel with
    | zero => simp [treeDisposeLog] at h
    | succ fuel =>
      obtain ⟨rfl, rfl⟩ := Prod.mk.inj (Except.ok.inj h)
      exact ⟨.nil, rfl⟩
  | node b l r ihl ihr =>
    obtain ⟨hb, hRl, hRr⟩ := hR
    cases fuel with
    | zero => simp [treeDisposeLog] at h
    | succ fuel =>
      simp only [treeDisposeLog, top_node, hb] at h
      obtain ⟨⟨z₁, f₁⟩, h₁, h⟩ := bind_eq_ok.mp h
      obtain ⟨hp₁, ht₁⟩ := ihl hRl h₁
      dsimp only at h
      obtain ⟨⟨z₂, f₂⟩, h₂, h⟩ := bind_eq_ok.mp h
      rw [ht₁, hb] at h₂
      obtain ⟨hp₂, ht₂⟩ := ihr (by rwa [ht₁]) h₂
      dsimp only at h
      obtain ⟨d, -, h⟩ := bind_eq_ok.mp h
      obtain ⟨rfl, rfl⟩ := Prod.mk.inj (Except.ok.inj h)
      refine ⟨?_, ht₂.trans ht₁⟩
      calc f₁ ++ f₂ ++ [b]
        _ = f₁ ++ (f₂ ++ [b]) := List.append_assoc ..
        _ ~ inorder l ++ ([b] ++ inorder r) :=
          hp₁.append ((hp₂.append_right _).trans List.perm_append_comm)
        _ = inorder (.node b l r) := by simp

/-- What `zset_clear` does to a set: every node is freed, and it is freed once. -/
def ClearsOnce (z : ZSet) : Prop :=
  ∃ z' freed, zsetClear z = .ok z' ∧ zsetClearLog z = .ok (z', freed) ∧ freed.Nodup ∧
    (∀ a, a ∈ freed ↔ z.node a ≠ none) ∧ ∀ a, z'.node a = none

lemma clearsOnce {z : ZSet} {t : BinaryTree Addr} (w : Wf z t) : ClearsOnce z := by
  obtain ⟨z', he, -, hnone⟩ := zsetClear_spec w
  have hclear := he
  obtain ⟨z₁, hd, h⟩ := bind_eq_ok.mp he
  obtain rfl := Except.ok.inj h
  obtain ⟨freed, hlog⟩ := treeDisposeLog_of hd
  obtain ⟨hp, -⟩ := treeDisposeLog_perm (z := { z with hmap := hmClear z.hmap }) w.repr w.root hlog
  refine ⟨_, freed, hclear, ?_, hp.nodup_iff.mpr w.nodup, fun a => ?_, hnone⟩
  · unfold zsetClearLog
    dsimp only
    rw [hlog]
    rfl
  · rw [hp.mem_iff]
    constructor
    · intro ha
      obtain ⟨d, hd⟩ := w.allocated a ha
      simp [hd]
    · intro ha
      obtain ⟨d, hd⟩ := Option.ne_none_iff_exists'.mp ha
      exact (w.live a d hd).1

/-! ### The pool of workers -/

/-- What the queue and the workers have to do with one another. -/
def poolState (p : Pool) : State Addr := ⟨p.g.queue, p.workers, p.removed, p.destroyed⟩

/-- An entry that waits to be freed, or is being freed. -/
def Pending (p : Pool) (ent : Addr) : Prop := ent ∈ p.g.queue ∨ .running ent ∈ p.workers

structure Sound (p : Pool) : Prop where
  inv : DatabaseSpec.Inv p.g
  jobs : Lib.WorkQueue.Inv (poolState p)
  once : p.removed.Nodup
  unlinked : ∀ a ∈ p.removed, a < p.g.fresh ∧ a ∉ live p.g
  pending : ∀ a, Pending p a → ∃ e c, p.g.ents a = some e ∧ Is e c
  gone : ∀ a ∈ p.destroyed, p.g.ents a = none

variable {p p' : Pool}

lemma Sound.removed_iff (h : Sound p) {a : Addr} :
    a ∈ p.removed ↔ Pending p a ∨ a ∈ p.destroyed := by
  have hmem := h.jobs.split.mem_iff (a := a)
  simp only [poolState, List.mem_append, mem_running] at hmem
  exact hmem

/-- A queued entry, one that is being freed and one that was freed are three different entries. -/
lemma Sound.disjoint (h : Sound p) : (p.g.queue ++ running p.workers ++ p.destroyed).Nodup :=
  h.jobs.split.nodup_iff.mp h.once

lemma sound_start {ws : List (Worker Addr)} (hne : ws ≠ []) (hready : ∀ w ∈ ws, w = .ready) :
    Sound { g := {}, workers := ws } := by
  refine ⟨good_empty.toInv, inv_start hne hready, List.nodup_nil, by simp, fun a ha => ?_,
    by simp⟩
  rcases ha with ha | ha
  · simp at ha
  · have := hready _ ha
    simp at this

/-! ### Steps of the workers -/

lemma inv_free {g : GlobalData} (hg : DatabaseSpec.Inv g) {a : Addr} (ha : a ∉ live g) :
    DatabaseSpec.Inv { g with ents := Function.update g.ents a none } := by
  have hother : ∀ {b}, b ∈ live g → Function.update g.ents a none b = g.ents b := by
    intro b hb
    refine Function.update_of_ne ?_ ..
    rintro rfl
    exact ha hb
  have hsub : ∀ {b f}, Function.update g.ents a none b = some f → g.ents b = some f := by
    intro b f hf
    by_cases hb : b = a
    · rw [hb, Function.update_self] at hf
      simp at hf
    · rwa [Function.update_of_ne hb] at hf
  refine ⟨hg.table, hg.once, fun n hn => ?_, fun b hb b' hb' e e' he he' => ?_, fun b e he => ?_,
    hg.timed⟩
  · obtain ⟨e, c, he, h⟩ := hg.linked n hn
    exact ⟨e, c, (hother (List.mem_map_of_mem hn)).trans he, h⟩
  · exact hg.keys b hb b' hb' e e' (hsub he) (hsub he')
  · exact hg.fresh b e (hsub he)

lemma Sound.pending_removed (h : Sound p) {a : Addr} (ha : Pending p a) : a ∈ p.removed :=
  h.removed_iff.mpr (.inl ha)

lemma Sound.test (h : Sound p) {i : ℕ} (hw : p.workers[i]? = some .ready) {g : GlobalData}
    {w : Worker Addr} (ht : testQueue p.g = (g, w)) :
    Sound { p with g := g, workers := p.workers.set i w } := by
  unfold testQueue at ht
  cases hq : p.g.queue with
  | nil =>
    rw [hq] at ht
    obtain ⟨rfl, rfl⟩ := Prod.mk.inj ht
    refine ⟨h.inv, Step.inv (.wait hw hq) h.jobs, h.once, h.unlinked, fun a ha => ?_, h.gone⟩
    refine h.pending a (ha.imp_right fun hr => ?_)
    exact (List.mem_or_eq_of_mem_set hr).resolve_right (by simp)
  | cons ent rest =>
    rw [hq] at ht
    obtain ⟨rfl, rfl⟩ := Prod.mk.inj ht
    refine ⟨⟨h.inv.table, h.inv.once, h.inv.linked, h.inv.keys, h.inv.fresh, h.inv.timed⟩,
      Step.inv (.take hw hq) h.jobs, h.once, h.unlinked, fun a ha => h.pending a ?_, h.gone⟩
    unfold Pending
    rw [hq]
    rcases ha with ha | ha
    · exact .inl (List.mem_cons_of_mem _ ha)
    · rcases List.mem_or_eq_of_mem_set ha with hr | hr
      · exact .inr hr
      · rw [Worker.running.inj hr]
        exact .inl List.mem_cons_self

lemma Sound.wake (h : Sound p) {i : ℕ} (hw : p.workers[i]? = some .waiting) :
    Sound { p with workers := p.workers.set i .ready } := by
  refine ⟨h.inv, Step.inv (.wake hw) h.jobs, h.once, h.unlinked, fun a ha => ?_, h.gone⟩
  refine h.pending a (ha.imp_right fun hr => ?_)
  exact (List.mem_or_eq_of_mem_set hr).resolve_right (by simp)

lemma Sound.finish (h : Sound p) {i : ℕ} {ent : Addr} (hw : p.workers[i]? = some (.running ent)) :
    ∃ g, entryDelSync p.g ent = .ok g ∧
      Sound { p with
        g := g
        workers := p.workers.set i .ready
        destroyed := p.destroyed ++ [ent] } := by
  have hpend : Pending p ent := .inr (List.mem_of_getElem? hw)
  obtain ⟨e, c, he, hc⟩ := h.pending ent hpend
  have hdead := (h.unlinked ent (h.pending_removed hpend)).2
  have hjobs := Step.inv (s := poolState p) (.finish hw) h.jobs
  -- the entry is in no other place
  have hnd := hjobs.split.nodup_iff.mp h.once
  have hnot : ent ∉ p.g.queue ++ running (p.workers.set i .ready) := by
    dsimp only [poolState] at hnd
    rw [← List.append_assoc] at hnd
    intro hm
    exact (List.nodup_append.mp hnd).2.2 ent (List.mem_append_left _ hm) ent (by simp) rfl
  refine ⟨_, entryDelSync_spec he hc, inv_free h.inv hdead, hjobs, h.once, h.unlinked,
    fun a ha => ?_, fun a ha => ?_⟩
  · have hne : a ≠ ent := by
      rintro rfl
      rw [List.mem_append, mem_running] at hnot
      exact hnot ha
    have hold : Pending p a := by
      refine ha.imp_right fun hr => ?_
      exact (List.mem_or_eq_of_mem_set hr).resolve_right (by simp)
    dsimp only
    rw [Function.update_of_ne hne]
    exact h.pending a hold
  · dsimp only
    by_cases hae : a = ent
    · rw [hae, Function.update_self]
    · rw [Function.update_of_ne hae]
      rcases List.mem_append.mp ha with ha | ha
      · exact h.gone a ha
      · exact absurd (List.mem_singleton.mp ha) hae

/-! ### Steps of the main thread -/

lemma Sound.keeps (h : Sound p) {g : GlobalData} (hg : DatabaseSpec.Inv g) (hk : Keeps p.g g) :
    Sound { p with g := g } := by
  have hold : ∀ {a}, a ∈ p.removed → a ∉ live g ∧ g.ents a = p.g.ents a := fun ha =>
    hk.dead _ (h.unlinked _ ha).1 (h.unlinked _ ha).2
  have hpend : ∀ {a}, Pending { p with g := g } a → Pending p a := by
    intro a ha
    unfold Pending at ha ⊢
    dsimp only at ha
    rwa [hk.queue] at ha
  refine ⟨hg, ?_, h.once, fun a ha => ?_, fun a ha => ?_, fun a ha => ?_⟩
  · have hj : poolState { p with g := g } = poolState p := by
      unfold poolState
      rw [hk.queue]
    rw [hj]
    exact h.jobs
  · exact ⟨(h.unlinked a ha).1.trans_le hk.fresh, (hold ha).1⟩
  · obtain ⟨e, c, he, hc⟩ := h.pending a (hpend ha)
    exact ⟨e, c, (hold (h.pending_removed (hpend ha))).2.trans he, hc⟩
  · exact (hold (h.removed_iff.mpr (.inr ha))).2.trans (h.gone a ha)

lemma entryDel_cases {g g' : GlobalData} {clock : Timespec} {ent : Addr}
    (h : entryDel g clock ent = .ok g') : g'.db = g.db ∧ g'.fresh = g.fresh ∧
      (g'.queue = g.queue ++ [ent] ∧ g'.ents = g.ents ∨
        g'.queue = g.queue ∧ g'.ents = Function.update g.ents ent none) := by
  unfold entryDel at h
  obtain ⟨g₁, hset, h⟩ := bind_eq_ok.mp h
  obtain ⟨heap, rfl⟩ := entrySetTtl_heap hset
  obtain ⟨e, -, h⟩ := bind_eq_ok.mp h
  dsimp only at h
  generalize (if e.type = .zset then hmSize e.zset.hmap else 0) = setSize at h
  split_ifs at h with hlarge
  · obtain rfl := Except.ok.inj h
    exact ⟨rfl, rfl, .inl ⟨rfl, rfl⟩⟩
  · unfold entryDelSync at h
    obtain ⟨f, -, h⟩ := bind_eq_ok.mp h
    split_ifs at h
    · obtain ⟨z, -, h⟩ := bind_eq_ok.mp h
      obtain rfl := Except.ok.inj h
      exact ⟨rfl, rfl, .inr ⟨rfl, rfl⟩⟩
    · obtain rfl := Except.ok.inj h
      exact ⟨rfl, rfl, .inr ⟨rfl, rfl⟩⟩

lemma Sound.unlinks (h : Sound p) {key : Bytes} {e : Entry} {n : HNode Addr}
    (hat : At p.g key n.ref e) {db : HMap Addr} (hp : (nodes p.g.db).Perm (n :: nodes db)) :
    (p.removed ++ [n.ref]).Nodup ∧ ∀ g, g.db = db → g.fresh = p.g.fresh →
      ∀ a ∈ p.removed ++ [n.ref], a < g.fresh ∧ a ∉ live g := by
  have hlive : (live p.g).Perm (n.ref :: (nodes db).map HNode.ref) := hp.map _
  constructor
  · rw [List.nodup_append]
    refine ⟨h.once, List.nodup_singleton _, fun a ha b hb => ?_⟩
    rw [List.mem_singleton.mp hb]
    rintro rfl
    exact (h.unlinked _ ha).2 hat.live
  · intro g hdb hfresh a ha
    unfold live
    rw [hdb, hfresh]
    rcases List.mem_append.mp ha with ha | ha
    · obtain ⟨hlt, hnot⟩ := h.unlinked a ha
      exact ⟨hlt, fun hm => hnot (hlive.mem_iff.mpr (List.mem_cons_of_mem _ hm))⟩
    · rw [List.mem_singleton.mp ha]
      refine ⟨h.inv.fresh _ e hat.ent, ?_⟩
      exact (List.nodup_cons.mp (hlive.nodup_iff.mp h.inv.once)).1

lemma Sound.deletes (h : Sound p) {key : Bytes} {e : Entry} {n : HNode Addr}
    (hat : At p.g key n.ref e) {db : HMap Addr} (w : WF db)
    (hp : (nodes p.g.db).Perm (n :: nodes db)) {clock : Timespec}
    (hd : Deletes p db clock n.ref p') : Sound p' := by
  obtain ⟨σ, hg⟩ := h.inv.exists_good
  obtain ⟨g', hdel, hg'⟩ := entryDel_spec hg hat w hp clock
  obtain ⟨honce, hunlinked⟩ := h.unlinks hat hp
  obtain ⟨hdb, hfresh, hcases⟩ := entryDel_cases hdel
  cases hd with
  | @queued g ws hd hq hs =>
    obtain rfl : g' = g := Except.ok.inj (hdel.symm.trans hd)
    obtain ⟨-, hents⟩ := hcases.resolve_right fun hx => by
      have := hq.symm.trans hx.1
      simp at this
    refine ⟨hg'.toInv, ?_, honce, hunlinked g' hdb hfresh, fun a ha => ?_, fun a ha => ?_⟩
    · have hstep := Step.inv (.push n.ref hs) h.jobs
      unfold poolState at hstep ⊢
      dsimp only at hstep ⊢
      rwa [← hq] at hstep
    · have hcase : Pending p a ∨ a = n.ref := by
        rcases ha with ha | ha
        · dsimp only at ha
          rw [hq] at ha
          exact (List.mem_append.mp ha).imp .inl List.mem_singleton.mp
        · dsimp only at ha
          rw [← mem_running, hs.1.running, mem_running] at ha
          exact .inl (.inr ha)
      dsimp only
      rw [hents]
      rcases hcase with ha | rfl
      · exact h.pending a ha
      · obtain ⟨-, c, hc⟩ := h.inv.exists_is hat
        exact ⟨e, c, hat.ent, hc⟩
    · dsimp only
      rw [hents]
      exact h.gone a ha
  | @sync g hd hq =>
    obtain rfl : g' = g := Except.ok.inj (hdel.symm.trans hd)
    obtain ⟨-, hents⟩ := hcases.resolve_left fun hx => by
      have := hq.symm.trans hx.1
      simp at this
    refine ⟨hg'.toInv, ?_, honce, hunlinked g' hdb hfresh, fun a ha => ?_, fun a ha => ?_⟩
    · have hstep := Step.inv (.direct n.ref) h.jobs
      unfold poolState at hstep ⊢
      dsimp only at hstep ⊢
      rwa [← hq] at hstep
    · have hold : Pending p a := by
        unfold Pending at ha
        dsimp only at ha
        rwa [hq] at ha
      have hne : a ≠ n.ref := by
        rintro rfl
        exact (h.unlinked _ (h.pending_removed hold)).2 hat.live
      dsimp only
      rw [hents]
      dsimp only
      rw [Function.update_of_ne hne]
      exact h.pending a hold
    · dsimp only
      rw [hents]
      dsimp only
      by_cases hae : a = n.ref
      · rw [hae, Function.update_self]
      · rw [Function.update_of_ne hae]
        exact h.gone a ((List.mem_append.mp ha).resolve_right fun hx =>
          hae (List.mem_singleton.mp hx))

variable {strtod : Bytes → UInt64 × ℕ}

lemma found_at {g : GlobalData} (hg : DatabaseSpec.Inv g) {key : Bytes} {db : HMap Addr}
    {node : HNode Addr}
    (hm : hmDelete g.db (lookupKey key) (entryEq g.ents) = .ok (db, some node)) :
    ∃ e, At g key node.ref e ∧ WF db ∧ (nodes g.db).Perm (node :: nodes db) := by
  obtain ⟨db', r, he, w, hr⟩ := hmDelete_spec hg.table (lookupKey key) (entryEq g.ents)
  obtain ⟨rfl, rfl⟩ := Prod.mk.inj (Except.ok.inj (he.symm.trans hm))
  obtain ⟨e, hat⟩ := at_of_matches (hr.1.mem_iff.mpr List.mem_cons_self) hr.2
  exact ⟨e, hat, w, hr.1⟩

/-- **Every step**, of the main thread or a worker. -/
theorem Sound.step (h : Sound p) (hs : ThreadPool.Step strtod p p') : Sound p' := by
  obtain ⟨σ, hg⟩ := h.inv.exists_good
  cases hs with
  | @command clock cmd b b' u hs g hc hb hr =>
    obtain ⟨g', v, σ', hg', -, -, hact⟩ := doRequest_spec hg strtod clock cmd
    obtain ⟨b'', he, -⟩ := hact b u hs hb
    obtain ⟨rfl, -⟩ := Prod.mk.inj (Except.ok.inj (he.symm.trans hr))
    exact h.keeps hg'.toInv (doRequest_frames h.inv.table hc _ _ hr)
  | @missed key db hm =>
    obtain ⟨db', r, he, w, hr⟩ := hmDelete_spec h.inv.table (lookupKey key) (entryEq p.g.ents)
    obtain ⟨rfl, rfl⟩ := Prod.mk.inj (Except.ok.inj (he.symm.trans hm))
    exact h.keeps (hg.rehashed w hr.1).toInv (keeps_rehashed hr.1)
  | @del _ key clock db node hm hd =>
    obtain ⟨e, hat, w, hp⟩ := found_at h.inv hm
    exact h.deletes hat w hp hd
  | @expire _ clock item e db node hx hdue he hm hsame hd =>
    obtain ⟨f, hat, -, -⟩ := root_earliest hg hx
    obtain ⟨db', n, hm', hn, w, hp⟩ := unlink_spec hg hat
    obtain rfl : f = e := Except.ok.inj (hat.deref.symm.trans he)
    obtain ⟨rfl, hnode⟩ := Prod.mk.inj (Except.ok.inj (hm'.symm.trans hm))
    obtain rfl := Option.some.inj hnode
    rw [← hn] at hat hd
    exact h.deletes hat w hp hd
  | test hw ht => exact h.test hw ht
  | wake hw => exact h.wake hw
  | @finish i ent g hw hd =>
    obtain ⟨g', hd', hsound⟩ := h.finish hw
    obtain rfl := Except.ok.inj (hd'.symm.trans hd)
    exact hsound

theorem sound_of_reachable {ws : List (Worker Addr)} (hne : ws ≠ []) (hready : ∀ w ∈ ws, w = .ready)
    (h : Reachable strtod ws p) : Sound p := by
  induction h with
  | start => exact sound_start hne hready
  | step _ hs ih => exact ih.step hs

/-! ### The steps make up what the server does -/

lemma exists_deletes {db : HMap Addr} {clock : Timespec} {ent : Addr} {g : GlobalData}
    (h : entryDel { p.g with db := db } clock ent = .ok g) :
    ∃ p', Deletes p db clock ent p' ∧ p'.g = g := by
  obtain ⟨-, -, ⟨hq, -⟩ | ⟨hq, -⟩⟩ := entryDel_cases h
  · exact ⟨_, .queued h hq (signal_all p.workers), rfl⟩
  · exact ⟨_, .sync h hq, rfl⟩

variable {ws : List (Worker Addr)}

lemma doDel_reaches (hp : Reachable strtod ws p) {clock : Timespec} {cmd : List Bytes}
    {b b' : Buffer} {g : GlobalData} (h : doDel p.g clock cmd b = .ok (g, b')) :
    ∃ p', Reachable strtod ws p' ∧ p'.g = g := by
  unfold doDel at h
  obtain ⟨⟨db, node⟩, hm, h⟩ := bind_eq_ok.mp h
  cases node with
  | none =>
    obtain ⟨rfl, -⟩ := Prod.mk.inj (Except.ok.inj h)
    exact ⟨_, hp.step (.missed hm), rfl⟩
  | some node =>
    obtain ⟨g', hd, h⟩ := bind_eq_ok.mp h
    obtain ⟨rfl, -⟩ := Prod.mk.inj (Except.ok.inj h)
    obtain ⟨p', hdel, hg⟩ := exists_deletes hd
    exact ⟨p', hp.step (.del hm hdel), hg⟩

lemma ttlLoop_reaches (hp : Reachable strtod ws p) {clock : Timespec} {fuel nworks : ℕ}
    {g : GlobalData} (h : ttlLoop clock fuel p.g nworks = .ok g) :
    ∃ p', Reachable strtod ws p' ∧ p'.g = g := by
  induction fuel generalizing p nworks with
  | zero => simp [ttlLoop] at h
  | succ fuel ih =>
    unfold ttlLoop at h
    cases hx : p.g.heap.a[0]? with
    | none =>
      rw [hx] at h
      exact ⟨p, hp, Except.ok.inj h⟩
    | some item =>
      rw [hx] at h
      dsimp only at h
      by_cases hdue : item.val < getMonotonicMsec clock
      · rw [if_pos hdue] at h
        obtain ⟨e, he, h⟩ := bind_eq_ok.mp h
        obtain ⟨⟨db, node⟩, hm, h⟩ := bind_eq_ok.mp h
        dsimp only at h
        by_cases hsame : node.map HNode.ref = some item.ref
        · rw [if_pos hsame] at h
          obtain ⟨n, rfl, hn⟩ := Option.map_eq_some_iff.mp hsame
          obtain ⟨g₁, hd, h⟩ := bind_eq_ok.mp h
          obtain ⟨p₁, hdel, rfl⟩ := exists_deletes hd
          have hp₁ := hp.step (.expire hx hdue he hm hn hdel)
          split_ifs at h
          · exact ⟨p₁, hp₁, Except.ok.inj h⟩
          · exact ih hp₁ h
        · rw [if_neg hsame] at h
          simp at h
      · rw [if_neg hdue] at h
        exact ⟨p, hp, Except.ok.inj h⟩

lemma request_of_serve {g g' : GlobalData} {clock : Timespec} {cmd : List Bytes} {out : Bytes}
    (h : StoreRuns.serve strtod g (.command clock cmd) = .ok (g', out)) :
    ∃ b', doRequestAndMakeResponse strtod g clock cmd (Conn.responseBegin {}) = .ok (g', b') := by
  obtain ⟨⟨g₁, outgoing⟩, hr, h⟩ := bind_eq_ok.mp h
  obtain ⟨rfl, -⟩ := Prod.mk.inj (Except.ok.inj h)
  obtain ⟨⟨g₂, b₂⟩, hreq, h⟩ := bind_eq_ok.mp hr
  obtain ⟨b₃, -, h⟩ := bind_eq_ok.mp h
  obtain ⟨rfl, -⟩ := Prod.mk.inj (Except.ok.inj h)
  exact ⟨b₂, hreq⟩

lemma doRequest_del {cmd : List Bytes} (hc : IsDel cmd) (g : GlobalData) (clock : Timespec)
    (b : Buffer) : doRequestAndMakeResponse strtod g clock cmd b = doDel g clock cmd b := by
  obtain ⟨hlen, hname⟩ := hc
  unfold doRequestAndMakeResponse
  rw [hlen, hname]
  rfl

/-- **Whole commands and rounds of timers** are made of the steps of the main thread. -/
theorem serve_reaches (hp : Reachable strtod ws p) {op : StoreRuns.Op} {g : GlobalData}
    {out : Bytes} (h : StoreRuns.serve strtod p.g op = .ok (g, out)) :
    ∃ p', Reachable strtod ws p' ∧ p'.g = g := by
  cases op with
  | timers clock =>
    obtain ⟨g', ht, h⟩ := bind_eq_ok.mp h
    obtain ⟨rfl, -⟩ := Prod.mk.inj (Except.ok.inj h)
    exact ttlLoop_reaches hp ht
  | command clock cmd =>
    obtain ⟨b', hreq⟩ := request_of_serve h
    by_cases hc : IsDel cmd
    · rw [doRequest_del hc] at hreq
      exact doDel_reaches hp hreq
    · exact ⟨_, hp.step (.command hc (ResponseSpec.shows_responseBegin shows_empty) hreq), rfl⟩

/-! ### A set that is too large to be freed at once -/

lemma zeroTime_in_range : 0 * 10 ^ 9 + 0 < 2 ^ 63 := by decide

def zeroTime : Timespec := ⟨0, 0, Timespec.nsec_zero, zeroTime_in_range⟩

/-- Eleven members are added to a set. -/
def elevenMembers : List Op := (List.range 11).map fun i =>
  .command zeroTime [str "zadd", str "z", str "0", [UInt8.ofNat i]]

/-- The states of the server and its pool while commands are executed that delete nothing. -/
lemma reachable_commands {ops : List Op} (hp : ThreadPool.Reachable strtod ws p)
    (hops : ∀ op ∈ ops, ∃ clock cmd, op = .command clock cmd ∧ ¬ IsDel cmd) {g : GlobalData}
    {outs : List Bytes} (h : run (serve strtod) p.g ops = .ok (g, outs)) :
    ThreadPool.Reachable strtod ws { p with g := g } := by
  induction ops generalizing p outs with
  | nil =>
    obtain ⟨rfl, -⟩ := Prod.mk.inj (Except.ok.inj h)
    exact hp
  | cons op ops ih =>
    obtain ⟨g₁, out, outs₁, hserve, hrest, -⟩ := run_cons_eq_ok h
    obtain ⟨clock, cmd, rfl, hc⟩ := hops op List.mem_cons_self
    obtain ⟨b', hreq⟩ := request_of_serve hserve
    have hstep := hp.step (.command hc (ResponseSpec.shows_responseBegin shows_empty) hreq)
    exact @ih { p with g := g₁ } hstep (fun op hop => hops op (List.mem_cons_of_mem _ hop)) _ hrest

/-- All of the workers wait but the first. -/
def oneWorker (g : GlobalData) (w : Worker Addr) (removed destroyed : List Addr) : Pool :=
  ⟨g, [w, .waiting, .waiting, .waiting], removed, destroyed⟩

/-- The set is deleted while all of the workers wait: one of them is woken. -/
lemma queued_reachable : ∃ g ent, g.queue = [ent] ∧
    ThreadPool.Reachable allZero (threadPoolInit 1) (oneWorker g .ready [ent] []) := by
  have hasleep : ThreadPool.Reachable allZero (threadPoolInit 1) (oneWorker {} .waiting [] []) :=
    (((ThreadPool.Reachable.start.step (.test (i := 0) rfl rfl)).step (.test (i := 1) rfl rfl)).step
      (.test (i := 2) rfl rfl)).step (.test (i := 3) rfl rfl)
  obtain ⟨g, outs, σ, hrun, hg⟩ := run_good allZero elevenMembers
  have hreach := reachable_commands hasleep (by simp [elevenMembers, IsDel]) hrun
  obtain ⟨g', out, σ', hserve, -⟩ :=
    serve_good hg allZero (.command zeroTime [str "del", str "z"])
  have hqueue : g.queue = [] ∧ g'.queue = [0] := by
    have hall := run_append hrun (run_singleton hserve)
    have h₁ : (run (serve allZero) {} elevenMembers).map (fun x => x.1.queue) = .ok [] := by
      decide +kernel
    have h₂ : (run (serve allZero) {} (elevenMembers ++
      [.command zeroTime [str "del", str "z"]])).map (fun x => x.1.queue) = .ok [0] := by
      decide +kernel
    rw [hrun] at h₁
    rw [hall] at h₂
    exact ⟨Except.ok.inj h₁, Except.ok.inj h₂⟩
  obtain ⟨b', hreq⟩ := request_of_serve hserve
  rw [doRequest_del (by simp [IsDel, arg])] at hreq
  obtain ⟨⟨db, node⟩, hm, h⟩ := bind_eq_ok.mp hreq
  cases node with
  | none =>
    obtain ⟨rfl, -⟩ := Prod.mk.inj (Except.ok.inj h)
    simp [hqueue.1] at hqueue
  | some node =>
    obtain ⟨g₁, hd, h⟩ := bind_eq_ok.mp h
    obtain ⟨rfl, -⟩ := Prod.mk.inj (Except.ok.inj h)
    obtain ⟨-, -, ⟨hq, -⟩ | ⟨hq, -⟩⟩ := entryDel_cases hd
    · refine ⟨g₁, node.ref, by rw [hq, hqueue.1]; rfl, hreach.step (.del hm (.queued hd hq ?_))⟩
      exact ⟨.cons (.inr ⟨rfl, rfl⟩) (.cons (.inl rfl) (.cons (.inl rfl) (.cons (.inl rfl) .nil))),
        by simp [oneWorker]⟩
    · simp [hq, hqueue.1] at hqueue

/-! ### Freed once -/

/-- What holds of the entries that `entry_del` was called for. -/
structure FreedOnce (strtod : Bytes → UInt64 × ℕ) (p : Pool) : Prop where
  /-- They are the ones that are queued, being freed, or freed. -/
  split : p.removed ~ p.g.queue ++ running p.workers ++ p.destroyed
  /-- None is in two of these places, or twice in one. -/
  disjoint : (p.g.queue ++ running p.workers ++ p.destroyed).Nodup
  /-- The memory of those that were freed is given back. -/
  gone : ∀ a ∈ p.destroyed, p.g.ents a = none
  unlinked : ∀ a ∈ p.g.queue ++ running p.workers ++ p.destroyed,
    a ∉ live p.g ∧ a ∉ refs p.g.heap.a
  /-- A worker that frees an entry does not fail, so nothing is freed a second time. -/
  frees : ∀ a ∈ running p.workers, ∃ g, entryDelSync p.g a = .ok g
  /-- Neither does the main thread. -/
  serves : ∀ op, ∃ g out, StoreRuns.serve strtod p.g op = .ok (g, out)
  /-- The set of an entry that is or may be removed is cleared member by member. -/
  clears : ∀ a e, a ∈ live p.g ∨ Pending p a → p.g.ents a = some e → e.type = .zset →
    ClearsOnce e.zset
  /-- No wake-up is lost. -/
  awake : p.g.queue ≠ [] → ∃ w ∈ p.workers, w ≠ .waiting

lemma clears_of_is {e : Entry} {c : Content} (hc : Is e c) (ht : e.type = .zset) :
    ClearsOnce e.zset := by
  cases hc with
  | str h =>
    rw [ht] at h
    simp at h
  | zset _ w _ => exact clearsOnce w

/-- **Deferred deletion.** With any number of workers, in any interleaving of them with commands
and expirations, an entry that is removed is freed at most once, it is out of reach before, and a
job that is queued has a worker that is not waiting. -/
theorem freed_once {ws : List (Worker Addr)} (hne : ws ≠ []) (hready : ∀ w ∈ ws, w = .ready)
    (h : Reachable strtod ws p) : FreedOnce strtod p := by
  have hs := sound_of_reachable hne hready h
  refine ⟨hs.jobs.split, hs.disjoint, hs.gone, fun a ha => ?_, fun a ha => ?_, fun op => ?_,
    fun a e ha he ht => ?_, hs.jobs.awake⟩
  · have hout := (hs.unlinked a (hs.jobs.split.mem_iff.mpr ha)).2
    refine ⟨hout, fun hm => hout ?_⟩
    obtain ⟨x, hx, rfl⟩ := List.mem_map.mp hm
    exact hs.inv.timed.owned x hx
  · obtain ⟨i, hi⟩ := List.mem_iff_getElem?.mp (mem_running.mp ha)
    obtain ⟨g, hg, -⟩ := hs.finish hi
    exact ⟨g, hg⟩
  · obtain ⟨σ, hg⟩ := hs.inv.exists_good
    obtain ⟨g', out, σ', he, -⟩ := StoreRuns.serve_good hg strtod op
    exact ⟨g', out, he⟩
  · rcases ha with ha | ha
    · obtain ⟨f, hat⟩ := hs.inv.exists_at ha
      obtain rfl : f = e := Option.some.inj (hat.ent.symm.trans he)
      obtain ⟨-, c, hc⟩ := hs.inv.exists_is hat
      exact clears_of_is hc ht
    · obtain ⟨f, c, hf, hc⟩ := hs.pending a ha
      obtain rfl : f = e := Option.some.inj (hf.symm.trans he)
      exact clears_of_is hc ht

/-- The set is queued, and then a worker is about to free it. -/
theorem freed_once_queued : ∃ g ent, g.queue = [ent] ∧
    FreedOnce allZero (oneWorker g .ready [ent] []) ∧
    FreedOnce allZero (oneWorker { g with queue := [] } (.running ent) [ent] []) := by
  obtain ⟨g, ent, hqueue, hreach⟩ := queued_reachable
  have hready : ∀ w ∈ threadPoolInit 1, w = .ready := fun w hw => List.eq_of_mem_replicate hw
  have hne : threadPoolInit 1 ≠ [] := by simp [threadPoolInit]
  have htake : testQueue g = ({ g with queue := [] }, .running ent) := by
    rw [testQueue, hqueue]
  exact ⟨g, ent, hqueue, freed_once hne hready hreach,
    freed_once hne hready (hreach.step (.test (i := 0) rfl htake))⟩

end ByoRedis.Reclaim
