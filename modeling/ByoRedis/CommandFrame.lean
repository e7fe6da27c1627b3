import ByoRedis.DatabaseSpec

/-!
What the commands other than a deletion leave alone: the queue of the thread pool, and the entries
that are no longer linked in the database.
-/

namespace ByoRedis.CommandFrame

open ByoRedis.Basic ByoRedis.HashTable ByoRedis.HashSpec ByoRedis.Heap ByoRedis.SortedSet
open ByoRedis.ByteBuffer ByoRedis.Proto ByoRedis.Database ByoRedis.DatabaseSpec ByoRedis.Commands
open ByoRedis.Lib.Runs
open scoped List

/-- Nothing is queued, and an entry that was given out and is not linked is neither linked again
nor written to. The entries that are given out are linked, and the linked ones stay. -/
structure Keeps (g g' : GlobalData) : Prop where
  queue : g'.queue = g.queue
  fresh : g.fresh ≤ g'.fresh
  dead : ∀ a, a < g.fresh → a ∉ live g → a ∉ live g' ∧ g'.ents a = g.ents a
  grown : (live g').Perm (live g ++ List.range' g.fresh (g'.fresh - g.fresh))

lemma keeps_same {g g' : GlobalData} (hq : g'.queue = g.queue) (hf : g'.fresh = g.fresh)
    (hl : (live g').Perm (live g)) (he : ∀ a ∉ live g, g'.ents a = g.ents a) : Keeps g g' := by
  refine ⟨hq, hf.ge, fun a _ hno => ⟨fun h => hno (hl.mem_iff.mp h), he a hno⟩, ?_⟩
  rw [hf, Nat.sub_self, List.range'_zero, List.append_nil]
  exact hl

lemma Keeps.refl (g : GlobalData) : Keeps g g := keeps_same rfl rfl (.refl _) fun _ _ => rfl

lemma Keeps.trans {g g₁ g₂ : GlobalData} (h₁ : Keeps g g₁) (h₂ : Keeps g₁ g₂) : Keeps g g₂ := by
  refine ⟨h₂.queue.trans h₁.queue, h₁.fresh.trans h₂.fresh, fun a ha hno => ?_, ?_⟩
  · obtain ⟨hno₁, he₁⟩ := h₁.dead a ha hno
    obtain ⟨hno₂, he₂⟩ := h₂.dead a (ha.trans_le h₁.fresh) hno₁
    exact ⟨hno₂, he₂.trans he₁⟩
  · obtain ⟨m, hm⟩ := Nat.exists_eq_add_of_le h₁.fresh
    obtain ⟨n, hn⟩ := Nat.exists_eq_add_of_le h₂.fresh
    have hg₁ := h₁.grown
    have hg₂ := h₂.grown
    rw [hm, Nat.add_sub_cancel_left] at hg₁
    rw [hn, Nat.add_sub_cancel_left, hm] at hg₂
    rw [hn, hm, Nat.add_assoc, Nat.add_sub_cancel_left]
    calc live g₂
      _ ~ live g₁ ++ List.range' (g.fresh + m) n := hg₂
      _ ~ live g ++ List.range' g.fresh m ++ List.range' (g.fresh + m) n := hg₁.append_right _
      _ = live g ++ List.range' g.fresh (m + n) := by
        rw [List.append_assoc, List.range'_append_1]

/-! ### The parts of commands -/

lemma keeps_rehashed {g : GlobalData} {db : HMap Addr} (hp : (nodes db).Perm (nodes g.db)) :
    Keeps g { g with db := db } := by
  have hlive : (live { g with db := db }).Perm (live g) := hp.map _
  exact keeps_same rfl rfl hlive fun _ _ => rfl

lemma keeps_heap (g : GlobalData) (heap : Timers Addr) : Keeps g { g with heap := heap } :=
  keeps_same rfl rfl (.refl _) fun _ _ => rfl

lemma keeps_setEntry {g : GlobalData} {a : Addr} (ha : a ∈ live g) (e : Entry) :
    Keeps g (g.setEntry a e) := by
  refine keeps_same rfl rfl (.refl _) fun b hno => Function.update_of_ne ?_ ..
  rintro rfl
  exact hno ha

lemma findEntry_keeps {g g' : GlobalData} {key : Bytes} {r : Option Addr} (w : WF g.db)
    (h : findEntry g key = .ok (g', r)) :
    Keeps g g' ∧ WF g'.db ∧ ∀ a, r = some a → a ∈ live g' := by
  obtain ⟨db, found, he, w', hp, hr⟩ := hmLookup_spec w (lookupKey key) (entryEq g.ents)
  unfold findEntry at h
  rw [he, ok_bind] at h
  obtain ⟨rfl, rfl⟩ := Prod.mk.inj (Except.ok.inj h)
  refine ⟨keeps_rehashed hp, w', fun a ha => ?_⟩
  cases found with
  | none => simp at ha
  | some n =>
    rw [← Option.some.inj ha]
    exact List.mem_map_of_mem (hp.mem_iff.mpr hr.1)

lemma addEntry_keeps {g g' : GlobalData} {type : EntryType} {key val : Bytes} {a : Addr}
    (w : WF g.db) (h : addEntry g type key val = .ok (g', a)) : Keeps g g' ∧ a ∈ live g' := by
  obtain ⟨db, he, -, hp⟩ := hmInsert_spec w ⟨strHash key, g.fresh⟩
  unfold addEntry entryNew GlobalData.deref GlobalData.setEntry at h
  simp only [Function.update_self, pure_eq_ok, ok_bind, he, Except.ok.injEq, Prod.mk.injEq] at h
  obtain ⟨rfl, rfl⟩ := h
  refine ⟨⟨rfl, Nat.le_succ _, fun b hb hno => ⟨fun hm => ?_, ?_⟩, ?_⟩, ?_⟩
  · rcases List.mem_cons.mp ((hp.map HNode.ref).mem_iff.mp hm) with rfl | hm
    · exact lt_irrefl _ hb
    · exact hno hm
  · dsimp only
    rw [Function.update_of_ne hb.ne, Function.update_of_ne hb.ne]
  · rw [Nat.add_sub_cancel_left]
    exact (hp.map HNode.ref).trans (List.perm_append_singleton _ _).symm
  · exact (hp.map HNode.ref).mem_iff.mpr List.mem_cons_self

lemma entrySetTtl_heap {g g' : GlobalData} {clock : Timespec} {ent : Addr} {ttl : ℤ}
    (h : entrySetTtl g clock ent ttl = .ok g') : ∃ heap, g' = { g with heap := heap } := by
  unfold entrySetTtl at h
  split_ifs at h
  · obtain ⟨heap, -, h⟩ := bind_eq_ok.mp h
    exact ⟨_, (Except.ok.inj h).symm⟩
  · obtain ⟨heap, -, h⟩ := bind_eq_ok.mp h
    exact ⟨heap, (Except.ok.inj h).symm⟩
  · exact ⟨g.heap, (Except.ok.inj h).symm⟩

lemma entrySetTtl_keeps {g g' : GlobalData} {clock : Timespec} {ent : Addr} {ttl : ℤ}
    (h : entrySetTtl g clock ent ttl = .ok g') : Keeps g g' := by
  obtain ⟨heap, rfl⟩ := entrySetTtl_heap h
  exact keeps_heap g heap

lemma expectZset_keeps {g g' : GlobalData} {s : Bytes} {r : Option ZSetRef} (w : WF g.db)
    (h : expectZset g s = .ok (g', r)) :
    Keeps g g' ∧ ∀ a, r = some (.entry a) → a ∈ live g' := by
  unfold expectZset at h
  obtain ⟨⟨g₁, found⟩, hf, h⟩ := bind_eq_ok.mp h
  obtain ⟨hk, -, hl⟩ := findEntry_keeps w hf
  cases found with
  | none =>
    obtain ⟨rfl, rfl⟩ := Prod.mk.inj (Except.ok.inj h)
    exact ⟨hk, fun a ha => by simp at ha⟩
  | some ent =>
    obtain ⟨e, -, h⟩ := bind_eq_ok.mp h
    obtain ⟨rfl, rfl⟩ := Prod.mk.inj (Except.ok.inj h)
    refine ⟨hk, fun a ha => ?_⟩
    split_ifs at ha
    · obtain rfl := ZSetRef.entry.inj (Option.some.inj ha)
      exact hl ent rfl

lemma writeZset_keeps {g g' : GlobalData} {ref : ZSetRef} {zset : ZSet}
    (hl : ∀ a, ref = .entry a → a ∈ live g) (h : writeZset g ref zset = .ok g') : Keeps g g' := by
  cases ref with
  | empty =>
    obtain rfl := Except.ok.inj h
    exact Keeps.refl g
  | entry a =>
    obtain ⟨e, -, h⟩ := bind_eq_ok.mp h
    obtain rfl := Except.ok.inj h
    exact keeps_setEntry (hl a rfl) _

/-! ### Commands -/

/-- A command that keeps what is dead, where it returns. -/
def Frames (g : GlobalData) (act : Eff (GlobalData × Buffer)) : Prop :=
  ∀ g' b', act = .ok (g', b') → Keeps g g'

variable {g : GlobalData} {cmd : List Bytes} {b : Buffer} {strtod : Bytes → UInt64 × ℕ}
  {clock : Timespec}

lemma Frames.bind {α : Type} {x : Eff α} {f : α → Eff (GlobalData × Buffer)}
    (h : ∀ a, x = .ok a → Frames g (f a)) : Frames g (x >>= f) := by
  intro g' b' he
  obtain ⟨a, ha, hf⟩ := bind_eq_ok.mp he
  exact h a ha g' b' hf

lemma frames_pure {g' : GlobalData} (h : Keeps g g') (b : Buffer) : Frames g (pure (g', b)) := by
  intro g₂ b₂ he
  obtain ⟨rfl, -⟩ := Prod.mk.inj (Except.ok.inj he)
  exact h

lemma frames_ite {p : Prop} [Decidable p] {x y : Eff (GlobalData × Buffer)} (hx : p → Frames g x)
    (hy : ¬ p → Frames g y) : Frames g (if p then x else y) := by
  split_ifs with hp
  · exact hx hp
  · exact hy hp

lemma doGet_frames (w : WF g.db) : Frames g (doGet g cmd b) := by
  refine .bind fun ⟨g₁, r⟩ hf => ?_
  obtain ⟨hk, -, -⟩ := findEntry_keeps w hf
  cases r with
  | none => exact frames_pure hk _
  | some ent =>
    exact .bind fun e _ => frames_ite (fun _ => frames_pure hk _) fun _ => frames_pure hk _

lemma doSet_frames (w : WF g.db) : Frames g (doSet g cmd b) := by
  refine .bind fun ⟨g₁, r⟩ hf => ?_
  obtain ⟨hk, w₁, hl⟩ := findEntry_keeps w hf
  cases r with
  | none => exact .bind fun ⟨g₂, a⟩ ha => frames_pure (hk.trans (addEntry_keeps w₁ ha).1) _
  | some ent =>
    refine .bind fun e _ => frames_ite (fun _ => frames_pure hk _) fun _ => ?_
    exact frames_pure (hk.trans (keeps_setEntry (hl ent rfl) _)) _

lemma doKeys_frames : Frames g (doKeys g b) := .bind fun _ _ => frames_pure (Keeps.refl g) _

lemma addTuple_frames {g₁ : GlobalData} (hk : Keeps g g₁) {ent : Addr} (hl : ent ∈ live g₁)
    {name : Bytes} {score : Score} : Frames g (addTuple g₁ ent name score b) :=
  .bind fun _ _ => .bind fun _ _ => frames_pure (hk.trans (keeps_setEntry hl _)) _

lemma doZadd_frames (w : WF g.db) : Frames g (doZadd strtod g cmd b) := by
  unfold doZadd
  cases str2dbl strtod (arg cmd 2) with
  | none => exact frames_pure (Keeps.refl g) _
  | some score =>
    refine .bind fun ⟨g₁, r⟩ hf => ?_
    obtain ⟨hk, w₁, hl⟩ := findEntry_keeps w hf
    cases r with
    | none =>
      refine .bind fun ⟨g₂, a⟩ ha => ?_
      obtain ⟨hk₂, hl₂⟩ := addEntry_keeps w₁ ha
      exact addTuple_frames (hk.trans hk₂) hl₂
    | some ent =>
      exact .bind fun e _ => frames_ite (fun _ => frames_pure hk _) fun _ =>
        addTuple_frames hk (hl ent rfl)

lemma doZrem_frames (w : WF g.db) : Frames g (doZrem g cmd b) := by
  refine .bind fun ⟨g₁, r⟩ hf => ?_
  obtain ⟨hk, hl⟩ := expectZset_keeps w hf
  cases r with
  | none => exact frames_pure hk _
  | some ref =>
    have hwrite : ∀ {z g₂}, writeZset g₁ ref z = .ok g₂ → Keeps g g₂ := fun hw =>
      hk.trans (writeZset_keeps (fun a ha => hl a (congrArg some ha)) hw)
    refine .bind fun zset _ => .bind fun ⟨zset₁, found⟩ _ => ?_
    cases found with
    | none => exact .bind fun g₂ hw => frames_pure (hwrite hw) _
    | some a => exact .bind fun zset₂ _ => .bind fun g₂ hw => frames_pure (hwrite hw) _

lemma doZscore_frames (w : WF g.db) : Frames g (doZscore g cmd b) := by
  refine .bind fun ⟨g₁, r⟩ hf => ?_
  obtain ⟨hk, hl⟩ := expectZset_keeps w hf
  cases r with
  | none => exact frames_pure hk _
  | some ref =>
    refine .bind fun zset _ => .bind fun ⟨zset₁, found⟩ _ => .bind fun g₂ hw => ?_
    have hk₂ := hk.trans (writeZset_keeps (fun a ha => hl a (congrArg some ha)) hw)
    cases found with
    | none => exact frames_pure hk₂ _
    | some a => exact .bind fun d _ => frames_pure hk₂ _

lemma doZquery_frames (w : WF g.db) : Frames g (doZquery strtod g cmd b) := by
  unfold doZquery
  cases str2dbl strtod (arg cmd 2) with
  | none => exact frames_pure (Keeps.refl g) _
  | some score =>
    cases str2int (arg cmd 4) with
    | none => exact frames_pure (Keeps.refl g) _
    | some offset =>
      cases str2int (arg cmd 5) with
      | none => exact frames_pure (Keeps.refl g) _
      | some limit =>
        refine .bind fun ⟨g₁, r⟩ hf => ?_
        obtain ⟨hk, -⟩ := expectZset_keeps w hf
        cases r with
        | none => exact frames_pure hk _
        | some ref =>
          refine frames_ite (fun _ => frames_pure hk _) fun _ => ?_
          exact .bind fun _ _ => .bind fun _ _ => .bind fun _ _ => .bind fun _ _ =>
            .bind fun _ _ => frames_pure hk _

lemma doZrank_frames (w : WF g.db) : Frames g (doZrank g cmd b) := by
  refine .bind fun ⟨g₁, r⟩ hf => ?_
  obtain ⟨hk, hl⟩ := expectZset_keeps w hf
  cases r with
  | none => exact frames_pure hk _
  | some ref =>
    refine .bind fun zset _ => .bind fun ⟨zset₁, found⟩ _ => .bind fun g₂ hw => ?_
    have hk₂ := hk.trans (writeZset_keeps (fun a ha => hl a (congrArg some ha)) hw)
    cases found with
    | none => exact frames_pure hk₂ _
    | some a => exact .bind fun rank _ => frames_pure hk₂ _

lemma doZcount_frames (w : WF g.db) : Frames g (doZcount strtod g cmd b) := by
  unfold doZcount
  cases str2dbl strtod (arg cmd 2) with
  | none => exact frames_pure (Keeps.refl g) _
  | some score1 =>
    cases str2dbl strtod (arg cmd 4) with
    | none => exact frames_pure (Keeps.refl g) _
    | some score2 =>
      refine .bind fun ⟨g₁, r⟩ hf => ?_
      obtain ⟨hk, -⟩ := expectZset_keeps w hf
      cases r with
      | none => exact frames_pure hk _
      | some ref =>
        refine .bind fun _ _ => .bind fun znode1 _ => .bind fun znode2 _ => ?_
        cases znode1 with
        | none => exact frames_pure hk _
        | some a1 =>
          cases znode2 with
          | none => exact frames_pure hk _
          | some a2 => exact .bind fun _ _ => .bind fun _ _ => frames_pure hk _

lemma doExpire_frames (w : WF g.db) : Frames g (doExpire g clock cmd b) := by
  unfold doExpire
  cases str2int (arg cmd 2) with
  | none => exact frames_pure (Keeps.refl g) _
  | some ttlMs =>
    refine .bind fun ⟨g₁, r⟩ hf => ?_
    obtain ⟨hk, -, -⟩ := findEntry_keeps w hf
    cases r with
    | none => exact frames_pure hk _
    | some ent => exact .bind fun g₂ hs => frames_pure (hk.trans (entrySetTtl_keeps hs)) _

lemma doTtl_frames (w : WF g.db) : Frames g (doTtl g clock cmd b) := by
  refine .bind fun ⟨g₁, r⟩ hf => ?_
  obtain ⟨hk, -, -⟩ := findEntry_keeps w hf
  cases r with
  | none => exact frames_pure hk _
  | some ent =>
    dsimp only
    cases g₁.heap.idx ent with
    | none => exact frames_pure hk _
    | some pos =>
      dsimp only
      cases g₁.heap.a[pos]? with
      | none =>
        intro g' b' he
        simp at he
      | some item => exact frames_pure hk _

/-- **Every command but a deletion** keeps the queue and the entries that are not linked. -/
theorem doRequest_frames (w : WF g.db) (hdel : ¬ (cmd.length = 2 ∧ arg cmd 0 = str "del")) :
    Frames g (doRequestAndMakeResponse strtod g clock cmd b) := by
  unfold doRequestAndMakeResponse
  refine frames_ite (fun _ => doGet_frames w) fun _ => frames_ite (fun _ => doSet_frames w) fun _ =>
    frames_ite (fun h => absurd h hdel) fun _ => frames_ite (fun _ => doKeys_frames) fun _ =>
    frames_ite (fun _ => doZadd_frames w) fun _ => frames_ite (fun _ => doZrem_frames w) fun _ =>
    frames_ite (fun _ => doZscore_frames w) fun _ =>
    frames_ite (fun _ => doZquery_frames w) fun _ =>
    frames_ite (fun _ => doZrank_frames w) fun _ => frames_ite (fun _ => doZcount_frames w) fun _ =>
    frames_ite (fun _ => doExpire_frames w) fun _ =>
    frames_ite (fun _ => doTtl_frames w) fun _ => ?_
  exact frames_pure (Keeps.refl g) _

end ByoRedis.CommandFrame
