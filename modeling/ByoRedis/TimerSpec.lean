import ByoRedis.Database
import ByoRedis.HeapSpec

/-!
The expiration times of the entries, and how setting one changes them.

Every item of the heap belongs to an entry that is alive, and an entry's index says where its
item is, or that there is none.
-/

namespace ByoRedis.TimerSpec

open ByoRedis.Basic ByoRedis.Heap ByoRedis.HeapSpec ByoRedis.Database ByoRedis.Lib.HeapOrder
open ByoRedis.Lib.Runs

/-- The heap and the live entries refer to each other. -/
structure Timed (h : Timers Addr) (live : List Addr) : Prop where
  heaped : Heaped h
  owned : ∀ x ∈ h.a, x.ref ∈ live
  idle : ∀ ent ∈ live, ent ∉ refs h.a → h.idx ent = none

/-- When an entry expires. -/
def Deadline (h : Timers Addr) (ent : Addr) (expiry : Option ℕ) : Prop :=
  ∀ t, expiry = some t ↔ ⟨t, ent⟩ ∈ h.a

lemma timed_empty : Timed {} [] := by
  refine ⟨⟨fun p i _ => ?_, fun i x hx => ?_⟩, by simp, by simp⟩
  · simp [valAt]
  · simp at hx

lemma Deadline.unique {h : Timers Addr} {ent : Addr} {e e' : Option ℕ} (h₁ : Deadline h ent e)
    (h₂ : Deadline h ent e') : e = e' :=
  Option.ext fun t => (h₁ t).trans (h₂ t).symm

lemma Heaped.index {h : Timers Addr} (hh : Heaped h) {ent : Addr} (hm : ent ∈ refs h.a) :
    ∃ i t, h.idx ent = some i ∧ h.a[i]? = some ⟨t, ent⟩ := by
  obtain ⟨⟨t, r⟩, hx, rfl⟩ := List.mem_map.mp hm
  obtain ⟨i, hi⟩ := List.mem_iff_getElem?.mp hx
  exact ⟨i, t, hh.indexed i _ hi, hi⟩

lemma Timed.points {h : Timers Addr} {live : List Addr} (ht : Timed h live) {ent : Addr}
    (hl : ent ∈ live) : Points h ent := by
  intro i hi
  by_cases hm : ent ∈ refs h.a
  · obtain ⟨j, t, hj, hx⟩ := Heaped.index ht.heaped hm
    rw [hi, Option.some.injEq] at hj
    exact ⟨t, by rw [hj, hx]⟩
  · rw [ht.idle ent hl hm] at hi
    simp at hi

/-- An entry has at most one expiration time, and its index finds it. -/
lemma Timed.deadline {h : Timers Addr} {live : List Addr} (ht : Timed h live) {ent : Addr}
    (hl : ent ∈ live) :
    (h.idx ent = none ∧ Deadline h ent none) ∨
      ∃ i t, h.idx ent = some i ∧ h.a[i]? = some ⟨t, ent⟩ ∧ Deadline h ent (some t) := by
  by_cases hm : ent ∈ refs h.a
  · obtain ⟨i, t, hi, hx⟩ := Heaped.index ht.heaped hm
    refine .inr ⟨i, t, hi, hx, fun t' => ⟨fun e => ?_, fun hx' => ?_⟩⟩
    · rw [← Option.some.inj e]
      exact List.mem_of_getElem? hx
    · obtain ⟨j, hj⟩ := List.mem_iff_getElem?.mp hx'
      have := ht.heaped.indexed j _ hj
      rw [hi, Option.some.injEq] at this
      rw [← this, hx, Option.some.injEq] at hj
      rw [(HeapItem.mk.inj hj).1]
  · exact .inl ⟨ht.idle ent hl hm, fun t => ⟨fun e => by simp at e, fun hx =>
      absurd (List.mem_map_of_mem hx) hm⟩⟩

lemma Timed.allocate {h : Timers Addr} {live live' : List Addr} (ht : Timed h live) {ent : Addr}
    (hnew : ent ∉ live) (hl : live'.Perm (ent :: live)) :
    Timed { h with idx := Function.update h.idx ent none } live' := by
  have hown : ∀ x ∈ h.a, x.ref ≠ ent := fun x hx e => hnew (e ▸ ht.owned x hx)
  refine ⟨⟨ht.heaped.ordered, fun i x hx => ?_⟩, fun x hx => ?_, fun r hr hno => ?_⟩
  · dsimp only
    rw [Function.update_of_ne (hown x (List.mem_of_getElem? hx))]
    exact ht.heaped.indexed i x hx
  · exact hl.mem_iff.mpr (List.mem_cons_of_mem _ (ht.owned x hx))
  · dsimp only
    by_cases hr' : r = ent
    · rw [hr', Function.update_self]
    · rw [Function.update_of_ne hr']
      exact ht.idle r ((List.mem_cons.mp (hl.mem_iff.mp hr)).resolve_left hr') hno

lemma Deadline.perm {h h' : Timers Addr} {ent ent' : Addr} {new : List (HeapItem Addr)}
    (hp : h'.a.Perm (new ++ others h.a ent)) (hne : ent' ≠ ent) (hnew : ∀ x ∈ new, x.ref = ent)
    {e : Option ℕ} (hd : Deadline h ent' e) : Deadline h' ent' e := by
  intro t
  rw [hd t, hp.mem_iff, List.mem_append, mem_others]
  constructor
  · exact fun hx => .inr ⟨hx, hne⟩
  · rintro (hx | hx)
    · exact absurd (hnew _ hx) hne
    · exact hx.1

lemma Timed.change {h h' : Timers Addr} {live live' : List Addr} (ht : Timed h live) {ent : Addr}
    {new : List (HeapItem Addr)} (hh : Heaped h') (hp : h'.a.Perm (new ++ others h.a ent))
    (hnew : ∀ x ∈ new, x.ref = ent ∧ ent ∈ live') (hsub : ∀ r ∈ live', r ∈ live)
    (hkeep : ∀ r ∈ live, r ≠ ent → r ∈ live') (hself : new = [] → h'.idx ent = none)
    (hframe : ∀ r, r ≠ ent → r ∉ refs h.a → h'.idx r = h.idx r) : Timed h' live' := by
  have hmem : ∀ x, x ∈ h'.a ↔ x ∈ new ∨ x ∈ h.a ∧ x.ref ≠ ent := by
    intro x
    rw [hp.mem_iff, List.mem_append, mem_others]
  refine ⟨hh, fun x hx => ?_, fun r hr hno => ?_⟩
  · rcases (hmem x).mp hx with hx | ⟨hx, hne⟩
    · rw [(hnew x hx).1]
      exact (hnew x hx).2
    · exact hkeep _ (ht.owned x hx) hne
  · by_cases hre : r = ent
    · subst hre
      refine hself (List.eq_nil_iff_forall_not_mem.mpr fun x hx => hno ?_)
      rw [← (hnew x hx).1]
      exact List.mem_map_of_mem ((hmem x).mpr (.inl hx))
    · have hnot : r ∉ refs h.a := by
        intro hm
        obtain ⟨x, hx, rfl⟩ := List.mem_map.mp hm
        exact hno (List.mem_map_of_mem ((hmem x).mpr (.inr ⟨hx, hre⟩)))
      rw [hframe r hre hnot]
      exact ht.idle r (hsub r hr) hnot

lemma clear_spec {g : GlobalData} {live : List Addr} (ht : Timed g.heap live) {ent : Addr}
    (hl : ent ∈ live) (clock : Timespec) {ttl : ℤ} (hneg : ttl < 0) :
    ∃ heap, entrySetTtl g clock ent ttl = .ok { g with heap := heap } ∧ Heaped heap ∧
      heap.a.Perm (others g.heap.a ent) ∧ heap.idx ent = none ∧
      ∀ r, r ≠ ent → r ∉ refs g.heap.a → heap.idx r = g.heap.idx r := by
  unfold entrySetTtl
  rcases ht.deadline hl with ⟨hi, -⟩ | ⟨i, t, hi, hx, -⟩
  · refine ⟨g.heap, ?_, ht.heaped, ?_, hi, fun _ _ _ => rfl⟩
    · rw [if_neg (by simp [hi]), if_neg (by omega)]
      rfl
    · rw [others_of_none ht.heaped.indexed hi]
  · obtain ⟨h', he, hh, hp, hf⟩ := heapDelete_spec ht.heaped hx
    have hnot : ent ∉ refs h'.a := by
      intro hm
      obtain ⟨x, hxm, hxr⟩ := List.mem_map.mp hm
      exact (mem_others.mp (hp.mem_iff.mp hxm)).2 hxr
    refine ⟨{ h' with idx := Function.update h'.idx ent none }, ?_, ⟨hh.ordered, ?_⟩, hp,
      Function.update_self .., fun r hre hr => ?_⟩
    · rw [if_pos ⟨hneg, by simp [hi]⟩, hi, he]
      rfl
    · intro j x hj
      have hne : x.ref ≠ ent := by
        rintro rfl
        exact hnot (mem_refs hj)
      dsimp only
      rw [Function.update_of_ne hne]
      exact hh.indexed j x hj
    · dsimp only
      rw [Function.update_of_ne hre, hf r hr]

/-- The time an entry gets. -/
def expireAt (clock : Timespec) (ttl : ℤ) : Option ℕ :=
  if ttl < 0 then none else some ((getMonotonicMsec clock + ttl.toNat) % 2 ^ 64)

/-- **`entry_set_ttl`** sets one entry's time and leaves the others. -/
theorem entrySetTtl_spec {g : GlobalData} {live : List Addr} (ht : Timed g.heap live) {ent : Addr}
    (hl : ent ∈ live) (clock : Timespec) (ttl : ℤ) :
    ∃ heap, entrySetTtl g clock ent ttl = .ok { g with heap := heap } ∧ Timed heap live ∧
      Deadline heap ent (expireAt clock ttl) ∧
      ∀ r e, r ≠ ent → Deadline g.heap r e → Deadline heap r e := by
  by_cases hneg : ttl < 0
  · obtain ⟨heap, he, hh, hp, hi, hf⟩ := clear_spec ht hl clock hneg
    have hp' : heap.a.Perm ([] ++ others g.heap.a ent) := hp
    refine ⟨heap, he, ht.change hh hp' (by simp) (fun _ h => h) (fun _ h _ => h) (fun _ => hi) hf,
      ?_, fun r e hne hd => hd.perm hp' hne (by simp)⟩
    intro t
    rw [expireAt, if_pos hneg, hp.mem_iff, mem_others]
    simp
  · obtain ⟨heap, he, hh, hp, hf⟩ := heapUpsert_spec ht.heaped (ht.points hl)
      ((getMonotonicMsec clock + ttl.toNat) % 2 ^ 64)
    have hp' : heap.a.Perm ([⟨(getMonotonicMsec clock + ttl.toNat) % 2 ^ 64, ent⟩] ++
      others g.heap.a ent) := hp
    refine ⟨heap, ?_, ht.change hh hp' ?_ (fun _ h => h) (fun _ h _ => h) (by simp) hf, ?_,
      fun r e hne hd => hd.perm hp' hne (by simp)⟩
    · unfold entrySetTtl
      rw [if_neg (fun h => hneg h.1), if_pos (by omega)]
      simp only [he, ok_bind, pure_eq_ok]
    · simp [hl]
    · intro t
      rw [expireAt, if_neg hneg, hp.mem_iff, List.mem_cons, mem_others]
      simp [eq_comm]

end ByoRedis.TimerSpec
