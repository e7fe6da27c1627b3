import ByoRedis.Lib.Depth
import ByoRedis.MemberWalk
import ByoRedis.StoreRuns

/-!
How many rounds the loops over the trees and over the heap of timers take.

The loops of the model are given more rounds than they need: as many as addresses were given
out, or as there are timers. What a loop returns does not depend on the rounds that it is given
beyond those it takes, and these are logarithmic, in every state that commands lead to.
-/

namespace ByoRedis.Rounds

open ByoRedis.Basic ByoRedis.Avl ByoRedis.AvlTree ByoRedis.HashTable ByoRedis.SortedSet
open ByoRedis.SortedSetSpec ByoRedis.MemberTree ByoRedis.MemberWalk ByoRedis.Heap
open ByoRedis.HeapSpec ByoRedis.Database ByoRedis.DatabaseSpec ByoRedis.StoreRuns
open ByoRedis.Lib.Trees ByoRedis.Lib.Runs ByoRedis.Lib.Depth
open ByoRedis.Lib.HeapOrder

variable {ρ : Type} [DecidableEq ρ]

/-! ### What a loop returns, it returns with more rounds -/

omit [DecidableEq ρ] in
lemma leftmost_settled (m : Links ρ) (a : ρ) : Settled fun n => leftmost n m a := by
  intro n r h
  dsimp only at h ⊢
  induction n generalizing a r with
  | zero => simp [leftmost] at h
  | succ n ih =>
    rw [leftmost] at h ⊢
    cases hl : (m a).left with
    | none => simpa [hl] using h
    | some l =>
      rw [hl] at h
      exact ih l r h

lemma avlFix_settled (m : Links ρ) (a : ρ) : Settled fun n => avlFix n m a := by
  intro n r h
  dsimp only at h ⊢
  induction n generalizing m a r with
  | zero => simp [avlFix] at h
  | succ n ih =>
    rw [avlFix] at h ⊢
    obtain ⟨⟨m₁, sub⟩, hn, h⟩ := bind_eq_ok.mp h
    rw [hn, ok_bind]
    cases hp : (m a).parent with
    | none => simpa [hp] using h
    | some p =>
      rw [hp] at h
      exact ih m₁ p r h

lemma avlDelEasy_settled (m : Links ρ) (a : ρ) : Settled fun n => avlDelEasy n m a := by
  by_cases hassert : (m a).left.isSome = true ∧ (m a).right.isSome = true
  · simp only [avlDelEasy, if_pos hassert]
    exact settled_const _
  · simp only [avlDelEasy, if_neg hassert]
    cases (m a).parent with
    | none => exact settled_const _
    | some p => exact (avlFix_settled _ p).bind fun _ => settled_const _

lemma avlDel_settled (m : Links ρ) (a : ρ) : Settled fun n => avlDel n m a := by
  unfold avlDel
  cases (m a).left with
  | none => exact avlDelEasy_settled m a
  | some l =>
    cases (m a).right with
    | none => exact avlDelEasy_settled m a
    | some r =>
      exact (leftmost_settled m r).bind fun v =>
        (avlDelEasy_settled m v).bind fun _ => settled_const _

lemma avlOffset_settled (m : Links ρ) (a : ρ) (pos offset : ℤ) :
    Settled fun n => avlOffset n m a pos offset := by
  intro n r h
  dsimp only at h ⊢
  induction n generalizing a pos r with
  | zero => simp [avlOffset] at h
  | succ n ih =>
    rw [avlOffset] at h ⊢
    split_ifs at h ⊢ with h₁ h₂ h₃
    · exact h
    · cases hr : (m a).right with
      | none => simp [hr] at h
      | some b =>
        rw [hr] at h
        exact ih _ _ r h
    · cases hl : (m a).left with
      | none => simp [hl] at h
      | some b =>
        rw [hl] at h
        exact ih _ _ r h
    · cases hp : (m a).parent with
      | none => simpa [hp] using h
      | some p =>
        rw [hp] at h
        dsimp only at h ⊢
        split_ifs at h ⊢ <;> exact ih _ _ r h

lemma avlRankLoop_settled (m : Links ρ) (a : ρ) (rank : ℤ) :
    Settled fun n => avlRankLoop n m a rank := by
  intro n r h
  dsimp only at h ⊢
  induction n generalizing a rank r with
  | zero => simp [avlRankLoop] at h
  | succ n ih =>
    rw [avlRankLoop] at h ⊢
    cases hp : (m a).parent with
    | none => simpa [hp] using h
    | some p =>
      rw [hp] at h
      dsimp only at h ⊢
      split_ifs at h ⊢ <;> exact ih _ _ r h

lemma treeInsertLoop_settled (z : ZSet) (a : Addr) (parent : Option Addr) (frm : Slot Addr) :
    Settled fun n => treeInsertLoop n z a parent frm := by
  intro n r h
  dsimp only at h ⊢
  induction n generalizing parent frm r with
  | zero => simp [treeInsertLoop] at h
  | succ n ih =>
    rw [treeInsertLoop] at h ⊢
    cases hc : frm.read z.root z.tree with
    | none => simpa [hc] using h
    | some cur =>
      rw [hc] at h
      obtain ⟨less, hl, h⟩ := bind_eq_ok.mp h
      exact bind_eq_ok.mpr ⟨less, hl, ih _ _ r h⟩

lemma treeInsertIn_settled (z : ZSet) (a : Addr) : Settled fun n => treeInsertIn n z a :=
  (treeInsertLoop_settled z a none .root).bind fun _ =>
    (avlFix_settled _ a).bind fun _ => settled_const _

lemma zsetUpdateIn_settled (z : ZSet) (a : Addr) (score : Score) :
    Settled fun n => zsetUpdateIn n z a score :=
  (avlDel_settled z.tree a).bind fun _ => (settled_const (z.deref a)).bind fun _ =>
    treeInsertIn_settled _ a

lemma zsetSeekgeLoop_settled (z : ZSet) (score : Score) (name : Bytes) (node found : Option Addr) :
    Settled fun n => zsetSeekgeLoop n z score name node found := by
  intro n r h
  dsimp only at h ⊢
  induction n generalizing node found r with
  | zero => simp [zsetSeekgeLoop] at h
  | succ n ih =>
    cases node with
    | none => exact h
    | some a =>
      rw [zsetSeekgeLoop] at h ⊢
      obtain ⟨d, hd, h⟩ := bind_eq_ok.mp h
      rw [hd, ok_bind]
      split_ifs at h ⊢ <;> exact ih _ _ r h

lemma heapUpLoop_settled (h : Timers ρ) (pos : ℕ) (t : HeapItem ρ) :
    Settled fun n => heapUpLoop n h pos t := by
  intro n r he
  dsimp only at he ⊢
  induction n generalizing h pos r with
  | zero => simp [heapUpLoop] at he
  | succ n ih =>
    rw [heapUpLoop] at he ⊢
    split_ifs at he ⊢
    · cases hp : h.a[heapParent pos]? with
      | none => simp [hp] at he
      | some p =>
        rw [hp] at he
        dsimp only at he ⊢
        split_ifs at he ⊢
        · exact ih _ _ r he
        · exact he
    · exact he

lemma heapDownLoop_settled (h : Timers ρ) (pos len : ℕ) (t : HeapItem ρ) :
    Settled fun n => heapDownLoop n h pos len t := by
  intro n r he
  dsimp only at he ⊢
  induction n generalizing h pos r with
  | zero => simp [heapDownLoop] at he
  | succ n ih =>
    rw [heapDownLoop] at he ⊢
    obtain ⟨m, hm, he⟩ := bind_eq_ok.mp he
    rw [hm, ok_bind]
    split_ifs at he ⊢
    · exact he
    · cases hk : h.a[m]? with
      | none => simp [hk] at he
      | some k =>
        rw [hk] at he
        exact ih _ _ r he

/-! ### The tree of a set -/

/-- Every loop over the tree of a set returns within so many rounds: a search by score and name,
the rank of a member and a step by any offset from one, and each loop of an insertion, of a
change of score and of a deletion. -/
structure Quick (z : ZSet) (n : ℕ) : Prop where
  seekge : ∀ score name, Within (fun k => zsetSeekgeLoop k z score name z.root none) n
  rank : ∀ a d, z.node a = some d → Within (fun k => avlRank k z.tree a) n
  offset : ∀ a d, z.node a = some d → ∀ pos offset,
    Within (fun k => avlOffset k z.tree a pos offset) (2 * n)
  insert : ∀ name score h, (∀ a, ¬ Named z name a) →
    Within (fun k => treeInsertIn k { (znodeNew z name score).1 with hmap := h } z.fresh) n
  update : ∀ a d, z.node a = some d → ∀ score, Within (fun k => zsetUpdateIn k z a score) n
  delete : ∀ a d, z.node a = some d → Within (fun k => avlDel k z.tree a) n

lemma enough_log (n : ℕ) : Enough (2 * Nat.log 2 (n + 1) + 2) n := by
  intro t hb ht
  have hlow := height_le_log hb
  have hlog : Nat.log 2 (t.numNodes + 1) ≤ Nat.log 2 (n + 1) := Nat.log_mono_right (by omega)
  omega

/-- Rounds that suffice to go down the trees suffice for every loop. -/
theorem quick_of_enough {z : ZSet} {t : BinaryTree Addr} (w : Wf z t) {n : ℕ}
    (hn : Enough n t.numNodes) : Quick z n := by
  have hlow := hn t w.balanced le_rfl
  refine ⟨fun score name => ?_, fun a d hd => ?_, fun a d hd pos offset => ?_,
    fun name score h hno => ?_, fun a d hd score => ?_, fun a d hd => ?_⟩
  · have hloop := zsetSeekgeLoop_spec w.repr hlow w.allocated (before_mono w score name) none
    rw [← w.root] at hloop
    exact (zsetSeekgeLoop_settled z score name z.root none).within ⟨_, hloop⟩
  · obtain ⟨i, hi⟩ := List.mem_iff_getElem?.mp (w.live a d hd).1
    exact (avlRankLoop_settled z.tree a _).within ⟨_, avlRank_rounds w.repr w.nodup hi hlow.le⟩
  · obtain ⟨c, l, r, rfl⟩ := exists_path (w.live a d hd).1
    have hlen := length_add_height_le c (.node a l r)
    obtain ⟨b, hb, -⟩ := @avlOffset_returns _ _ _ _ _ _ _ pos offset (2 * n) w.repr w.nodup
      (by omega)
    exact (avlOffset_settled z.tree a pos offset).within ⟨b, hb⟩
  · obtain ⟨z', t', hz, -⟩ := w.insertNew hno score h hn
    exact (treeInsertIn_settled _ z.fresh).within ⟨z', hz⟩
  · obtain ⟨z', t', hz, -⟩ := zsetUpdateIn_spec w.toShape hn (w.live a d hd).1 hd score
      fun b _ e he hname => w.names b a e d he hd hname
    exact (zsetUpdateIn_settled z a score).within ⟨z', hz⟩
  · obtain ⟨m', t', hm, -⟩ := w.toShape.detach hn (w.live a d hd).1
    exact (avlDel_settled z.tree a).within ⟨_, hm⟩

/-! ### The heap -/

lemma log_parent {pos : ℕ} (hpos : 0 < pos) :
    Nat.log 2 (heapParent pos + 1) + 1 = Nat.log 2 (pos + 1) := by
  have hhalf : heapParent pos + 1 = (pos + 1) / 2 := by
    unfold heapParent
    omega
  rw [hhalf, Nat.log_of_one_lt_of_le (by decide : 1 < 2) (by omega : 2 ≤ pos + 1)]

lemma heapUpLoop_levels (h : Timers ρ) {pos k : ℕ} (hlt : pos < h.a.length) (t : HeapItem ρ)
    (hk : Nat.log 2 (pos + 1) ≤ k) : ∃ h', heapUpLoop (k + 1) h pos t = .ok h' := by
  induction k generalizing h pos with
  | zero =>
    rw [heapUpLoop]
    have hpos : ¬ 0 < pos := fun hpos => by have := log_parent hpos; omega
    exact ⟨_, if_neg hpos⟩
  | succ k ih =>
    rw [heapUpLoop]
    by_cases hpos : 0 < pos
    · have hlog := log_parent hpos
      have hup : heapParent pos < pos := by
        unfold heapParent
        omega
      rw [if_pos hpos, List.getElem?_eq_getElem (hup.trans hlt)]
      dsimp only
      split_ifs
      · refine ih _ ?_ (by omega)
        rw [place, List.length_set]
        exact hup.trans hlt
      · exact ⟨_, rfl⟩
    · exact ⟨_, if_neg hpos⟩

lemma log_kid {len pos m : ℕ} (hm : Kid m pos) (hlt : m < len) :
    Nat.log 2 (len / (m + 1)) + 1 ≤ Nat.log 2 (len / (pos + 1)) := by
  have hpos : 1 ≤ len / (m + 1) := (Nat.one_le_div_iff (by omega)).mpr hlt
  have hdouble : len / (m + 1) * 2 ≤ len / (pos + 1) := by
    rw [Nat.le_div_iff_mul_le (by omega)]
    calc len / (m + 1) * 2 * (pos + 1)
      _ = len / (m + 1) * (2 * (pos + 1)) := by rw [Nat.mul_assoc]
      _ ≤ len / (m + 1) * (m + 1) :=
        Nat.mul_le_mul_left _ (by rcases kid_iff.mp hm with rfl | rfl <;> omega)
      _ ≤ len := Nat.div_mul_le_self ..
  rw [← Nat.log_mul_base (by decide) (by omega)]
  exact Nat.log_mono_right hdouble

lemma heapDownLoop_levels (h : Timers ρ) {pos k : ℕ} (hlt : pos < h.a.length) (t : HeapItem ρ)
    (hk : Nat.log 2 (h.a.length / (pos + 1)) ≤ k) :
    ∃ h', heapDownLoop (k + 1) h pos h.a.length t = .ok h' := by
  induction k generalizing h pos with
  | zero =>
    obtain ⟨m, hm, ⟨rfl, -⟩ | ⟨hkid, hml, -⟩⟩ := minPos_spec (t := t) hlt
    · exact ⟨_, by rw [heapDownLoop, hm, ok_bind, if_pos rfl]; rfl⟩
    · have := log_kid hkid hml
      omega
  | succ k ih =>
    obtain ⟨m, hm, ⟨rfl, -⟩ | ⟨hkid, hml, -⟩⟩ := minPos_spec (t := t) hlt
    · exact ⟨_, by rw [heapDownLoop, hm, ok_bind, if_pos rfl]; rfl⟩
    · have hlog := log_kid hkid hml
      have hne : m ≠ pos := hkid.lt.ne'
      have hlen : (place h pos h.a[m]).a.length = h.a.length := by rw [place, List.length_set]
      rw [heapDownLoop, hm, ok_bind, if_neg hne, List.getElem?_eq_getElem hml]
      dsimp only
      rw [← hlen]
      exact ih _ (by rw [hlen]; exact hml) (by rw [hlen]; omega)

/-- Both loops of a heap return within its levels. -/
theorem heap_levels (h : Timers ρ) {pos : ℕ} (hlt : pos < h.a.length) (t : HeapItem ρ) :
    Within (fun k => heapUpLoop k h pos t) (Nat.log 2 h.a.length + 1) ∧
      Within (fun k => heapDownLoop k h pos h.a.length t) (Nat.log 2 h.a.length + 1) :=
  ⟨(heapUpLoop_settled h pos t).within (heapUpLoop_levels h hlt t (Nat.log_mono_right hlt)),
    (heapDownLoop_settled h pos h.a.length t).within
      (heapDownLoop_levels h hlt t (Nat.log_mono_right (Nat.div_le_self ..)))⟩

/-! ### Over runs -/

/-- **Logarithmic rounds.** After every run of commands, each loop over the tree of a set returns
within a number of rounds that is logarithmic in the number of its members, and each loop over
an array heap within its levels, with what it returns however many rounds it is given. -/
theorem rounds_logarithmic (strtod : Bytes → UInt64 × ℕ) (ops : List Op) :
    ∃ g outs, run (serve strtod) {} ops = .ok (g, outs) ∧
      (∀ a ∈ live g, ∀ e, g.ents a = some e → e.type = .zset →
        Quick e.zset (2 * Nat.log 2 (hmSize e.zset.hmap + 1) + 2)) ∧
      ∀ (h : Timers Addr) pos t, pos < h.a.length →
        Within (fun k => heapUpLoop k h pos t) (Nat.log 2 h.a.length + 1) ∧
          Within (fun k => heapDownLoop k h pos h.a.length t) (Nat.log 2 h.a.length + 1) := by
  obtain ⟨g, outs, σ, hrun, hg⟩ := run_good strtod ops
  refine ⟨g, outs, hrun, fun a ha e he htype => ?_, fun h pos t hlt => heap_levels h hlt t⟩
  obtain ⟨n, hn, rfl⟩ := List.mem_map.mp ha
  obtain ⟨e', c, he', -, -, his⟩ := hg.linked n hn
  obtain rfl : e' = e := Option.some.inj (he'.symm.trans he)
  cases his with
  | str hstr =>
    rw [hstr] at htype
    simp at htype
  | zset _ w _ =>
    rw [w.size]
    exact quick_of_enough w (enough_log _)

end ByoRedis.Rounds
