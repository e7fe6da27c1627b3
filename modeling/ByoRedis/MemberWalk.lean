import ByoRedis.SortedSetSpec

/-!
Walks through the tree of a sorted set: searching for a pair, stepping by an offset, and
counting the members before one.

The sizes kept in the nodes wrap at 2^32. Whatever they are, a walk by offset never follows a
missing link: it turns downwards only where the target lies within a subtree as its size is
told, and below that every size is told consistently.
-/

namespace ByoRedis.MemberWalk

open ByoRedis.Basic ByoRedis.Avl ByoRedis.SortedSet ByoRedis.SortedSetSpec ByoRedis.MemberOrder
open ByoRedis.MemberTree ByoRedis.AvlTree ByoRedis.Lib.Trees ByoRedis.Lib.Runs
open ByoRedis.Lib.Positions

variable {ρ : Type}

/-- The size of a subtree, as `avl_size` returns it. -/
def told (t : BinaryTree ρ) : ℕ := t.numNodes % 2 ^ 32

/-- A node's size as told is at most what is told of one side, and of the other with it. -/
lemma told_node_le (a : ρ) (l r : BinaryTree ρ) :
    told (.node a l r) ≤ (1 + told l) % 2 ^ 32 + told r ∧
      told (.node a l r) ≤ (1 + told r) % 2 ^ 32 + told l := by
  simp only [told, BinaryTree.numNodes]
  omega

/-- A walk that has turned downwards finds a node, and the right one where the sizes are not
cut. -/
lemma avlOffset_down [DecidableEq ρ] {m : Links ρ} {a : ρ} {l r : BinaryTree ρ} {p : Option ρ}
    {pos offset : ℤ} {fuel : ℕ} (hR : Repr m p (.node a l r)) (h1 : pos - told l ≤ offset)
    (h2 : offset ≤ pos + told r) (hf : (BinaryTree.node a l r).height ≤ fuel) :
    ∃ b ∈ inorder (.node a l r), avlOffset fuel m a pos offset = .ok (some b) ∧
      ((BinaryTree.node a l r).numNodes < 2 ^ 32 →
        nth (inorder (.node a l r)) (l.numNodes + (offset - pos)) = some b) := by
  induction fuel generalizing a l r p pos with
  | zero => simp at hf
  | succ fuel ih =>
    have hL := hR.linked
    simp only [BinaryTree.height] at hf
    rw [avlOffset]
    by_cases heq : pos = offset
    · refine ⟨a, by simp, by rw [if_pos heq]; rfl, fun _ => ?_⟩
      rw [heq, Int.sub_self, Int.add_zero]
      exact nth_node_self a l r
    rw [if_neg heq, hL.left, hL.right, avlSize_top hL.lrepr, avlSize_top hL.rrepr]
    by_cases hlt : pos < offset
    · rw [if_pos ⟨hlt, h2⟩]
      cases r with
      | nil => simp [told] at h2; omega
      | node b rl rr =>
        have hrl : avlSize m (m b).left = told rl := by
          rw [hL.rrepr.linked.left, avlSize_top hL.rrepr.linked.lrepr, told]
        have htold := (told_node_le b rl rr).1
        simp only [BinaryTree.height] at hf
        have h1' : pos + ((1 + told rl) % 2 ^ 32 : ℕ) - told rl ≤ offset := by omega
        obtain ⟨c, hc, he, hnth⟩ := ih hL.rrepr h1' (by omega)
          (by simp only [BinaryTree.height]; omega)
        refine ⟨c, by rw [inorder_node, List.mem_append, List.mem_cons]; exact .inr (.inr hc), ?_,
          fun hsize => ?_⟩
        · simp only [top_node, hrl]
          exact he
        · simp only [BinaryTree.numNodes] at hsize
          rw [← hnth (by simp only [BinaryTree.numNodes]; omega),
            ← nth_node_right a l (.node b rl rr) (by simp only [told]; omega)]
          congr 1
          simp only [told]
          omega
    · rw [if_neg fun h => hlt h.1, if_pos ⟨by omega, h1⟩]
      cases l with
      | nil => simp [told] at h1; omega
      | node b ll lr =>
        have hlr : avlSize m (m b).right = told lr := by
          rw [hL.lrepr.linked.right, avlSize_top hL.lrepr.linked.rrepr, told]
        have htold := (told_node_le b ll lr).2
        simp only [BinaryTree.height] at hf
        have h1' : pos - ((1 + told lr) % 2 ^ 32 : ℕ) - told ll ≤ offset := by omega
        obtain ⟨c, hc, he, hnth⟩ := ih hL.lrepr h1' (by omega)
          (by simp only [BinaryTree.height]; omega)
        refine ⟨c, by rw [inorder_node, List.mem_append]; exact .inl hc, ?_, fun hsize => ?_⟩
        · simp only [top_node, hlr]
          exact he
        · simp only [BinaryTree.numNodes] at hsize
          rw [← hnth (by simp only [BinaryTree.numNodes]; omega),
            nth_node_left a (.node b ll lr) r (by simp only [BinaryTree.numNodes]; omega)]
          congr 1
          simp only [told, BinaryTree.numNodes]
          omega

/-- A round of the walk that finds its target outside the subtree goes to the parent. -/
lemma avlOffset_up [DecidableEq ρ] {m : Links ρ} {a : ρ} {l r : BinaryTree ρ} {p : Option ρ}
    {pos offset : ℤ} (fuel : ℕ) (hL : Linked m p a l r)
    (h : ¬ (pos - told l ≤ offset ∧ offset ≤ pos + told r)) :
    (p = none → avlOffset (fuel + 1) m a pos offset = .ok none) ∧
      ∀ b, p = some b → avlOffset (fuel + 1) m a pos offset =
        if (m b).right = some a then
          avlOffset fuel m b (pos - ((1 + told l) % 2 ^ 32 : ℕ)) offset
        else avlOffset fuel m b (pos + ((1 + told r) % 2 ^ 32 : ℕ)) offset := by
  have hne : pos ≠ offset := by
    rintro rfl
    exact h ⟨by omega, by omega⟩
  have hl : avlSize m (m a).left = told l := by rw [hL.left, avlSize_top hL.lrepr, told]
  have hr : avlSize m (m a).right = told r := by rw [hL.right, avlSize_top hL.rrepr, told]
  have hgr : ¬ (pos < offset ∧ offset ≤ pos + told r) := fun hc => h ⟨by omega, hc.2⟩
  have hgl : ¬ (offset < pos ∧ pos - told l ≤ offset) := fun hc => h ⟨hc.2, by omega⟩
  rw [avlOffset, if_neg hne, hl, hr, if_neg hgr, if_neg hgl, hL.parent]
  refine ⟨?_, ?_⟩
  · rintro rfl
    rfl
  · rintro b rfl
    rfl

/-- **`avl_offset`** returns from any node of a tree, with a node of the tree or `NULL`, and with
the node at the offset where the sizes are not cut. -/
theorem avlOffset_returns [DecidableEq ρ] {m : Links ρ} {c : Path ρ} {a : ρ} {l r : BinaryTree ρ}
    {pos offset : ℤ} {fuel : ℕ} (hR : Repr m none (plug c (.node a l r)))
    (hn : (inorder (plug c (.node a l r))).Nodup)
    (hf : c.length + (plug c (.node a l r)).height ≤ fuel) :
    ∃ r', avlOffset fuel m a pos offset = .ok r' ∧
      (∀ b, r' = some b → b ∈ inorder (plug c (.node a l r))) ∧
      ((plug c (.node a l r)).numNodes < 2 ^ 32 → r' = nth (inorder (plug c (.node a l r)))
        ((before c).length + (l.numNodes + (offset - pos)))) := by
  induction c generalizing a l r pos fuel with
  | nil =>
    obtain ⟨fuel, rfl⟩ : ∃ k, fuel = k + 1 := ⟨fuel - 1, by simp at hf; omega⟩
    by_cases h : pos - told l ≤ offset ∧ offset ≤ pos + told r
    · obtain ⟨b, hb, he, hnth⟩ :=
        avlOffset_down hR h.1 h.2 (Nat.le_trans (Nat.le_add_left ..) hf)
      refine ⟨_, he, fun b' hb' => by rw [← Option.some.inj hb']; exact hb, fun hlt => ?_⟩
      rw [← hnth hlt]
      simp [before]
    · refine ⟨none, (avlOffset_up fuel hR.linked h).1 rfl, by simp, fun hlt => ?_⟩
      simp only [plug_nil, BinaryTree.numNodes] at hlt
      refine (nth_eq_none ?_).symm
      rw [inorder_length]
      simp only [told, before, plug_nil, BinaryTree.numNodes, List.length_nil] at h ⊢
      omega
  | cons f c ih =>
    obtain ⟨fuel, rfl⟩ : ∃ k, fuel = k + 1 := ⟨fuel - 1, by simp at hf; omega⟩
    obtain ⟨hR', hP⟩ := pathRepr_plug hR
    have hsub := numNodes_plug_le (f :: c) (.node a l r)
    have hlow := length_add_height_le (f :: c) (.node a l r)
    by_cases h : pos - told l ≤ offset ∧ offset ≤ pos + told r
    · obtain ⟨b, hb, he, hnth⟩ := avlOffset_down hR' h.1 h.2 (by omega : _ ≤ fuel + 1)
      refine ⟨_, he, fun b' hb' => ?_, fun hlt => ?_⟩
      · rw [← Option.some.inj hb']
        exact mem_plug.mpr (.inl hb)
      · have hr : (BinaryTree.node a l r).numNodes < 2 ^ 32 := by omega
        rw [← hnth hr]
        simp only [told, BinaryTree.numNodes] at h hr
        exact (nth_plug _ (by omega) (by simp only [BinaryTree.numNodes]; omega)).symm
    · have hpos : (BinaryTree.node a l r).numNodes < 2 ^ 32 →
          told l = l.numNodes ∧ told r = r.numNodes ∧ (1 + told l) % 2 ^ 32 = 1 + l.numNodes ∧
            (1 + told r) % 2 ^ 32 = 1 + r.numNodes := by
        simp only [told, BinaryTree.numNodes]
        omega
      have hup := (avlOffset_up fuel hR'.linked h).2
      rw [List.length_cons] at hf
      cases f with
      | left b r' =>
        have hne : (m b).right ≠ some a := by
          rw [hP.2.2.1]
          exact fun e => (nodup_plug hn).2 a (by simp) (by simp [before, after, mem_of_top e])
        rw [plug_left] at hf
        rw [hup b rfl, if_neg hne]
        obtain ⟨res, he, hmem, hnth⟩ := @ih _ _ _ (pos + ((1 + told r) % 2 ^ 32 : ℕ)) fuel hR hn
          (by omega)
        refine ⟨res, he, hmem, fun hlt => (hnth hlt).trans ?_⟩
        congr 1
        rw [(hpos (by omega)).2.2.2]
        simp only [before, BinaryTree.numNodes]
        omega
      | right b l' =>
        have heq : (m b).right = some a := hP.2.2.1
        rw [plug_right] at hf
        rw [hup b rfl, if_pos heq]
        obtain ⟨res, he, hmem, hnth⟩ := @ih _ _ _ (pos - ((1 + told l) % 2 ^ 32 : ℕ)) fuel hR hn
          (by omega)
        refine ⟨res, he, hmem, fun hlt => (hnth hlt).trans ?_⟩
        congr 1
        rw [(hpos (by omega)).2.2.1]
        simp only [before, List.length_append, inorder_length, List.length_cons, List.length_nil]
        omega

/-- How many times 2^32 the sizes told on the way lack of the position of a node. -/
def lost : BinaryTree ρ → ℕ → ℕ
  | .nil, _ => 0
  | .node _ l r, i =>
    if i < l.numNodes then lost l i
    else if i = l.numNodes then l.numNodes / 2 ^ 32
    else (1 + l.numNodes) / 2 ^ 32 + lost r (i - (l.numNodes + 1))

lemma lost_node_left (a : ρ) (l r : BinaryTree ρ) {i : ℕ} (h : i < l.numNodes) :
    lost (.node a l r) i = lost l i := by
  rw [lost, if_pos h]

lemma lost_node_right (a : ρ) (l r : BinaryTree ρ) (i : ℕ) :
    lost (.node a l r) (l.numNodes + 1 + i) = (1 + l.numNodes) / 2 ^ 32 + lost r i := by
  rw [lost, if_neg (by omega), if_neg (by omega), Nat.add_sub_cancel_left]

lemma lost_eq_zero {t : BinaryTree ρ} (h : t.numNodes < 2 ^ 32) (i : ℕ) : lost t i = 0 := by
  induction t generalizing i with
  | nil => rfl
  | node a l r ihl ihr =>
    simp only [BinaryTree.numNodes] at h
    rw [lost]
    split_ifs
    · exact ihl (by omega) i
    · exact Nat.div_eq_of_lt (by omega)
    · rw [ihr (by omega), Nat.div_eq_of_lt (by omega)]

lemma lost_le {t : BinaryTree ρ} {i : ℕ} (h : i < t.numNodes) : 2 ^ 32 * lost t i ≤ i := by
  induction t generalizing i with
  | nil => simp at h
  | node a l r ihl ihr =>
    simp only [BinaryTree.numNodes] at h
    rw [lost]
    split_ifs with hl hi
    · exact ihl hl
    · omega
    · have := ihr (i := i - (l.numNodes + 1)) (by omega)
      omega

/-- The loop of `avl_rank` takes a position in a subtree to one in the tree. -/
lemma avlRankLoop_spec [DecidableEq ρ] {m : Links ρ} {c : Path ρ} {a : ρ} {t : BinaryTree ρ}
    {i fuel : ℕ} (hR : Repr m none (plug c t)) (hn : (inorder (plug c t)).Nodup)
    (ht : top t = some a) (hi : i < t.numNodes) (hf : c.length < fuel) :
    avlRankLoop fuel m a (i - 2 ^ 32 * lost t i : ℤ) =
      .ok ((before c).length + i - 2 ^ 32 * lost (plug c t) ((before c).length + i) : ℤ) := by
  induction c generalizing a t i fuel with
  | nil =>
    obtain ⟨fuel, rfl⟩ : ∃ k, fuel = k + 1 := ⟨fuel - 1, by omega⟩
    cases t with
    | nil => simp at ht
    | node b l r =>
      obtain rfl : b = a := by simpa using ht
      rw [avlRankLoop, hR.linked.parent]
      simp [before]
  | cons f c ih =>
    obtain ⟨fuel, rfl⟩ : ∃ k, fuel = k + 1 := ⟨fuel - 1, by omega⟩
    obtain ⟨hR', hP⟩ := pathRepr_plug hR
    have hmem := mem_of_top ht
    rw [List.length_cons] at hf
    cases t with
    | nil => simp at ht
    | node a' l r =>
      obtain rfl : a' = a := by simpa using ht
      rw [avlRankLoop, hR'.linked.parent]
      cases f with
      | left b r' =>
        have hne : (m b).right ≠ some a' := by
          rw [hP.2.2.1]
          exact fun e => (nodup_plug hn).2 a' hmem (by simp [before, after, mem_of_top e])
        have hloop := ih (t := .node b (.node a' l r) r') hR hn rfl
          (by simp only [BinaryTree.numNodes] at hi ⊢; omega : i < _) (by omega : c.length < fuel)
        rw [lost_node_left b (.node a' l r) r' hi] at hloop
        simp only [above_left, if_neg hne]
        exact hloop
      | right b l' =>
        have heq : (m b).right = some a' := hP.2.2.1
        have hl : avlSize m (m b).left = told l' := by
          rw [hP.2.1, avlSize_top hP.2.2.2.1, told]
        have hloop := ih (t := .node b l' (.node a' l r)) (i := l'.numNodes + 1 + i) hR hn rfl
          (by simp only [BinaryTree.numNodes] at hi ⊢; omega) (by omega : c.length < fuel)
        have hlen : (before (.right b l' :: c)).length = (before c).length + (l'.numNodes + 1) := by
          simp [before, inorder_length]
        rw [lost_node_right b l' (.node a' l r) i] at hloop
        simp only [above_right, if_pos heq, hl, plug_right]
        have hrank : (i - 2 ^ 32 * lost (.node a' l r) i + ((1 + told l') % 2 ^ 32 : ℕ) : ℤ) =
            (l'.numNodes + 1 + i : ℕ) -
              2 ^ 32 * ((1 + l'.numNodes) / 2 ^ 32 + lost (.node a' l r) i : ℕ) := by
          simp only [told]
          omega
        rw [hrank, hloop, hlen, Nat.add_assoc (before c).length]
        congr 1
        omega

/-! ### In a sorted set -/

/-- **`znode_offset`** returns from a member with a member or `NULL`. -/
theorem znodeOffset_returns {z : ZSet} {t : BinaryTree Addr} (w : Wf z t) {node : Option Addr}
    (hn : ∀ a, node = some a → a ∈ inorder t) (offset : ℤ) :
    ∃ r, znodeOffset z node offset = .ok r ∧ ∀ b, r = some b → b ∈ inorder t := by
  cases node with
  | none => exact ⟨none, rfl, by simp⟩
  | some a =>
    have hle := w.toShape.numNodes_le
    obtain ⟨c, l, r, rfl⟩ := exists_path (hn a rfl)
    have hc := length_le_numNodes_plug c (.node a l r)
    have hlow := (plug c (.node a l r)).height_le_numNodes
    have hrounds : c.length + (plug c (.node a l r)).height ≤ 2 * z.rounds := by
      unfold ZSet.rounds
      omega
    obtain ⟨r', he, hmem, -⟩ := @avlOffset_returns _ _ _ _ _ _ _ 0 offset _ w.repr w.nodup hrounds
    exact ⟨r', he, hmem⟩

lemma position_unique {c : Path ρ} {a : ρ} {l r : BinaryTree ρ} {i : ℕ}
    (hn : (inorder (plug c (.node a l r))).Nodup)
    (hi : (inorder (plug c (.node a l r)))[i]? = some a) :
    i = (before c).length + l.numNodes := by
  have hpos : (inorder (plug c (.node a l r)))[(before c).length + l.numNodes]? = some a := by
    rw [← nth_natCast, Nat.cast_add, nth_plug c (by omega)
      (by simp only [BinaryTree.numNodes]; omega), nth_node_self]
  obtain ⟨hlt, h1⟩ := List.getElem?_eq_some_iff.mp hi
  obtain ⟨hlt', h2⟩ := List.getElem?_eq_some_iff.mp hpos
  exact (hn.getElem_inj_iff).mp (h1.trans h2.symm)

/-- **`avl_rank`** is the position of a node, less what its sizes lost. -/
theorem avlRank_rounds [DecidableEq ρ] {m : Links ρ} {t : BinaryTree ρ} {a : ρ} {i fuel : ℕ}
    (hR : Repr m none t) (hn : (inorder t).Nodup) (hi : (inorder t)[i]? = some a)
    (hf : t.height ≤ fuel) : avlRank fuel m a = .ok (i - 2 ^ 32 * lost t i : ℤ) := by
  obtain ⟨c, l, r, rfl⟩ := exists_path (List.mem_of_getElem? hi)
  obtain rfl := position_unique hn hi
  have hL := (pathRepr_plug hR).1.linked
  have hlen := length_add_height_le c (.node a l r)
  simp only [BinaryTree.height] at hlen
  have hloop := avlRankLoop_spec (i := l.numNodes) hR hn rfl
    (by simp only [BinaryTree.numNodes]; omega) (by omega : c.length < fuel)
  have hstart : ((told l : ℕ) : ℤ) = l.numNodes - 2 ^ 32 * lost (.node a l r) l.numNodes := by
    rw [lost, if_neg (Nat.lt_irrefl _), if_pos rfl]
    simp only [told]
    omega
  rw [avlRank, hL.left, avlSize_top hL.lrepr]
  change avlRankLoop fuel m a ((told l : ℕ) : ℤ) = _
  rw [hstart, hloop, Nat.cast_add]

theorem avlRank_spec [DecidableEq ρ] {m : Links ρ} {t : BinaryTree ρ} {a : ρ} {i fuel : ℕ}
    (hR : Repr m none t) (hn : (inorder t).Nodup) (hi : (inorder t)[i]? = some a)
    (hf : t.numNodes < fuel) : avlRank fuel m a = .ok (i - 2 ^ 32 * lost t i : ℤ) :=
  avlRank_rounds hR hn hi (t.height_le_numNodes.trans hf.le)

/-- **`avl_offset`** in a tree of small size. -/
theorem avlOffset_rounds [DecidableEq ρ] {m : Links ρ} {t : BinaryTree ρ} {a : ρ} {i fuel : ℕ}
    (hR : Repr m none t) (hn : (inorder t).Nodup) (hlt : t.numNodes < 2 ^ 32)
    (hi : (inorder t)[i]? = some a) (hf : 2 * t.height ≤ fuel) (offset : ℤ) :
    avlOffset fuel m a 0 offset = .ok (nth (inorder t) (i + offset)) := by
  obtain ⟨c, l, r, rfl⟩ := exists_path (List.mem_of_getElem? hi)
  obtain rfl := position_unique hn hi
  have hlen := length_add_height_le c (.node a l r)
  obtain ⟨r', he, -, hnth⟩ := @avlOffset_returns _ _ _ _ _ _ _ 0 offset fuel hR hn (by omega)
  rw [he, hnth hlt, Nat.cast_add, Int.sub_zero, Int.add_assoc]

theorem avlOffset_spec [DecidableEq ρ] {m : Links ρ} {t : BinaryTree ρ} {a : ρ} {i fuel : ℕ}
    (hR : Repr m none t) (hn : (inorder t).Nodup) (hlt : t.numNodes < 2 ^ 32)
    (hi : (inorder t)[i]? = some a) (hf : 2 * t.numNodes ≤ fuel) (offset : ℤ) :
    avlOffset fuel m a 0 offset = .ok (nth (inorder t) (i + offset)) :=
  avlOffset_rounds hR hn hlt hi (by have := t.height_le_numNodes; omega) offset

lemma avlRank_position {z : ZSet} {t : BinaryTree Addr} (w : Wf z t) {i : ℕ} {a : Addr}
    (hi : (inorder t)[i]? = some a) :
    avlRank z.rounds z.tree a = .ok (i - 2 ^ 32 * lost t i : ℤ) :=
  avlRank_spec w.repr w.nodup hi (Nat.lt_succ_of_le w.toShape.numNodes_le)

lemma avlRank_returns {z : ZSet} {t : BinaryTree Addr} (w : Wf z t) {a : Addr}
    (ha : a ∈ inorder t) : ∃ k, avlRank z.rounds z.tree a = .ok k := by
  obtain ⟨i, hi⟩ := List.mem_iff_getElem?.mp ha
  exact ⟨_, avlRank_position w hi⟩

/-- A member is before the pair searched for. -/
def before (z : ZSet) (score : Score) (name : Bytes) (a : Addr) : Bool :=
  (z.node a).any fun d => zlessPair d score name

lemma zsetSeekgeLoop_spec {z : ZSet} {score : Score} {name : Bytes} {t : BinaryTree Addr}
    {p : Option Addr} {fuel : ℕ} (hR : Repr z.tree p t) (hf : t.height < fuel)
    (hlive : ∀ a ∈ inorder t, ∃ d, z.node a = some d)
    (hmono : (inorder t).Pairwise fun x y => before z score name y → before z score name x)
    (found : Option Addr) :
    zsetSeekgeLoop fuel z score name (top t) found =
      .ok (((inorder t).find? fun a => !before z score name a).or found) := by
  induction t generalizing p fuel found with
  | nil =>
    obtain ⟨fuel, rfl⟩ : ∃ k, fuel = k + 1 := ⟨fuel - 1, by omega⟩
    rfl
  | node b l r ihl ihr =>
    obtain ⟨fuel, rfl⟩ : ∃ k, fuel = k + 1 := ⟨fuel - 1, by omega⟩
    simp only [BinaryTree.height] at hf
    obtain ⟨hb, hl, hr⟩ := hR
    rw [inorder_node, List.pairwise_append, List.pairwise_cons] at hmono
    obtain ⟨hml, ⟨-, hmr⟩, hlr⟩ := hmono
    obtain ⟨d, hd⟩ := hlive b (by simp)
    have hbef : before z score name b = zlessPair d score name := by simp [before, hd]
    rw [top_node, zsetSeekgeLoop]
    simp only [ZSet.deref, hd, pure_eq_ok, ok_bind, hb, ← hbef]
    rw [inorder_node, List.find?_append, List.find?_cons]
    by_cases h : before z score name b
    · rw [if_pos h, ihr hr (by omega) (fun a ha => hlive a (by simp [ha])) hmr]
      have hnone : (inorder l).find? (fun a => !before z score name a) = none := by
        rw [List.find?_eq_none]
        intro x hx
        simp [hlr x hx b (by simp) h]
      simp [hnone, h]
    · rw [if_neg h, ihl hl (by omega) (fun a ha => hlive a (by simp [ha])) hml]
      simp [h]

lemma before_mono {z : ZSet} {t : BinaryTree Addr} (w : Wf z t) (score : Score) (name : Bytes) :
    (inorder t).Pairwise fun x y => before z score name y → before z score name x := by
  refine w.sorted.imp_of_mem fun {x y} hx hy hxy => ?_
  obtain ⟨d, hd⟩ := w.allocated x hx
  obtain ⟨e, he⟩ := w.allocated y hy
  simp only [before, hd, he, Option.any_some, zlessPair_iff]
  exact (hxy d e hd he).trans

/-- **`zset_seekge`** finds the first member that is not before the pair. -/
theorem zsetSeekge_spec {z : ZSet} {t : BinaryTree Addr} (w : Wf z t) (score : Score)
    (name : Bytes) : zsetSeekge z score name =
      .ok ((inorder t).find? fun a => !before z score name a) := by
  have hdepth : t.height < z.rounds := w.toShape.enough t w.balanced le_rfl
  rw [zsetSeekge, w.root, zsetSeekgeLoop_spec w.repr hdepth w.allocated (before_mono w score name),
    Option.or_none]

end ByoRedis.MemberWalk
