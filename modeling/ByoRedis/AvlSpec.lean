import ByoRedis.DualIndex

/-!
The AVL tree in memory, as the sorted set uses it.

`WellFormed` is what a walk over the nodes can check: links that agree in both directions, exact
heights and sizes, balance. Attaching a leaf anywhere and detaching any node keep it.
-/

namespace ByoRedis.AvlSpec

open ByoRedis.Basic ByoRedis.Avl ByoRedis.AvlTree ByoRedis.AvlDel ByoRedis.SortedSet
open ByoRedis.MemberOrder ByoRedis.MemberTree ByoRedis.Lib.Trees
open ByoRedis.DualIndex (Exact exact_iff_repr)

/-- A tree of nodes below a root pointer. -/
structure WellFormed (m : Links Addr) (root : Option Addr) (t : BinaryTree Addr) : Prop where
  root : root = top t
  exact : Exact m none t
  nodup : (inorder t).Nodup
  balanced : Balanced t

lemma exact_link {m : Links Addr} {p : Option Addr} {t : BinaryTree Addr} (h : Exact m p t)
    {x y : Addr} (hx : x ∈ inorder t)
    (hy : (m x).left = some y ∨ (m x).right = some y ∨ (m x).parent = some y) :
    y ∈ inorder t ∨ p = some y := by
  induction t generalizing p with
  | nil => simp at hx
  | node a l r ihl ihr =>
    obtain ⟨ha, hl, hr⟩ := h
    rw [inorder_node, List.mem_append, List.mem_cons] at hx ⊢
    rcases hx with hx | rfl | hx
    · rcases ihl hl hx with h | h
      · exact .inl (.inl h)
      · exact .inl (.inr (.inl (Option.some.inj h).symm))
    · rw [ha] at hy
      rcases hy with hy | hy | hy
      · exact .inl (.inl (mem_of_top hy))
      · exact .inl (.inr (.inr (mem_of_top hy)))
      · exact .inr hy
    · rcases ihr hr hx with h | h
      · exact .inl (.inr (.inr h))
      · exact .inl (.inr (.inl (Option.some.inj h).symm))

/-! ### Insertion -/

/-- The node a slot belongs to. -/
def slotParent : Slot Addr → Option Addr
  | .root => none
  | .left p => some p
  | .right p => some p

/-- A new leaf, stored in a slot and linked to its parent. -/
def attach (m : Links Addr) (slot : Slot Addr) (node : Addr) : Links Addr :=
  setParent (slot.write (avlInit m node) (some node)) node (slotParent slot)

/-- The nodes left and right of an empty slot: its node is the first one on the right of its
left slot, and the last one on the left of its right slot. -/
def Splits : Slot Addr → List Addr → List Addr → Prop
  | .root, xs, ys => xs = [] ∧ ys = []
  | .left p, _, ys => ys.head? = some p
  | .right p, xs, _ => xs.getLast? = some p

lemma exists_place {m : Links Addr} {root : Option Addr} {t : BinaryTree Addr}
    (hroot : root = top t) (h : Repr m none t) {slot : Slot Addr} (hs : slot.read root m = none)
    (hp : ∀ p, slotParent slot = some p → p ∈ inorder t) :
    ∃ c : Path Addr, plug c .nil = t ∧ slotAt c = slot ∧ above c = slotParent slot ∧
      Splits slot (before c) (after c) := by
  cases slot with
  | root =>
    obtain rfl : t = .nil := top_eq_none.mp (hroot.symm.trans hs)
    exact ⟨[], rfl, rfl, rfl, rfl, rfl⟩
  | left p =>
    obtain ⟨c, l, r, rfl⟩ := exists_path (hp p rfl)
    have hl : (m p).left = top l := (pathRepr_plug h).1.linked.left
    obtain rfl : l = .nil := top_eq_none.mp (hl.symm.trans hs)
    exact ⟨.left p r :: c, rfl, rfl, rfl, rfl⟩
  | right p =>
    obtain ⟨c, l, r, rfl⟩ := exists_path (hp p rfl)
    have hr : (m p).right = top r := (pathRepr_plug h).1.linked.right
    obtain rfl : r = .nil := top_eq_none.mp (hr.symm.trans hs)
    refine ⟨.right p l :: c, rfl, rfl, rfl, ?_⟩
    simp [Splits, before]

/-- **A leaf attached to an empty slot** goes where the slot is, and the tree is fixed. -/
theorem avlFix_attach {m : Links Addr} {root : Option Addr} {t : BinaryTree Addr}
    (w : WellFormed m root t) (hlt : t.numNodes < 2 ^ 32 - 1) {slot : Slot Addr}
    (hs : slot.read root m = none) (hp : ∀ p, slotParent slot = some p → p ∈ inorder t)
    {node : Addr} (hn : node ∉ inorder t) {fuel : ℕ} (hf : t.numNodes < fuel) :
    ∃ m' root' t' xs ys, avlFix fuel (attach m slot node) node = .ok (m', root') ∧
      WellFormed m' (some root') t' ∧ inorder t = xs ++ ys ∧ inorder t' = xs ++ node :: ys ∧
      Splits slot xs ys ∧ ∀ x ∉ node :: inorder t, m' x = m x := by
  have h := (exact_iff_repr (by omega)).mp w.exact
  obtain ⟨c, rfl, rfl, hab, hsplit⟩ := exists_place w.root h hs hp
  have hinit : ∀ x ∈ inorder (plug c .nil), avlInit m node x = m x := fun x hx =>
    Function.update_of_ne (by rintro rfl; exact hn hx) ..
  have hlen := length_le_numNodes_plug c .nil
  obtain ⟨m', root', t', he, htop, hR, hb, hord, hfr⟩ := avlFix_leaf (h.congr hinit) w.nodup
    w.balanced hn (by simp [avlInit]) (by simp [avlInit]) (hlen.trans_lt hf)
  have hin : inorder (plug c .nil) = before c ++ after c := by
    rw [inorder_plug, inorder_nil, List.append_nil]
  have hperm : (inorder t').Perm (node :: inorder (plug c .nil)) := by
    rw [hord, hin]
    exact List.perm_middle
  have hcount : t'.numNodes = (plug c .nil).numNodes + 1 := by
    rw [← inorder_length, hperm.length_eq, List.length_cons, inorder_length]
  refine ⟨m', root', t', before c, after c, by rw [attach, ← hab]; exact he,
    ⟨htop.symm, (exact_iff_repr (by omega)).mpr hR, ?_, hb⟩, hin, hord, hsplit, fun x hx => ?_⟩
  · exact hperm.nodup_iff.mpr (List.nodup_cons.mpr ⟨hn, w.nodup⟩)
  · rw [hfr x hx]
    exact Function.update_of_ne (fun e => hx (by simp [e])) ..

def Sorted (z : ZSet) (nodes : List Addr) : Prop :=
  nodes.Pairwise fun x y => zless z y x = .ok false

lemma exists_order (z : ZSet) : ∃ rk : Addr → ℤ ×ₗ List ℕ, ∀ a b d e, z.node a = some d →
    z.node b = some e → zless z a b = .ok (decide (rk a < rk b)) := by
  obtain ⟨rk, hrk⟩ := exists_rank z (rank ⟨0, rfl⟩ [])
  refine ⟨rk, fun a b d e ha hb => ?_⟩
  rw [zless_eq ha hb, hrk a d ha, hrk b e hb]

/-- **`tree_insert`** goes past the nodes that are not greater, and keeps the order. -/
theorem treeInsert_sorted {z : ZSet} {t : BinaryTree Addr} (w : WellFormed z.tree z.root t)
    (hlt : t.numNodes < 2 ^ 32 - 1) {node : Addr}
    (hall : ∀ a ∈ node :: inorder t, (∃ d, z.node a = some d) ∧ a < z.fresh)
    (hn : node ∉ inorder t) (hleaf : z.tree node = ⟨none, none, none, 1, 1⟩)
    (hs : Sorted z (inorder t)) :
    ∃ z' t' xs ys, treeInsert z node = .ok z' ∧ WellFormed z'.tree z'.root t' ∧
      inorder t = xs ++ ys ∧ inorder t' = xs ++ node :: ys ∧
      (∀ x ∈ xs, zless z node x = .ok false) ∧ (∀ y ∈ ys, zless z node y = .ok true) ∧
      Sorted z' (inorder t') := by
  obtain ⟨rk, hrk⟩ := exists_order z
  have hless : ∀ a ∈ node :: inorder t, ∀ b ∈ node :: inorder t,
      zless z a b = .ok (decide (rk a < rk b)) := by
    intro a ha b hb
    obtain ⟨⟨d, hd⟩, -⟩ := hall a ha
    obtain ⟨⟨e, he⟩, -⟩ := hall b hb
    exact hrk a b d e hd he
  have hmem : ∀ x ∈ inorder t, x ∈ node :: inorder t := fun x => List.mem_cons_of_mem node
  have hmono : (inorder t).Pairwise fun x y =>
      decide (rk node < rk x) = true → decide (rk node < rk y) = true := by
    refine hs.imp_of_mem fun {x y} hx hy hxy => ?_
    rw [hless y (hmem y hy) x (hmem x hx), Except.ok.injEq, decide_eq_false_iff_not, not_lt] at hxy
    simp only [decide_eq_true_eq]
    exact fun h => h.trans_le hxy
  have hrounds : t.numNodes < z.rounds := by
    rw [← inorder_length, ZSet.rounds, Nat.lt_succ_iff, ← List.length_range (n := z.fresh)]
    exact (w.nodup.subperm fun a ha => List.mem_range.mpr (hall a (hmem a ha)).2).length_le
  obtain ⟨m', b, t', xs, ys, he, htop, hR, hb, hin, hin', hxs, hys⟩ :=
    treeInsert_place w.root ((exact_iff_repr (by omega)).mp w.exact) w.nodup w.balanced hrounds
      (fun b hb => hless node (by simp) b (hmem b hb)) hmono hn (by rw [hleaf]) (by rw [hleaf])
  have hperm : (inorder t').Perm (node :: inorder t) := by
    rw [hin, hin']
    exact List.perm_middle
  have hcount : t'.numNodes = t.numNodes + 1 := by
    rw [← inorder_length, hperm.length_eq, List.length_cons, inorder_length]
  have hx : ∀ x ∈ xs, zless z node x = .ok false := by
    intro x hx
    rw [hless node (by simp) x (hmem x (by simp [hin, hx])), hxs x hx]
  have hy : ∀ y ∈ ys, zless z node y = .ok true := by
    intro y hy
    rw [hless node (by simp) y (hmem y (by simp [hin, hy])), hys y hy]
  have hexact := (exact_iff_repr (by omega)).mpr hR
  refine ⟨_, t', xs, ys, he, ⟨htop.symm, hexact, ?_, hb⟩, hin, hin', hx, hy, ?_⟩
  · exact hperm.nodup_iff.mpr (List.nodup_cons.mpr ⟨hn, w.nodup⟩)
  · -- the order is that of the nodes, which are not changed
    have hs' : (xs ++ ys).Pairwise fun x y => zless z y x = .ok false := hin ▸ hs
    obtain ⟨hsx, hsy, hsxy⟩ := List.pairwise_append.mp hs'
    rw [hin']
    refine List.pairwise_append.mpr ⟨hsx, List.pairwise_cons.mpr ⟨fun y hyy => ?_, hsy⟩,
      fun x hxx y hyy => ?_⟩
    · have hgt : rk node < rk y := of_decide_eq_true (hys y hyy)
      have hle : decide (rk y < rk node) = false := decide_eq_false hgt.asymm
      rw [← hle]
      exact hless y (hmem y (by simp [hin, hyy])) node (by simp)
    · rcases List.mem_cons.mp hyy with rfl | hyy
      · exact hx x hxx
      · exact hsxy x hxx y hyy

/-- **Insertion**: `avl_fix` on a leaf attached anywhere, and `tree_insert` in a sorted tree. -/
theorem insertion :
    (∀ (m : Links Addr) (root : Option Addr) (t : BinaryTree Addr) (slot : Slot Addr) (node : Addr)
      (fuel : ℕ), WellFormed m root t → t.numNodes < 2 ^ 32 - 1 → slot.read root m = none →
      (∀ p, slotParent slot = some p → p ∈ inorder t) → node ∉ inorder t → t.numNodes < fuel →
      ∃ m' root' t' xs ys, avlFix fuel (attach m slot node) node = .ok (m', root') ∧
        WellFormed m' (some root') t' ∧ inorder t = xs ++ ys ∧ inorder t' = xs ++ node :: ys ∧
        Splits slot xs ys ∧ ∀ x ∉ node :: inorder t, m' x = m x) ∧
    ∀ (z : ZSet) (t : BinaryTree Addr) (node : Addr), WellFormed z.tree z.root t →
      t.numNodes < 2 ^ 32 - 1 →
      (∀ a ∈ node :: inorder t, (∃ d, z.node a = some d) ∧ a < z.fresh) → node ∉ inorder t →
      z.tree node = ⟨none, none, none, 1, 1⟩ → Sorted z (inorder t) →
      ∃ z' t' xs ys, treeInsert z node = .ok z' ∧ WellFormed z'.tree z'.root t' ∧
        inorder t = xs ++ ys ∧ inorder t' = xs ++ node :: ys ∧
        (∀ x ∈ xs, zless z node x = .ok false) ∧ (∀ y ∈ ys, zless z node y = .ok true) ∧
        Sorted z' (inorder t') :=
  ⟨fun _ _ _ _ _ _ w hlt hs hp hn hf => avlFix_attach w hlt hs hp hn hf,
    fun _ _ _ w hlt hall hn hleaf hs => treeInsert_sorted w hlt hall hn hleaf hs⟩

def chain : Links Addr :=
  Function.update (Function.update (fun _ => {}) 0 ⟨none, none, some 1, 2, 2⟩) 1
    ⟨some 0, none, none, 1, 1⟩

lemma wellFormed_chain (node : Addr) (h : node ≠ 0 ∧ node ≠ 1) :
    WellFormed (avlInit chain node) (some 0) (.node 0 .nil (.node 1 .nil .nil)) := by
  have hsame : ∀ x, x ≠ node → avlInit chain node x = chain x := fun x hx =>
    Function.update_of_ne hx ..
  refine ⟨rfl, ⟨?_, trivial, ?_, trivial, trivial⟩, by decide, by simp [Lib.Trees.Balanced]⟩
  · rw [hsame 0 h.1.symm]
    rfl
  · rw [hsame 1 h.2.symm]
    rfl

/-- Three members with equal scores, the first two of them in a tree. -/
def twoOfThree : ZSet where
  root := some 0
  tree := avlInit chain 2
  node := fun a => if a < 3 then some ⟨0, ⟨0, notNan_zero⟩, [UInt8.ofNat a]⟩ else none
  fresh := 3

/-- Both ways the leaf goes below the right child of the root, which is then rotated. -/
theorem insertion_rotated :
    (∃ m' root' t' xs ys,
      avlFix 3 (attach (avlInit chain 2) (.right 1) 2) 2 = .ok (m', root') ∧
        WellFormed m' (some root') t' ∧ [0, 1] = xs ++ ys ∧ inorder t' = xs ++ 2 :: ys ∧
        Splits (.right 1) xs ys ∧ ∀ x ∉ [2, 0, 1], m' x = avlInit chain 2 x) ∧
    ∃ z' t' xs ys, treeInsert twoOfThree 2 = .ok z' ∧
      WellFormed z'.tree z'.root t' ∧ [0, 1] = xs ++ ys ∧ inorder t' = xs ++ 2 :: ys ∧
      (∀ x ∈ xs, zless twoOfThree 2 x = .ok false) ∧
      (∀ y ∈ ys, zless twoOfThree 2 y = .ok true) ∧ Sorted z' (inorder t') := by
  have w := wellFormed_chain 2 (by decide)
  constructor
  · exact insertion.1 _ _ _ (.right 1) 2 3 w (by decide) rfl (by simp [slotParent])
      (by decide) (by decide)
  · refine insertion.2 twoOfThree (.node 0 .nil (.node 1 .nil .nil)) 2 w (by decide) ?_
      (by decide) rfl (by unfold Sorted; decide)
    intro a ha
    have hlt : a < 3 := by
      revert a
      decide
    exact ⟨⟨_, if_pos hlt⟩, hlt⟩

/-! ### Deletion -/

/-- **Deletion** leaves a well-formed tree of the other nodes, and no link to the node. -/
theorem deletion {m : Links Addr} {root : Option Addr} {t : BinaryTree Addr}
    (w : WellFormed m root t) (hlt : t.numNodes < 2 ^ 32) {node : Addr} (hn : node ∈ inorder t)
    {fuel : ℕ} (hf : t.numNodes ≤ fuel) :
    ∃ m' root' t', avlDel fuel m node = .ok (m', root') ∧ WellFormed m' root' t' ∧
      inorder t' = (inorder t).erase node ∧ (root' = none ↔ inorder t = [node]) ∧
      (∀ x ∈ inorder t', (m' x).left ≠ some node ∧ (m' x).right ≠ some node ∧
        (m' x).parent ≠ some node) ∧
      ∀ x ∉ inorder t, m' x = m x := by
  obtain ⟨c, l, r, rfl⟩ := exists_path hn
  obtain ⟨m', t', he, hR, hord, hb, hfr⟩ :=
    avlDel_spec ((exact_iff_repr hlt).mp w.exact) w.nodup w.balanced hf
  have hin : inorder (plug c (.node node l r)) =
      (before c ++ inorder l) ++ node :: (inorder r ++ after c) := by
    rw [inorder_plug, inorder_node]
    simp
  have hin' : inorder t' = (before c ++ inorder l) ++ (inorder r ++ after c) := by
    rw [hord]
    simp
  have hperm : (inorder (plug c (.node node l r))).Perm (node :: inorder t') := by
    rw [hin, hin']
    exact List.perm_middle
  obtain ⟨hnot, hnd⟩ := List.nodup_cons.mp (hperm.nodup_iff.mp w.nodup)
  have hcount : t'.numNodes < 2 ^ 32 := by
    have h := hperm.length_eq
    rw [inorder_length, List.length_cons, inorder_length] at h
    omega
  have hexact := (exact_iff_repr hcount).mpr hR
  have hlink : ∀ x ∈ inorder t', ¬ ((m' x).left = some node ∨ (m' x).right = some node ∨
      (m' x).parent = some node) := fun x hx hy =>
    (exact_link hexact hx hy).elim hnot (by simp)
  refine ⟨m', top t', t', he, ⟨rfl, hexact, hnd, hb⟩, ?_, ?_, fun x hx => ?_, hfr⟩
  · have hbef : node ∉ before c ++ inorder l := fun h =>
      hnot (by rw [hin']; exact List.mem_append_left _ h)
    rw [hin, hin', List.erase_append_right _ hbef, List.erase_cons_head]
  · rw [top_eq_none, ← inorder_eq_nil, ← List.perm_singleton]
    constructor
    · intro h
      rwa [h] at hperm
    · intro h
      have hnil := (hperm.symm.trans h).length_eq
      simpa using hnil
  · have := hlink x hx
    rw [not_or, not_or] at this
    exact this

def threeNodes : Links Addr :=
  Function.update (Function.update (Function.update (fun _ => {}) 1 ⟨none, some 0, some 2, 2, 3⟩) 0
    ⟨some 1, none, none, 1, 1⟩) 2 ⟨some 1, none, none, 1, 1⟩

lemma wellFormed_threeNodes : WellFormed threeNodes (some 1)
    (.node 1 (.node 0 .nil .nil) (.node 2 .nil .nil)) :=
  ⟨rfl, ⟨rfl, ⟨rfl, trivial, trivial⟩, rfl, trivial, trivial⟩, by decide,
    by simp [Lib.Trees.Balanced]⟩

theorem deletion_inner : ∃ m' root' t', avlDel 3 threeNodes 1 = .ok (m', root') ∧
    WellFormed m' root' t' ∧ inorder t' = [0, 2] ∧ (root' = none ↔ [0, 1, 2] = [1]) ∧
    (∀ x ∈ inorder t', (m' x).left ≠ some 1 ∧ (m' x).right ≠ some 1 ∧ (m' x).parent ≠ some 1) ∧
    ∀ x ∉ [0, 1, 2], m' x = threeNodes x :=
  deletion wellFormed_threeNodes (by decide) (by decide) (Nat.le_refl 3)

end ByoRedis.AvlSpec
