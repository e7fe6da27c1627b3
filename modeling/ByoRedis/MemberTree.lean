import Mathlib.Data.List.Perm.Subperm
import ByoRedis.AvlDel
import ByoRedis.MemberOrder

/-!
The tree of a sorted set under insertion and under a change of score.
-/

namespace ByoRedis.MemberTree

open ByoRedis.Basic ByoRedis.Avl ByoRedis.SortedSet ByoRedis.MemberOrder
open ByoRedis.AvlTree ByoRedis.AvlFix ByoRedis.AvlDel ByoRedis.Lib.Trees ByoRedis.Lib.Runs

/-- A member comes before another. -/
def Below (node : Addr → Option ZNode) (a b : Addr) : Prop :=
  ∀ d e, node a = some d → node b = some e → rank d.score d.name < rank e.score e.name

/-- The tree of a set: linked, balanced, over allocated nodes in their order. -/
structure Shape (z : ZSet) (t : BinaryTree Addr) : Prop where
  root : z.root = top t
  repr : Repr z.tree none t
  nodup : (inorder t).Nodup
  balanced : Balanced t
  allocated : ∀ a ∈ inorder t, ∃ d, z.node a = some d
  fresh : ∀ a ∈ inorder t, a < z.fresh
  sorted : (inorder t).Pairwise (Below z.node)

lemma Shape.numNodes_le {z : ZSet} {t : BinaryTree Addr} (s : Shape z t) :
    t.numNodes ≤ z.fresh := by
  rw [← inorder_length]
  have hsub : inorder t ⊆ List.range z.fresh := fun a ha => List.mem_range.mpr (s.fresh a ha)
  have h := (s.nodup.subperm hsub).length_le
  rwa [List.length_range] at h

/-- Rounds that suffice to go down every balanced tree of so many nodes. -/
def Enough (rounds n : ℕ) : Prop :=
  ∀ t : BinaryTree Addr, Balanced t → t.numNodes ≤ n → t.height < rounds

lemma Enough.of_lt {rounds n : ℕ} (h : n < rounds) : Enough rounds n := fun t _ ht =>
  Nat.lt_of_le_of_lt t.height_le_numNodes (Nat.lt_of_le_of_lt ht h)

lemma Shape.enough {z : ZSet} {t : BinaryTree Addr} (s : Shape z t) :
    Enough z.rounds t.numNodes := .of_lt (Nat.lt_succ_of_le s.numNodes_le)

/-- `tree_insert`, given the rounds that each of its loops may take. -/
def treeInsertIn (rounds : ℕ) (zset : ZSet) (node : Addr) : Eff ZSet := do
  let (parent, frm) ← treeInsertLoop rounds zset node none .root
  let tree := setParent (frm.write zset.tree (some node)) node parent
  let (tree, root) ← avlFix rounds tree node
  pure { zset with tree := tree, root := some root }

/-- `zset_update`, given the rounds that each of its loops may take. -/
def zsetUpdateIn (rounds : ℕ) (zset : ZSet) (node : Addr) (score : Score) : Eff ZSet := do
  let (tree, root) ← avlDel rounds zset.tree node
  let d ← zset.deref node
  treeInsertIn rounds { zset with
    root := root
    tree := avlInit tree node
    node := Function.update zset.node node (some { d with score := score }) } node

/-- The link at the lower end of a path. -/
def slotAt : Path Addr → Slot Addr
  | [] => .root
  | .left b _ :: _ => .left b
  | .right b _ :: _ => .right b

lemma slotAt_read {m : Links Addr} {root : Option Addr} {c : Path Addr} {t : BinaryTree Addr}
    (hroot : root = top (plug c t)) (hc : PathRepr m c (top t)) :
    (slotAt c).read root m = top t := by
  match c with
  | [] => exact hroot
  | .left b r :: c => exact hc.2.1
  | .right b l :: c => exact hc.2.2.1

lemma treeInsertLoop_spec {z : ZSet} {a : Addr}
    {t : BinaryTree Addr} {left : Addr → Bool} (hleft : ∀ b ∈ inorder t, zless z a b = .ok (left b))
    {c : Path Addr} {fuel : ℕ} (hf : t.height < fuel) (hroot : z.root = top (plug c t))
    (hR : Repr z.tree none (plug c t)) :
    treeInsertLoop fuel z a (above c) (slotAt c) =
      .ok (above (descend left t c), slotAt (descend left t c)) := by
  induction t generalizing c fuel with
  | nil =>
    obtain ⟨fuel, rfl⟩ : ∃ k, fuel = k + 1 := ⟨fuel - 1, by omega⟩
    rw [treeInsertLoop, slotAt_read hroot (pathRepr_plug hR).2]
    rfl
  | node b l r ihl ihr =>
    obtain ⟨fuel, rfl⟩ : ∃ k, fuel = k + 1 := ⟨fuel - 1, by omega⟩
    simp only [BinaryTree.height] at hf
    rw [treeInsertLoop, slotAt_read hroot (pathRepr_plug hR).2, top_node]
    simp only [hleft b (by simp), ok_bind]
    rw [descend]
    cases left b with
    | true =>
      exact ihl (fun x hx => hleft x (by simp [hx])) (c := .left b r :: c) (by omega) hroot hR
    | false =>
      exact ihr (fun x hx => hleft x (by simp [hx])) (c := .right b l :: c) (by omega) hroot hR

lemma pathRepr_write {m : Links Addr} {c : Path Addr} {h : Option Addr} (hc : PathRepr m c h)
    (hnd : (inorder (plug c .nil)).Nodup) (v : Option Addr) :
    PathRepr ((slotAt c).write m v) c v ∧
      ∀ x ∉ inorder (plug c .nil), (slotAt c).write m v x = m x := by
  match c with
  | [] => exact ⟨trivial, fun x _ => rfl⟩
  | .left b r :: c =>
    obtain ⟨h1, -, h3, hr, hc⟩ := hc
    obtain ⟨hn, hout⟩ := nodup_plug (c := c) (by simpa only [plug_left] using hnd)
    obtain ⟨-, hbr, -⟩ := nodup_node.mp hn
    refine ⟨⟨by simp [slotAt, Slot.write, h1], by simp [slotAt, Slot.write],
      by simp [slotAt, Slot.write, h3], ?_, ?_⟩, fun x hx => setLeft_ne ?_ _⟩
    · exact hr.congr fun x hx => setLeft_ne (by rintro rfl; exact hbr hx) _
    · exact hc.congr fun x hx => setLeft_ne (by rintro rfl; exact hout x (by simp) hx) _
    · rintro rfl
      exact hx (mem_plug.mpr (.inr (by simp [before, after])))
  | .right b l :: c =>
    obtain ⟨h1, h2, -, hl, hc⟩ := hc
    obtain ⟨hn, hout⟩ := nodup_plug (c := c) (by simpa only [plug_right] using hnd)
    obtain ⟨hbl, -⟩ := nodup_node.mp hn
    refine ⟨⟨by simp [slotAt, Slot.write, h1], by simp [slotAt, Slot.write, h2],
      by simp [slotAt, Slot.write], ?_, ?_⟩, fun x hx => setRight_ne ?_ _⟩
    · exact hl.congr fun x hx => setRight_ne (by rintro rfl; exact hbl hx) _
    · exact hc.congr fun x hx => setRight_ne (by rintro rfl; exact hout x (by simp) hx) _
    · rintro rfl
      exact hx (mem_plug.mpr (.inr (by simp [before, after])))

lemma link_leaf {m : Links Addr} {c : Path Addr} {a : Addr} (hc : PathRepr m c none)
    (hnd : (inorder (plug c .nil)).Nodup) (ha : a ∉ inorder (plug c .nil))
    (hl : (m a).left = none) (hr : (m a).right = none) :
    Linked (setParent ((slotAt c).write m (some a)) a (above c)) (above c) a .nil .nil ∧
      PathRepr (setParent ((slotAt c).write m (some a)) a (above c)) c (some a) ∧
      ∀ x ∉ a :: inorder (plug c .nil),
        setParent ((slotAt c).write m (some a)) a (above c) x = m x := by
  obtain ⟨hw, hf⟩ := pathRepr_write hc hnd (some a)
  have hwa := hf a ha
  refine ⟨⟨by simp, by simp [hwa, hl], by simp [hwa, hr], trivial, trivial⟩, ?_, fun x hx => ?_⟩
  · refine hw.congr fun x hx => setParent_ne ?_ _
    rintro rfl
    exact ha (mem_plug.mpr (.inr hx))
  · rw [List.mem_cons, not_or] at hx
    rw [setParent_ne hx.1, hf x hx.2]

lemma avlFix_leaf {m : Links Addr} {c : Path Addr} {a : Addr} {fuel : ℕ}
    (h : Repr m none (plug c .nil)) (hnd : (inorder (plug c .nil)).Nodup)
    (hb : Balanced (plug c .nil)) (ha : a ∉ inorder (plug c .nil)) (hl : (m a).left = none)
    (hr : (m a).right = none) (hlen : c.length < fuel) :
    ∃ m' b t', avlFix fuel (setParent ((slotAt c).write m (some a)) a (above c)) a = .ok (m', b) ∧
      top t' = some b ∧ Repr m' none t' ∧ Balanced t' ∧
      inorder t' = before c ++ a :: after c ∧ ∀ x ∉ a :: inorder (plug c .nil), m' x = m x := by
  obtain ⟨hL, hP, hf⟩ := link_leaf (pathRepr_plug h).2 hnd ha hl hr
  have hnew : inorder (plug c (.node a .nil .nil)) = before c ++ a :: after c := by
    rw [inorder_plug, inorder_node]
    simp
  have hperm : (before c ++ a :: after c).Perm (a :: inorder (plug c .nil)) := by
    rw [inorder_plug, inorder_nil, List.append_nil]
    exact List.perm_middle
  obtain ⟨m', b, he, hR, htop, hf'⟩ := avlFix_spec hL hP
    (by rw [hnew]; exact hperm.nodup_iff.mpr (List.nodup_cons.mpr ⟨ha, hnd⟩)) hlen
  have hfit := ((balanced_plug c .nil).mp hb).2
  refine ⟨m', b, _, he, htop, hR, ?_, ?_, fun x hx => ?_⟩
  · exact fixUp_balanced (by simp [rebalance, Lib.Trees.Balanced]) hfit (by simp [rebalance])
      (by simp)
  · rw [inorder_fixUp, inorder_rebalance, ← hnew, inorder_plug, inorder_node]
  · rw [hf' x (by rw [hnew, hperm.mem_iff]; exact hx), hf x hx]

/-- **`tree_insert`** puts a node after those it is not less than. -/
lemma treeInsertIn_place {z : ZSet} {t : BinaryTree Addr} (hroot : z.root = top t)
    (h : Repr z.tree none t) (hnd : (inorder t).Nodup) (hb : Balanced t) {rounds : ℕ}
    (hf : t.height < rounds) {a : Addr} {left : Addr → Bool}
    (hleft : ∀ b ∈ inorder t, zless z a b = .ok (left b))
    (hmono : (inorder t).Pairwise fun x y => left x → left y) (ha : a ∉ inorder t)
    (hl : (z.tree a).left = none) (hr : (z.tree a).right = none) :
    ∃ m' b t' xs ys, treeInsertIn rounds z a = .ok { z with tree := m', root := some b } ∧
      top t' = some b ∧ Repr m' none t' ∧ Balanced t' ∧ inorder t = xs ++ ys ∧
      inorder t' = xs ++ a :: ys ∧ (∀ x ∈ xs, left x = false) ∧ ∀ y ∈ ys, left y = true := by
  obtain ⟨xs, ys, hin, hbef, haft, hxs, hys⟩ := descend_sides hmono []
  have hloop := treeInsertLoop_spec hleft (c := []) hf hroot h
  generalize hc : descend left t [] = c at hbef haft hloop
  have hplug : plug c .nil = t := by rw [← hc, plug_descend, plug_nil]
  have hlen := Nat.le_of_add_right_le (length_add_height_le c .nil)
  rw [← hplug] at h hnd hb ha hf
  obtain ⟨m', b, t', he, htop, hR, hbal, hord, -⟩ :=
    avlFix_leaf h hnd hb ha hl hr (hlen.trans_lt hf)
  refine ⟨m', b, t', xs, ys, ?_, htop, hR, hbal, hin, ?_, hxs, hys⟩
  · have hloop : treeInsertLoop rounds z a none .root = .ok (above c, slotAt c) := hloop
    simp only [treeInsertIn, hloop, ok_bind, he, pure_eq_ok]
  · rw [hord, hbef, haft]
    simp [before, after]

lemma treeInsert_place {z : ZSet} {t : BinaryTree Addr} (hroot : z.root = top t)
    (h : Repr z.tree none t) (hnd : (inorder t).Nodup) (hb : Balanced t)
    (hf : t.numNodes < z.rounds) {a : Addr} {left : Addr → Bool}
    (hleft : ∀ b ∈ inorder t, zless z a b = .ok (left b))
    (hmono : (inorder t).Pairwise fun x y => left x → left y) (ha : a ∉ inorder t)
    (hl : (z.tree a).left = none) (hr : (z.tree a).right = none) :
    ∃ m' b t' xs ys, treeInsert z a = .ok { z with tree := m', root := some b } ∧
      top t' = some b ∧ Repr m' none t' ∧ Balanced t' ∧ inorder t = xs ++ ys ∧
      inorder t' = xs ++ a :: ys ∧ (∀ x ∈ xs, left x = false) ∧ ∀ y ∈ ys, left y = true :=
  treeInsertIn_place hroot h hnd hb (Nat.lt_of_le_of_lt t.height_le_numNodes hf) hleft hmono ha
    hl hr

/-- The set a step on its tree leaves: the same nodes over new links. -/
structure Relinked (z z' : ZSet) : Prop where
  hmap : z'.hmap = z.hmap
  node : z'.node = z.node
  fresh : z'.fresh = z.fresh

lemma sorted_insert {node : Addr → Option ZNode} {xs ys : List Addr} {a : Addr} {d : ZNode}
    (hs : (xs ++ ys).Pairwise (Below node)) (ha : node a = some d)
    (hx : ∀ x ∈ xs, ∀ e, node x = some e → rank e.score e.name < rank d.score d.name)
    (hy : ∀ y ∈ ys, ∀ e, node y = some e → rank d.score d.name < rank e.score e.name) :
    (xs ++ a :: ys).Pairwise (Below node) := by
  obtain ⟨hxs, hys, hxy⟩ := List.pairwise_append.mp hs
  refine List.pairwise_append.mpr ⟨hxs, List.pairwise_cons.mpr ⟨fun y hm e₁ e₂ h₁ h₂ => ?_, hys⟩,
    fun x hm y hm' => ?_⟩
  · rw [ha, Option.some.injEq] at h₁
    subst h₁
    exact hy y hm e₂ h₂
  · rcases List.mem_cons.mp hm' with rfl | hm'
    · intro e₁ e₂ h₁ h₂
      rw [ha, Option.some.injEq] at h₂
      subst h₂
      exact hx x hm e₁ h₁
    · exact hxy x hm y hm'

lemma exists_rank (z : ZSet) (r : ℤ ×ₗ List ℕ) : ∃ rk : Addr → ℤ ×ₗ List ℕ,
    ∀ b e, z.node b = some e → rk b = rank e.score e.name :=
  ⟨fun b => ((z.node b).map fun e => rank e.score e.name).getD r, fun b e he => by simp [he]⟩

/-- **`tree_insert`** puts a node with a new name where it belongs. -/
theorem treeInsertIn_spec {z : ZSet} {t : BinaryTree Addr} (s : Shape z t) {rounds : ℕ}
    (hf : Enough rounds t.numNodes) {a : Addr} {d : ZNode}
    (ha : z.node a = some d) (hat : a ∉ inorder t) (haf : a < z.fresh)
    (hl : (z.tree a).left = none) (hr : (z.tree a).right = none)
    (hname : ∀ b ∈ inorder t, ∀ e, z.node b = some e → e.name ≠ d.name) :
    ∃ z' t', treeInsertIn rounds z a = .ok z' ∧ Shape z' t' ∧
      (inorder t').Perm (a :: inorder t) ∧ Relinked z z' := by
  obtain ⟨rk, hrk⟩ := exists_rank z (rank d.score d.name)
  obtain ⟨left, hleft⟩ : ∃ left : Addr → Bool, ∀ b, left b = decide (rank d.score d.name < rk b) :=
    ⟨_, fun _ => rfl⟩
  have hless : ∀ b ∈ inorder t, zless z a b = .ok (left b) := by
    intro b hb
    obtain ⟨e, he⟩ := s.allocated b hb
    rw [zless_eq ha he, hleft, hrk b e he]
  have hmono : (inorder t).Pairwise fun x y => left x → left y := by
    refine s.sorted.imp_of_mem fun {x y} hx hy hxy => ?_
    obtain ⟨e, he⟩ := s.allocated x hx
    obtain ⟨e', he'⟩ := s.allocated y hy
    rw [hleft, hleft, decide_eq_true_eq, decide_eq_true_eq, hrk x e he, hrk y e' he']
    exact fun h => h.trans (hxy e e' he he')
  obtain ⟨m', b, t', xs, ys, he, htop, hR, hbal, hin, hin', hxs, hys⟩ :=
    treeInsertIn_place s.root s.repr s.nodup s.balanced (hf t s.balanced le_rfl) hless
      hmono hat hl hr
  have hperm : (inorder t').Perm (a :: inorder t) := by
    rw [hin, hin']
    exact List.perm_middle
  refine ⟨_, t', he, ⟨htop.symm, hR, ?_, hbal, fun x hx => ?_, fun x hx => ?_, ?_⟩, hperm,
    ⟨rfl, rfl, rfl⟩⟩
  · rw [hperm.nodup_iff]
    exact List.nodup_cons.mpr ⟨hat, s.nodup⟩
  · rcases List.mem_cons.mp (hperm.mem_iff.mp hx) with rfl | hx
    · exact ⟨d, ha⟩
    · exact s.allocated x hx
  · rcases List.mem_cons.mp (hperm.mem_iff.mp hx) with rfl | hx
    · exact haf
    · exact s.fresh x hx
  · rw [hin']
    refine sorted_insert (by rw [← hin]; exact s.sorted) ha (fun x hx e hxe => ?_)
      fun y hy e hye => ?_
    · have h := hxs x hx
      rw [hleft, decide_eq_false_iff_not, hrk x e hxe, not_lt] at h
      exact lt_of_le_of_ne h (rank_ne (hname x (by simp [hin, hx]) e hxe))
    · have h := hys y hy
      rwa [hleft, decide_eq_true_eq, hrk y e hye] at h

lemma Shape.detach {z : ZSet} {t : BinaryTree Addr} (s : Shape z t) {rounds : ℕ}
    (hf : Enough rounds t.numNodes) {a : Addr} (ha : a ∈ inorder t) :
    ∃ m' t', avlDel rounds z.tree a = .ok (m', top t') ∧ Repr m' none t' ∧ Balanced t' ∧
      (inorder t').Sublist (inorder t) ∧ (inorder t).Perm (a :: inorder t') := by
  have hlow := hf t s.balanced le_rfl
  obtain ⟨c, l, r, rfl⟩ := exists_path ha
  obtain ⟨m', t', he, hd⟩ := avlDel_rounds s.repr s.nodup s.balanced hlow.le
  have hin : inorder (plug c (.node a l r)) =
      (before c ++ inorder l) ++ a :: (inorder r ++ after c) := by
    rw [inorder_plug, inorder_node]
    simp
  have hin' : inorder t' = (before c ++ inorder l) ++ (inorder r ++ after c) := by
    rw [hd.order]
    simp
  refine ⟨m', t', he, hd.repr, hd.balanced, ?_, ?_⟩
  · rw [hin, hin']
    exact List.Sublist.append_left (List.sublist_cons_self a _) _
  · rw [hin, hin']
    exact List.perm_middle

lemma Shape.without {z z' : ZSet} {t t' : BinaryTree Addr} (s : Shape z t) {a : Addr}
    (hsub : (inorder t').Sublist (inorder t)) (hperm : (inorder t).Perm (a :: inorder t'))
    (hroot : z'.root = top t') (hR : Repr z'.tree none t') (hb : Balanced t')
    (hnode : ∀ b ≠ a, z'.node b = z.node b) (hfresh : z'.fresh = z.fresh) : Shape z' t' := by
  have hnot : a ∉ inorder t' := (List.nodup_cons.mp (hperm.nodup_iff.mp s.nodup)).1
  have hne : ∀ b ∈ inorder t', b ≠ a := by
    rintro b hb rfl
    exact hnot hb
  refine ⟨hroot, hR, s.nodup.sublist hsub, hb, fun b hb => ?_, fun b hb => ?_, ?_⟩
  · rw [hnode b (hne b hb)]
    exact s.allocated b (hsub.subset hb)
  · rw [hfresh]
    exact s.fresh b (hsub.subset hb)
  · refine (s.sorted.sublist hsub).imp_of_mem fun {x y} hx hy hxy d e hd he => ?_
    rw [hnode x (hne x hx)] at hd
    rw [hnode y (hne y hy)] at he
    exact hxy d e hd he

/-- **`zset_update`** moves a member to where its new score belongs. -/
theorem zsetUpdateIn_spec {z : ZSet} {t : BinaryTree Addr} (s : Shape z t) {rounds : ℕ}
    (hf : Enough rounds t.numNodes) {a : Addr} {d : ZNode}
    (ha : a ∈ inorder t) (hd : z.node a = some d) (score : Score)
    (hname : ∀ b ∈ inorder t, ∀ e, z.node b = some e → e.name = d.name → b = a) :
    ∃ z' t', zsetUpdateIn rounds z a score = .ok z' ∧ Shape z' t' ∧
      (inorder t').Perm (inorder t) ∧ z'.hmap = z.hmap ∧ z'.fresh = z.fresh ∧
      z'.node = Function.update z.node a (some { d with score := score }) := by
  obtain ⟨m', t₁, he, hR, hb, hsub, hperm⟩ := s.detach hf ha
  have hlen : t₁.numNodes ≤ t.numNodes := by
    rw [← inorder_length, ← inorder_length]
    exact hsub.length_le
  have hnot : a ∉ inorder t₁ := (List.nodup_cons.mp (hperm.nodup_iff.mp s.nodup)).1
  obtain ⟨z₁, hz₁⟩ : ∃ z₁ : ZSet, z₁ = { z with
    root := top t₁, tree := avlInit m' a,
    node := Function.update z.node a (some { d with score := score }) } := ⟨_, rfl⟩
  have hne : ∀ b ∈ inorder t₁, b ≠ a := by
    rintro b hb rfl
    exact hnot hb
  have s₁ : Shape z₁ t₁ := by
    refine s.without hsub hperm (by rw [hz₁]) ?_ hb (fun b hba => ?_) (by rw [hz₁])
    · rw [hz₁]
      exact hR.congr fun b hbt => Function.update_of_ne (hne b hbt) ..
    · rw [hz₁]
      exact Function.update_of_ne hba ..
  have hf₁ : Enough rounds t₁.numNodes := fun t hb ht => hf t hb (ht.trans hlen)
  obtain ⟨z', t', he', s', hp', hrel⟩ := treeInsertIn_spec s₁ hf₁ (a := a)
    (d := { d with score := score }) (by rw [hz₁]; exact Function.update_self ..) hnot
    (by rw [hz₁]; exact s.fresh a ha) (by rw [hz₁]; simp [avlInit]) (by rw [hz₁]; simp [avlInit])
    (by
      intro b hbt e hbe heq
      rw [hz₁] at hbe
      dsimp only at hbe
      rw [Function.update_of_ne (hne b hbt)] at hbe
      exact hne b hbt (hname b (hsub.subset hbt) e hbe heq))
  refine ⟨z', t', ?_, s', hp'.trans hperm.symm, ?_, ?_, ?_⟩
  · simp only [zsetUpdateIn, he, ok_bind, ZSet.deref, hd, pure_eq_ok]
    rw [← hz₁, he']
  · rw [hrel.hmap, hz₁]
  · rw [hrel.fresh, hz₁]
  · rw [hrel.node, hz₁]

theorem zsetUpdate_spec {z : ZSet} {t : BinaryTree Addr} (s : Shape z t) {a : Addr} {d : ZNode}
    (ha : a ∈ inorder t) (hd : z.node a = some d) (score : Score)
    (hname : ∀ b ∈ inorder t, ∀ e, z.node b = some e → e.name = d.name → b = a) :
    ∃ z' t', zsetUpdate z a score = .ok z' ∧ Shape z' t' ∧ (inorder t').Perm (inorder t) ∧
      z'.hmap = z.hmap ∧ z'.fresh = z.fresh ∧
      z'.node = Function.update z.node a (some { d with score := score }) :=
  zsetUpdateIn_spec s s.enough ha hd score hname

end ByoRedis.MemberTree
