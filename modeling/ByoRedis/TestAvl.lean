import Mathlib.Data.Multiset.AddSub
import ByoRedis.MemberTree

/-!
The container of the test of the AVL tree, under any values and in any order.

The test keeps a multiset beside the tree, lets both do the same, and checks the links, the heights
and the sizes of every node and that the tree has the values of the multiset. It runs this for some
thousand sequences. What holds for all of them is shown here, values that are added twice included.
-/

namespace ByoRedis.TestAvl

open ByoRedis.Basic ByoRedis.Avl ByoRedis.AvlTree ByoRedis.AvlDel ByoRedis.MemberTree
open ByoRedis.Lib.Trees ByoRedis.Lib.Runs
open scoped List

/-- `Container`, with the `Data` that are allocated. -/
structure Container where
  root : Option Addr := none
  node : Links Addr := fun _ => {}
  val : Addr → Option UInt32 := fun _ => none
  fresh : Addr := 0

/-- `container_of(cur, Data, node)->val` -/
def Container.deref (c : Container) (a : Addr) : Eff UInt32 :=
  match c.val a with
  | none => throw .access
  | some v => pure v

/-- No loop down the tree passes a node twice. -/
def Container.rounds (c : Container) : ℕ := c.fresh + 1

/-- `delete container_of(a, Data, node)` -/
def Container.free (c : Container) (a : Addr) : Container :=
  { c with val := Function.update c.val a none }

def assert (p : Prop) [Decidable p] : Eff Unit := if p then pure () else throw .assertion

/-- The search of `add`, down to the empty link. -/
def addLoop : ℕ → Container → UInt32 → Option Addr → Slot Addr → Eff (Option Addr × Slot Addr)
  | 0, _, _, _, _ => throw .spin
  | fuel + 1, c, val, cur, frm =>
    match frm.read c.root c.node with
    | none => pure (cur, frm)
    | some cur => do
      let nodeVal ← c.deref cur
      addLoop fuel c val (some cur) (if val < nodeVal then .left cur else .right cur)

def add (c : Container) (val : UInt32) : Eff Container := do
  let data := c.fresh
  let c := { c with
    node := avlInit c.node data
    val := Function.update c.val data (some val)
    fresh := c.fresh + 1 }
  let (cur, frm) ← addLoop c.rounds c val none .root
  let node := setParent (frm.write c.node (some data)) data cur
  let (node, root) ← avlFix c.rounds node data
  pure { c with node := node, root := some root }

/-- The search of `del`. -/
def delLoop : ℕ → Container → UInt32 → Option Addr → Eff (Option Addr)
  | 0, _, _, _ => throw .spin
  | fuel + 1, c, val, cur =>
    match cur with
    | none => pure none
    | some a => do
      let nodeVal ← c.deref a
      if val = nodeVal then pure (some a)
      else delLoop fuel c val (if val < nodeVal then (c.node a).left else (c.node a).right)

def del (c : Container) (val : UInt32) : Eff (Container × Bool) := do
  match ← delLoop c.rounds c val c.root with
  | none => pure (c, false)
  | some cur => do
    let (node, root) ← avlDel c.rounds c.node cur
    pure ({ c with node := node, root := root }.free cur, true)

/-- `assert(container_of(child, Data, node)->val …)`, where there is a child. -/
def verifyChild (c : Container) (a : Addr) (child : Option Addr) (ok : UInt32 → Bool) : Eff Unit :=
  match child with
  | none => pure ()
  | some b => do
    assert ((c.node b).parent = some a)
    let v ← c.deref b
    assert (ok v)

def avlVerify : ℕ → Container → Option Addr → Option Addr → Eff Unit
  | 0, _, _, _ => throw .spin
  | fuel + 1, c, parent, node =>
    match node with
    | none => pure ()
    | some a => do
      let left := (c.node a).left
      let right := (c.node a).right
      assert ((c.node a).parent = parent)
      avlVerify fuel c (some a) left
      avlVerify fuel c (some a) right
      assert ((c.node a).size = (1 + avlSize c.node left + avlSize c.node right) % 2 ^ 32)
      let lh := avlHeight c.node left
      let rh := avlHeight c.node right
      assert (lh = rh ∨ lh = rh + 1 ∨ rh = lh + 1)
      assert ((c.node a).height = 1 + max lh rh)
      let val ← c.deref a
      verifyChild c a left fun v => v ≤ val
      verifyChild c a right fun v => v ≥ val

def extract : ℕ → Container → Option Addr → Multiset UInt32 → Eff (Multiset UInt32)
  | 0, _, _, _ => throw .spin
  | fuel + 1, c, node, extracted =>
    match node with
    | none => pure extracted
    | some a => do
      let extracted ← extract fuel c (c.node a).left extracted
      let val ← c.deref a
      extract fuel c (c.node a).right (val ::ₘ extracted)

/-- `container_verify`: the size of the tree is a `uint32_t`, that of the multiset is not. -/
def containerVerify (c : Container) (ref : Multiset UInt32) : Eff Unit := do
  avlVerify c.rounds c none c.root
  assert (avlSize c.node c.root = Multiset.card ref)
  let extracted ← extract c.rounds c c.root 0
  assert (extracted = ref)

/-- The loop of `dispose`. -/
def disposeLoop : ℕ → Container → Eff Container
  | 0, _ => throw .spin
  | fuel + 1, c =>
    match c.root with
    | none => pure c
    | some a => do
      let (node, root) ← avlDel c.rounds c.node a
      disposeLoop fuel ({ c with node := node, root := root }.free a)

def dispose (c : Container) : Eff Container := disposeLoop c.rounds c

/-! ### What the container holds -/

def Container.key (c : Container) (a : Addr) : ℕ := ((c.val a).getD 0).toNat

/-- The nodes of the tree are the allocated ones, in the order of their values. -/
structure Sound (c : Container) (t : BinaryTree Addr) : Prop where
  root : c.root = top t
  repr : Repr c.node none t
  nodup : (inorder t).Nodup
  balanced : Balanced t
  fresh : ∀ a ∈ inorder t, a < c.fresh
  allocated : ∀ a, c.val a ≠ none ↔ a ∈ inorder t
  sorted : (inorder t).Pairwise fun a b => c.key a ≤ c.key b

def values (c : Container) (t : BinaryTree Addr) : List UInt32 := (inorder t).filterMap c.val

variable {c : Container} {t : BinaryTree Addr} {v : UInt32} {a : Addr}

lemma sound_empty : Sound {} .nil := by
  refine ⟨rfl, trivial, List.nodup_nil, trivial, ?_, ?_, List.Pairwise.nil⟩ <;> simp

lemma Sound.exists_val (h : Sound c t) (ha : a ∈ inorder t) : ∃ x, c.val a = some x :=
  Option.ne_none_iff_exists'.mp ((h.allocated a).mpr ha)

lemma Sound.numNodes_lt (h : Sound c t) : t.numNodes < c.rounds := by
  rw [← inorder_length, Container.rounds, Nat.lt_succ_iff]
  have hsub : inorder t ⊆ List.range c.fresh := fun a ha => List.mem_range.mpr (h.fresh a ha)
  have hle := (h.nodup.subperm hsub).length_le
  rwa [List.length_range] at hle

lemma key_eq {x : UInt32} (h : c.val a = some x) : c.key a = x.toNat := by
  rw [Container.key, h, Option.getD_some]

lemma values_length (h : Sound c t) : (values c t).length = t.numNodes := by
  rw [← inorder_length, values, List.filterMap_length_eq_length]
  intro a ha
  exact Option.isSome_iff_ne_none.mpr ((h.allocated a).mpr ha)

/-! ### Addition -/

lemma addLoop_spec {left : Addr → Bool} (hval : ∀ b ∈ inorder t, ∃ x, c.val b = some x ∧
      left b = decide (v < x)) {p : Path Addr} {fuel : ℕ} (hf : t.numNodes < fuel)
    (hroot : c.root = top (plug p t)) (hR : Repr c.node none (plug p t)) :
    addLoop fuel c v (above p) (slotAt p) =
      .ok (above (descend left t p), slotAt (descend left t p)) := by
  induction t generalizing p fuel with
  | nil =>
    obtain ⟨fuel, rfl⟩ : ∃ k, fuel = k + 1 := ⟨fuel - 1, by omega⟩
    rw [addLoop, slotAt_read hroot (pathRepr_plug hR).2]
    rfl
  | node b l r ihl ihr =>
    obtain ⟨fuel, rfl⟩ : ∃ k, fuel = k + 1 := ⟨fuel - 1, by omega⟩
    obtain ⟨x, hx, hleft⟩ := hval b (by simp)
    simp only [BinaryTree.numNodes] at hf
    rw [addLoop, slotAt_read hroot (pathRepr_plug hR).2, top_node]
    simp only [Container.deref, hx, pure_eq_ok, ok_bind]
    rw [descend, hleft]
    by_cases hlt : v < x
    · rw [if_pos hlt, if_pos (by simpa using hlt)]
      exact ihl (fun y hy => hval y (by simp [hy])) (p := .left b r :: p) (by omega) hroot hR
    · rw [if_neg hlt, if_neg (by simpa using hlt)]
      exact ihr (fun y hy => hval y (by simp [hy])) (p := .right b l :: p) (by omega) hroot hR

lemma sorted_insert {f : Addr → ℕ} {xs ys : List Addr}
    (h : (xs ++ ys).Pairwise fun x y => f x ≤ f y)
    (hx : ∀ x ∈ xs, f x ≤ f a) (hy : ∀ y ∈ ys, f a < f y) :
    (xs ++ a :: ys).Pairwise fun x y => f x ≤ f y := by
  obtain ⟨hxs, hys, hxy⟩ := List.pairwise_append.mp h
  refine List.pairwise_append.mpr ⟨hxs, List.pairwise_cons.mpr ⟨fun y hm => (hy y hm).le, hys⟩,
    fun x hm y hm' => ?_⟩
  rcases List.mem_cons.mp hm' with rfl | hm'
  · exact hx x hm
  · exact hxy x hm y hm'

lemma add_place (hroot : c.root = top t) (hR : Repr c.node none t) (hnd : (inorder t).Nodup)
    (hb : Balanced t) (hf : t.numNodes < c.rounds) (hval : ∀ b ∈ inorder t, ∃ x, c.val b = some x)
    (hs : (inorder t).Pairwise fun x y => c.key x ≤ c.key y) (ha : a ∉ inorder t)
    (hl : (c.node a).left = none) (hr : (c.node a).right = none) (v : UInt32) :
    ∃ cur frm m' b t' xs ys, addLoop c.rounds c v none .root = .ok (cur, frm) ∧
      avlFix c.rounds (setParent (frm.write c.node (some a)) a cur) a = .ok (m', b) ∧
      top t' = some b ∧ Repr m' none t' ∧ Balanced t' ∧ inorder t = xs ++ ys ∧
      inorder t' = xs ++ a :: ys ∧ (∀ x ∈ xs, c.key x ≤ v.toNat) ∧ ∀ y ∈ ys, v.toNat < c.key y := by
  obtain ⟨left, hleft⟩ : ∃ left : Addr → Bool, ∀ b, left b = decide (v.toNat < c.key b) :=
    ⟨_, fun _ => rfl⟩
  have hmono : (inorder t).Pairwise fun x y => left x → left y := by
    refine hs.imp fun {x y} hxy hx => ?_
    rw [hleft, decide_eq_true_eq] at hx ⊢
    exact hx.trans_le hxy
  have hsearch : ∀ b ∈ inorder t, ∃ x, c.val b = some x ∧ left b = decide (v < x) := by
    intro b hb
    obtain ⟨x, hx⟩ := hval b hb
    refine ⟨x, hx, ?_⟩
    rw [hleft, key_eq hx]
    exact decide_eq_decide.mpr UInt32.lt_iff_toNat_lt.symm
  obtain ⟨xs, ys, hin, hbef, haft, hxs, hys⟩ := descend_sides hmono []
  have hloop := addLoop_spec hsearch (p := []) hf hroot hR
  generalize hp : descend left t [] = p at hbef haft hloop
  have hplug : plug p .nil = t := by rw [← hp, plug_descend, plug_nil]
  have hlen := length_le_numNodes_plug p .nil
  rw [hplug] at hlen
  obtain ⟨m', b, t', he, htop, hR', hbal, hord, -⟩ := avlFix_leaf (c := p) (hplug ▸ hR)
    (hplug ▸ hnd) (hplug ▸ hb) (hplug ▸ ha) hl hr (hlen.trans_lt hf)
  refine ⟨_, _, m', b, t', xs, ys, hloop, he, htop, hR', hbal, hin, ?_, fun x hx => ?_,
    fun y hy => ?_⟩
  · rw [hord, hbef, haft]
    simp [before, after]
  · have h := hxs x hx
    rwa [hleft, decide_eq_false_iff_not, not_lt] at h
  · have h := hys y hy
    rwa [hleft, decide_eq_true_eq] at h

/-- **`add`** puts a node with the value behind those that are not greater. -/
lemma add_spec (h : Sound c t) (v : UInt32) : ∃ c' t', add c v = .ok c' ∧ Sound c' t' ∧
    (values c' t').Perm (v :: values c t) := by
  have hnot : c.fresh ∉ inorder t := fun hm => lt_irrefl _ (h.fresh _ hm)
  have hne : ∀ b ∈ inorder t, b ≠ c.fresh := by
    rintro b hb rfl
    exact hnot hb
  obtain ⟨c₁, hc₁⟩ : ∃ c₁ : Container, c₁ = { c with
    node := avlInit c.node c.fresh
    val := Function.update c.val c.fresh (some v)
    fresh := c.fresh + 1 } := ⟨_, rfl⟩
  have hval : ∀ b ∈ inorder t, c₁.val b = c.val b := fun b hb => by
    rw [hc₁]
    exact Function.update_of_ne (hne b hb) ..
  have hself : c₁.val c.fresh = some v := by
    rw [hc₁]
    exact Function.update_self ..
  have hsorted : (inorder t).Pairwise fun a b => c₁.key a ≤ c₁.key b := by
    refine h.sorted.imp_of_mem fun {x y} hx hy hxy => ?_
    rwa [Container.key, Container.key, hval x hx, hval y hy]
  obtain ⟨cur, frm, m', b, t', xs, ys, hloop, he, htop, hR, hb, hin, hin', hxs, hys⟩ :=
    add_place (c := c₁) (a := c.fresh) (by rw [hc₁]; exact h.root)
      (by rw [hc₁]; exact h.repr.congr fun b hb => Function.update_of_ne (hne b hb) ..)
      h.nodup h.balanced (by rw [hc₁]; exact Nat.lt_succ_of_lt h.numNodes_lt)
      (fun b hb => by rw [hval b hb]; exact h.exists_val hb) hsorted hnot
      (by rw [hc₁]; simp [avlInit]) (by rw [hc₁]; simp [avlInit]) v
  have hperm : (inorder t').Perm (c.fresh :: inorder t) := by
    rw [hin, hin']
    exact List.perm_middle
  refine ⟨{ c₁ with node := m', root := some b }, t', ?_, ⟨htop.symm, hR, ?_, hb, fun x hx => ?_,
    fun x => ?_, ?_⟩, ?_⟩
  · subst hc₁
    dsimp only at he
    simp only [add, hloop, he, ok_bind, pure_eq_ok]
  · exact hperm.nodup_iff.mpr (List.nodup_cons.mpr ⟨hnot, h.nodup⟩)
  · have hx := hperm.mem_iff.mp hx
    rw [hc₁]
    rcases List.mem_cons.mp hx with rfl | hx
    · exact Nat.lt_succ_self _
    · exact Nat.lt_succ_of_lt (h.fresh x hx)
  · rw [hperm.mem_iff, List.mem_cons, ← h.allocated]
    dsimp only
    by_cases hx : x = c.fresh
    · rw [hx, hself]
      simp
    · rw [hc₁]
      dsimp only
      rw [Function.update_of_ne hx]
      simp [hx]
  · rw [hin']
    have hfresh : c₁.key c.fresh = v.toNat := key_eq hself
    exact sorted_insert (f := c₁.key) (hin ▸ hsorted) (fun x hx => hfresh ▸ hxs x hx)
      fun y hy => hfresh ▸ hys y hy
  · have hsame : (inorder t).filterMap c₁.val = values c t := by
      exact List.filterMap_congr hval
    calc (inorder t').filterMap c₁.val
      _ ~ (c.fresh :: inorder t).filterMap c₁.val := hperm.filterMap _
      _ = v :: values c t := by rw [List.filterMap_cons_some hself, hsame]

/-! ### Deletion -/

def Finds (c : Container) (v : UInt32) (xs : List Addr) : Option Addr → Prop
  | none => ∀ x ∈ xs, c.val x ≠ some v
  | some a => a ∈ xs ∧ c.val a = some v

/-- **The search of `del`**: the nodes on the other side have other values. -/
lemma delLoop_spec (hval : ∀ b ∈ inorder t, ∃ x, c.val b = some x)
    (hs : (inorder t).Pairwise fun x y => c.key x ≤ c.key y) {p : Option Addr}
    (hR : Repr c.node p t) {fuel : ℕ} (hf : t.numNodes < fuel) (v : UInt32) :
    ∃ found, delLoop fuel c v (top t) = .ok found ∧ Finds c v (inorder t) found := by
  induction t generalizing p fuel with
  | nil =>
    obtain ⟨fuel, rfl⟩ : ∃ k, fuel = k + 1 := ⟨fuel - 1, by omega⟩
    exact ⟨none, rfl, by simp [Finds]⟩
  | node b l r ihl ihr =>
    obtain ⟨fuel, rfl⟩ : ∃ k, fuel = k + 1 := ⟨fuel - 1, by omega⟩
    simp only [BinaryTree.numNodes] at hf
    obtain ⟨hb, hl, hr⟩ := hR
    obtain ⟨x, hx⟩ := hval b (by simp)
    have hxkey := key_eq hx
    rw [inorder_node, List.pairwise_append, List.pairwise_cons] at hs
    obtain ⟨hsl, ⟨hbr, hsr⟩, hlb⟩ := hs
    simp only [delLoop, top_node, Container.deref, hx, pure_eq_ok, ok_bind, hb]
    by_cases heq : v = x
    · subst heq
      exact ⟨some b, by rw [if_pos rfl], by simp, hx⟩
    rw [if_neg heq]
    by_cases hlt : v < x
    · rw [if_pos hlt]
      have hsmaller : l.numNodes < fuel := by omega
      obtain ⟨found, he, hfound⟩ := ihl (fun y hy => hval y (by simp [hy])) hsl hl hsmaller
      refine ⟨found, he, ?_⟩
      cases found with
      | some a => exact ⟨by simp [hfound.1], hfound.2⟩
      | none =>
        intro y hy hyv
        rw [inorder_node, List.mem_append, List.mem_cons] at hy
        have hykey := key_eq hyv
        have hlt := UInt32.lt_iff_toNat_lt.mp hlt
        rcases hy with hy | rfl | hy
        · exact hfound y hy hyv
        · omega
        · have := hbr y hy
          omega
    · rw [if_neg hlt]
      have hsmaller : r.numNodes < fuel := by omega
      obtain ⟨found, he, hfound⟩ := ihr (fun y hy => hval y (by simp [hy])) hsr hr hsmaller
      refine ⟨found, he, ?_⟩
      cases found with
      | some a => exact ⟨by simp [hfound.1], hfound.2⟩
      | none =>
        intro y hy hyv
        rw [inorder_node, List.mem_append, List.mem_cons] at hy
        have hykey := key_eq hyv
        have hgt : x.toNat < v.toNat := by
          have hle := mt UInt32.lt_iff_toNat_lt.mpr hlt
          have hne := mt UInt32.toNat_inj.mp heq
          omega
        rcases hy with hy | rfl | hy
        · have := hlb y hy b (by simp)
          omega
        · omega
        · exact hfound y hy hyv

/-- **`avl_del`** of a node, which is freed. -/
lemma Sound.detach (h : Sound c t) (ha : a ∈ inorder t) {x : UInt32} (hx : c.val a = some x) :
    ∃ m' root t', avlDel c.rounds c.node a = .ok (m', root) ∧
      Sound ({ c with node := m', root := root }.free a) t' ∧
      values c t ~ x :: values ({ c with node := m', root := root }.free a) t' := by
  obtain ⟨p, l, r, rfl⟩ := exists_path ha
  obtain ⟨m', t', he, hd⟩ := avlDel_spec h.repr h.nodup h.balanced h.numNodes_lt.le
  have hin : inorder (plug p (.node a l r)) =
      (before p ++ inorder l) ++ a :: (inorder r ++ after p) := by
    rw [inorder_plug, inorder_node]
    simp
  have hin' : inorder t' = (before p ++ inorder l) ++ (inorder r ++ after p) := by
    rw [hd.order]
    simp
  have hsub : (inorder t').Sublist (inorder (plug p (.node a l r))) := by
    rw [hin, hin']
    exact List.Sublist.append_left (List.sublist_cons_self a _) _
  have hperm : inorder (plug p (.node a l r)) ~ a :: inorder t' := by
    rw [hin, hin']
    exact List.perm_middle
  obtain ⟨hnot, hnd⟩ := List.nodup_cons.mp (hperm.nodup_iff.mp h.nodup)
  have hne : ∀ b ∈ inorder t', b ≠ a := by
    rintro b hb rfl
    exact hnot hb
  have hval : ∀ b ∈ inorder t', Function.update c.val a none b = c.val b := fun b hb =>
    Function.update_of_ne (hne b hb) ..
  refine ⟨m', top t', t', he, ⟨rfl, hd.repr, hnd, hd.balanced, fun b hb =>
    h.fresh b (hsub.subset hb), fun b => ?_, ?_⟩, ?_⟩
  · unfold Container.free
    dsimp only
    by_cases hb : b = a
    · rw [hb, Function.update_self]
      simp [hnot]
    · rw [Function.update_of_ne hb, h.allocated, hperm.mem_iff, List.mem_cons]
      simp [hb]
  · refine (h.sorted.sublist hsub).imp_of_mem fun {y z} hy hz hyz => ?_
    unfold Container.key Container.free
    dsimp only
    rw [hval y hy, hval z hz]
    exact hyz
  · have hsame : (inorder t').filterMap (Function.update c.val a none) =
        (inorder t').filterMap c.val := List.filterMap_congr hval
    unfold values Container.free
    rw [hsame, ← List.filterMap_cons_some hx]
    exact hperm.filterMap _

/-- **`del`** takes one node with the value away, where there is one. -/
lemma del_spec (h : Sound c t) (v : UInt32) : ∃ c' t',
    del c v = .ok (c', decide (v ∈ values c t)) ∧ Sound c' t' ∧
      (values c' t').Perm ((values c t).erase v) := by
  obtain ⟨found, he, hfound⟩ := delLoop_spec (fun b hb => h.exists_val hb) h.sorted h.repr
    h.numNodes_lt v
  rw [← h.root] at he
  cases found with
  | none =>
    have hnot : v ∉ values c t := by
      intro hm
      obtain ⟨a, ha, hx⟩ := List.mem_filterMap.mp hm
      exact hfound a ha hx
    refine ⟨c, t, ?_, h, ?_⟩
    · simp only [del, he, ok_bind, pure_eq_ok, hnot, decide_false]
    · rw [List.erase_of_not_mem hnot]
  | some a =>
    obtain ⟨ha, hx⟩ := hfound
    obtain ⟨m', root, t', hdel, hs, hvals⟩ := h.detach ha hx
    have hmem : v ∈ values c t := List.mem_filterMap.mpr ⟨a, ha, hx⟩
    refine ⟨_, t', ?_, hs, ?_⟩
    · simp only [del, he, hdel, ok_bind, pure_eq_ok, hmem, decide_true]
    · have herase := hvals.erase v
      rw [List.erase_cons_head] at herase
      exact herase.symm

/-! ### Verification -/

lemma assert_pos {p : Prop} [Decidable p] (hp : p) : assert p = pure () := if_pos hp

lemma verifyChild_top {s : BinaryTree Addr} (hR : Repr c.node (some a) s)
    (hval : ∀ b ∈ inorder s, ∃ x, c.val b = some x) {ok : UInt32 → Bool}
    (hok : ∀ b ∈ inorder s, ∀ x, c.val b = some x → ok x) :
    verifyChild c a (top s) ok = .ok () := by
  cases s with
  | nil => rfl
  | node b l r =>
    obtain ⟨x, hx⟩ := hval b (by simp)
    simp only [verifyChild, top_node, Container.deref, hx, ok_bind, pure_eq_ok, hR.1]
    rw [assert_pos trivial, assert_pos (hok b (by simp) x hx)]
    rfl

/-- **`avl_verify`** finds nothing wrong with a tree that is linked, balanced and in order. -/
lemma avlVerify_spec (hb : Balanced t) (hval : ∀ b ∈ inorder t, ∃ x, c.val b = some x)
    (hs : (inorder t).Pairwise fun x y => c.key x ≤ c.key y) {p : Option Addr}
    (hR : Repr c.node p t) {fuel : ℕ} (hf : t.numNodes < fuel) :
    avlVerify fuel c p (top t) = .ok () := by
  induction t generalizing p fuel with
  | nil =>
    obtain ⟨fuel, rfl⟩ : ∃ k, fuel = k + 1 := ⟨fuel - 1, by omega⟩
    rfl
  | node b l r ihl ihr =>
    obtain ⟨fuel, rfl⟩ : ∃ k, fuel = k + 1 := ⟨fuel - 1, by omega⟩
    simp only [BinaryTree.numNodes] at hf
    obtain ⟨hn, hl, hr⟩ := hR
    obtain ⟨hbl, hbr, hlr, hrl⟩ := hb
    obtain ⟨x, hx⟩ := hval b (by simp)
    rw [inorder_node, List.pairwise_append, List.pairwise_cons] at hs
    obtain ⟨hsl, ⟨hbs, hsr⟩, hlb⟩ := hs
    have hvl : ∀ y ∈ inorder l, ∃ x, c.val y = some x := fun y hy => hval y (by simp [hy])
    have hvr : ∀ y ∈ inorder r, ∃ x, c.val y = some x := fun y hy => hval y (by simp [hy])
    have hfl : l.numNodes < fuel := by omega
    have hfr : r.numNodes < fuel := by omega
    have hleft := ihl hbl hvl hsl hl hfl
    have hright := ihr hbr hvr hsr hr hfr
    have hlc : verifyChild c b (top l) (fun v => v ≤ x) = .ok () := by
      refine verifyChild_top hl hvl fun y hy z hz => ?_
      have hle := hlb y hy b (by simp)
      rw [key_eq hz, key_eq hx] at hle
      exact decide_eq_true (UInt32.le_iff_toNat_le.mpr hle)
    have hrc : verifyChild c b (top r) (fun v => v ≥ x) = .ok () := by
      refine verifyChild_top hr hvr fun y hy z hz => ?_
      have hle := hbs y hy
      rw [key_eq hz, key_eq hx] at hle
      exact decide_eq_true (UInt32.le_iff_toNat_le.mpr hle)
    have hsize : (BinaryTree.node b l r).numNodes % 2 ^ 32 =
        (1 + avlSize c.node (top l) + avlSize c.node (top r)) % 2 ^ 32 := by
      rw [avlSize_top hl, avlSize_top hr]
      simp only [BinaryTree.numNodes]
      omega
    have hheights : avlHeight c.node (top l) = avlHeight c.node (top r) ∨
        avlHeight c.node (top l) = avlHeight c.node (top r) + 1 ∨
        avlHeight c.node (top r) = avlHeight c.node (top l) + 1 := by
      rw [avlHeight_top hl, avlHeight_top hr]
      omega
    have hheight : (BinaryTree.node b l r).height =
        1 + max (avlHeight c.node (top l)) (avlHeight c.node (top r)) := by
      rw [avlHeight_top hl, avlHeight_top hr]
      simp only [BinaryTree.height]
      omega
    simp only [avlVerify, top_node, hn, Container.deref, hx, ok_bind, pure_eq_ok]
    rw [assert_pos trivial, hleft, hright, assert_pos hsize, assert_pos hheights,
      assert_pos hheight]
    simp only [pure_eq_ok, ok_bind, hlc, hrc]

lemma values_node {b : Addr} {l r : BinaryTree Addr} {x : UInt32} (hx : c.val b = some x) :
    values c (.node b l r) = values c l ++ x :: values c r := by
  rw [values, inorder_node, List.filterMap_append, List.filterMap_cons_some hx]
  rfl

/-- **`extract`** has the values of the nodes. -/
lemma extract_spec (hval : ∀ b ∈ inorder t, ∃ x, c.val b = some x) {p : Option Addr}
    (hR : Repr c.node p t) {fuel : ℕ} (hf : t.numNodes < fuel) (extracted : Multiset UInt32) :
    extract fuel c (top t) extracted = .ok (extracted + (values c t : Multiset UInt32)) := by
  induction t generalizing p fuel extracted with
  | nil =>
    obtain ⟨fuel, rfl⟩ : ∃ k, fuel = k + 1 := ⟨fuel - 1, by omega⟩
    simp [extract, values]
  | node b l r ihl ihr =>
    obtain ⟨fuel, rfl⟩ : ∃ k, fuel = k + 1 := ⟨fuel - 1, by omega⟩
    simp only [BinaryTree.numNodes] at hf
    obtain ⟨hn, hl, hr⟩ := hR
    obtain ⟨x, hx⟩ := hval b (by simp)
    have hfl : l.numNodes < fuel := by omega
    have hfr : r.numNodes < fuel := by omega
    have hleft := ihl (fun y hy => hval y (by simp [hy])) hl hfl extracted
    have hright := ihr (fun y hy => hval y (by simp [hy])) hr hfr
    simp only [extract, top_node, hn, Container.deref, hx, hleft, hright, ok_bind, pure_eq_ok]
    rw [values_node hx, ← Multiset.coe_add, ← Multiset.cons_coe, Multiset.cons_add,
      Multiset.add_cons, Multiset.add_cons, Multiset.add_assoc]

/-- **`container_verify`** passes, unless the size does not fit in the `uint32_t`. -/
lemma containerVerify_eq (h : Sound c t) : containerVerify c (values c t : Multiset UInt32) =
    if t.numNodes < 2 ^ 32 then .ok () else .error .assertion := by
  have hval : ∀ b ∈ inorder t, ∃ x, c.val b = some x := fun b hb => h.exists_val hb
  have hverify := avlVerify_spec h.balanced hval h.sorted h.repr h.numNodes_lt
  have hextract := extract_spec hval h.repr h.numNodes_lt 0
  have hcard : Multiset.card (values c t : Multiset UInt32) = t.numNodes := by
    rw [Multiset.coe_card, values_length h]
  unfold containerVerify
  rw [h.root, hverify, ok_bind, hcard, avlSize_top h.repr]
  by_cases hlt : t.numNodes < 2 ^ 32
  · rw [if_pos hlt, assert_pos (Nat.mod_eq_of_lt hlt)]
    simp only [pure_eq_ok, ok_bind, hextract, Multiset.zero_add]
    exact assert_pos trivial
  · have hne : ¬ t.numNodes % 2 ^ 32 = t.numNodes := fun hmod =>
      hlt ((Nat.mod_eq_iff_lt (by decide)).mp hmod)
    rw [if_neg hlt, assert, if_neg hne]
    rfl

/-! ### Disposal -/

/-- **`dispose`** takes the root away until there is none. -/
lemma disposeLoop_spec {fuel : ℕ} (h : Sound c t) (hf : t.numNodes < fuel) :
    ∃ c', disposeLoop fuel c = .ok c' ∧ Sound c' .nil := by
  induction fuel generalizing c t with
  | zero => omega
  | succ fuel ih =>
    cases t with
    | nil =>
      have hroot : c.root = none := h.root
      refine ⟨c, ?_, h⟩
      rw [disposeLoop, hroot]
      rfl
    | node a l r =>
      have hroot : c.root = some a := h.root
      obtain ⟨x, hx⟩ := h.exists_val (a := a) (by simp)
      obtain ⟨m', root, t', hdel, hs, hvals⟩ := h.detach (by simp) hx
      have hlen := hvals.length_eq
      rw [List.length_cons, values_length h, values_length hs] at hlen
      obtain ⟨c', he, hs'⟩ := ih hs (by omega)
      refine ⟨c', ?_, hs'⟩
      simp only [disposeLoop, hroot, hdel, ok_bind, he]

/-! ### Runs of the test -/

inductive Op
  | add (val : UInt32)
  | del (val : UInt32)

def step (c : Container) : Op → Eff (Container × Option Bool)
  | .add val => do
    let c ← add c val
    pure (c, none)
  | .del val => do
    let (c, found) ← del c val
    pure (c, some found)

/-- What the test does to its multiset, and what it expects `del` to return. -/
def Refers (ref : Multiset UInt32) : Op → Option Bool → Multiset UInt32 → Prop
  | .add val, out, ref' => out = none ∧ ref' = val ::ₘ ref
  | .del val, out, ref' => out = some (decide (val ∈ ref)) ∧ ref' = ref.erase val

/-- The container beside the multiset. -/
def Beside (c : Container) (ref : Multiset UInt32) : Prop :=
  ∃ t, Sound c t ∧ ref = (values c t : Multiset UInt32)

/-- **Every operation** does to the container what it does to the multiset. -/
lemma Beside.step {ref : Multiset UInt32} (h : Beside c ref) (op : Op) :
    ∃ c' out ref', TestAvl.step c op = .ok (c', out) ∧ Refers ref op out ref' ∧
      Beside c' ref' := by
  obtain ⟨t, hs, rfl⟩ := h
  cases op with
  | add val =>
    obtain ⟨c', t', he, hs', hvals⟩ := add_spec hs val
    refine ⟨c', none, _, ?_, ⟨rfl, rfl⟩, t', hs', (Multiset.coe_eq_coe.mpr hvals).symm⟩
    simp only [TestAvl.step, he, ok_bind, pure_eq_ok]
  | del val =>
    obtain ⟨c', t', he, hs', hvals⟩ := del_spec hs val
    refine ⟨c', _, _, ?_, ⟨rfl, rfl⟩, t', hs', (Multiset.coe_eq_coe.mpr hvals).symm⟩
    simp only [TestAvl.step, he, ok_bind, pure_eq_ok, Multiset.mem_coe]

/-- **The test passes for all sequences** of additions and deletions, in any order and of any
values: the container does what the multiset does, `del` returns whether the value was there,
`container_verify` finds nothing wrong as long as there are less than 2^32 values, and `dispose`
frees every node. -/
theorem test_passes (ops : List Op) : ∃ c outs ref, run step {} ops = .ok (c, outs) ∧
    Trace Refers 0 ops outs ref ∧
    (containerVerify c ref = if Multiset.card ref < 2 ^ 32 then .ok () else .error .assertion) ∧
    ∃ c', dispose c = .ok c' ∧ c'.root = none ∧ ∀ a, c'.val a = none := by
  have hstep : ∀ (c : Container) (ref : Multiset UInt32) (op : Op) (_ : List Op), Beside c ref →
      ∃ c' out ref', step c op = .ok (c', out) ∧ Refers ref op out ref' ∧ Beside c' ref' :=
    fun c ref op ops h => h.step op
  obtain ⟨c, outs, ref, he, ht, t, hs, rfl⟩ := @run_simulates _ _ _ _ _ step Refers
    (fun c ref _ => Beside c ref) hstep _ _ ops ⟨.nil, sound_empty, rfl⟩
  obtain ⟨c', hdispose, hs'⟩ := disposeLoop_spec hs hs.numNodes_lt
  refine ⟨c, outs, _, he, ht, ?_, c', hdispose, hs'.root, fun a => ?_⟩
  · rw [containerVerify_eq hs, Multiset.coe_card, values_length hs]
  · by_contra hne
    have hmem := (hs'.allocated a).mp hne
    simp at hmem

end ByoRedis.TestAvl
