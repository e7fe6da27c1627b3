import ByoRedis.AvlFix

/-!
Attaching a leaf to the AVL tree and detaching a node from it.

A node with two children is deleted by detaching its successor and then copying the node's
links over the successor's, after the rebalancing: the node is looked up again in the tree
that is left, and the successor takes the place found.
-/

namespace ByoRedis.AvlDel

open ByoRedis.Basic ByoRedis.Avl ByoRedis.AvlTree ByoRedis.AvlFix ByoRedis.Lib.Trees
open ByoRedis.Lib.Runs

variable {ρ : Type}

/-! ### Putting one subtree in the place of another -/

lemma mem_below {f : Frame ρ} {c : Path ρ} {x : ρ} (hx : x ∈ before c ++ after c) :
    x ∈ before (f :: c) ++ after (f :: c) := by
  cases f <;>
  · simp only [before, after, List.mem_append, List.mem_cons] at hx ⊢
    tauto

lemma mem_step {f : Frame ρ} {c : Path ρ} {x : ρ} (hx : x ∈ before [f] ++ after [f]) :
    x ∈ before (f :: c) ++ after (f :: c) := by
  cases f <;>
  · simp only [before, after, List.mem_append, List.mem_cons, List.not_mem_nil, or_false,
      false_or] at hx ⊢
    tauto

lemma repr_fill_congr {m m' : Links ρ} {f : Frame ρ} {p : Option ρ} {t t' : BinaryTree ρ}
    (h : Repr m p (f.fill t)) (ht : Repr m' (some f.val) t') (htop : top t' = top t)
    (hh : t'.height = t.height) (hs : t'.numNodes = t.numNodes)
    (he : ∀ x ∈ before [f] ++ after [f], m' x = m x) : Repr m' p (f.fill t') := by
  cases f with
  | left b r =>
    obtain ⟨hb, -, hr⟩ := h
    refine ⟨?_, ht, hr.congr fun x hx => he x (by simp [before, after, hx])⟩
    rw [he b (by simp [before, after]), hb, htop]
    simp [hh, hs]
  | right b l =>
    obtain ⟨hb, hl, -⟩ := h
    refine ⟨?_, hl.congr fun x hx => he x (by simp [before, after, hx]), ht⟩
    rw [he b (by simp [before, after]), hb, htop]
    simp [hh, hs]

lemma fill_congr (f : Frame ρ) (t t' : BinaryTree ρ) (hh : t'.height = t.height)
    (hs : t'.numNodes = t.numNodes) : top (f.fill t') = top (f.fill t) ∧
      (f.fill t').height = (f.fill t).height ∧ (f.fill t').numNodes = (f.fill t).numNodes := by
  cases f <;> simp [Frame.fill, hh, hs]

lemma repr_plug_congr {m m' : Links ρ} {c : Path ρ} {t t' : BinaryTree ρ}
    (h : Repr m none (plug c t)) (ht : Repr m' (above c) t') (htop : top t' = top t)
    (hh : t'.height = t.height) (hs : t'.numNodes = t.numNodes)
    (he : ∀ x ∈ before c ++ after c, m' x = m x) : Repr m' none (plug c t') := by
  induction c generalizing t t' with
  | nil => exact ht
  | cons f c ih =>
    obtain ⟨htop', hh', hs'⟩ := fill_congr f t t' hh hs
    have hfill := repr_fill_congr (pathRepr_plug (t := f.fill t) h).1 ht htop hh hs fun x hx =>
      he x (mem_step hx)
    exact ih h hfill htop' hh' hs' fun x hx => he x (mem_below hx)

lemma Linked.repr {m : Links ρ} {p : Option ρ} {a : ρ} {l r : BinaryTree ρ} (h : Linked m p a l r)
    (hh : (m a).height = (BinaryTree.node a l r).height)
    (hs : (m a).size = (BinaryTree.node a l r).numNodes % 2 ^ 32) : Repr m p (.node a l r) := by
  refine ⟨?_, h.lrepr, h.rrepr⟩
  rw [← h.parent, ← h.left, ← h.right, ← hh, ← hs]

lemma stepSlot_write_sizes [DecidableEq ρ] (m : Links ρ) (f : Frame ρ) (v : Option ρ) (x : ρ) :
    ((stepSlot f).write m v x).height = (m x).height ∧
      ((stepSlot f).write m v x).size = (m x).size := by
  by_cases hx : x = f.val
  · subst hx
    cases f <;> simp [stepSlot, Slot.write, Frame.val]
  · rw [stepSlot_write_ne hx]
    exact ⟨rfl, rfl⟩

lemma repr_fill_sizes {m : Links ρ} {f : Frame ρ} {p : Option ρ} {t : BinaryTree ρ}
    (h : Repr m p (f.fill t)) : (m f.val).height = (f.fill t).height ∧
      (m f.val).size = (f.fill t).numNodes % 2 ^ 32 := by
  cases f with
  | left b r => exact ⟨congrArg AvlNode.height h.1, congrArg AvlNode.size h.1⟩
  | right b l => exact ⟨congrArg AvlNode.height h.1, congrArg AvlNode.size h.1⟩

lemma val_mem_fill (f : Frame ρ) (t : BinaryTree ρ) : f.val ∈ inorder (f.fill t) := by
  cases f <;> simp [Frame.fill, Frame.val]

lemma nodup_replace {c : Path ρ} {a v : ρ} {l r : BinaryTree ρ}
    (hn : (inorder (plug c (.node a l r))).Nodup) (hv : v ∉ inorder (plug c (.node a l r))) :
    (inorder (plug c (.node v l r))).Nodup := by
  have hsplit : ∀ x, inorder (plug c (.node x l r)) =
      (before c ++ inorder l) ++ x :: (inorder r ++ after c) := by
    intro x
    rw [inorder_plug]
    simp
  rw [hsplit] at hn hv ⊢
  rw [List.nodup_middle] at hn ⊢
  refine List.nodup_cons.mpr ⟨fun hmem => hv ?_, (List.nodup_cons.mp hn).2⟩
  rw [List.mem_append, List.mem_cons]
  exact (List.mem_append.mp hmem).imp id .inr

lemma repr_plug_relink [DecidableEq ρ] {m m' : Links ρ} {c : Path ρ} {a v : ρ}
    {l r : BinaryTree ρ} (h : Repr m none (plug c (.node a l r)))
    (hn : (inorder (plug c (.node a l r))).Nodup) (ht : Repr m' (above c) (.node v l r))
    (hv : v ∉ inorder (plug c (.node a l r))) (he : ∀ x ∈ before c ++ after c, m' x = m x) :
    Repr ((slotOf m' (above c) a).write m' (some v)) none (plug c (.node v l r)) := by
  cases c with
  | nil => exact ht
  | cons f c =>
    obtain ⟨-, hP⟩ := pathRepr_plug h
    obtain ⟨-, hout⟩ := nodup_plug hn
    have hval := he f.val (val_mem f c)
    have hn' := nodup_replace hn hv
    obtain ⟨l', r', hfill, hL, -⟩ := climb hP ht hn' he
    obtain ⟨htop, hh, hs⟩ := fill_congr f (.node a l r) (.node v l r) rfl rfl
    obtain ⟨hfh, hfs⟩ := repr_fill_sizes (pathRepr_plug (t := f.fill (.node a l r)) h).1
    obtain ⟨hwh, hws⟩ := stepSlot_write_sizes m' f (some v) f.val
    have hslot : slotOf m' (above (f :: c)) a = stepSlot f :=
      slotOf_step hP hval (hout a (by simp))
    rw [hslot]
    change Repr _ none (plug c (f.fill (.node v l r)))
    refine repr_plug_congr (t := f.fill (.node a l r)) h ?_ htop hh hs fun x hx => ?_
    · rw [hfill]
      refine Linked.repr hL ?_ ?_
      · exact hwh.trans (by rw [hval, hfh, ← hfill, hh])
      · exact hws.trans (by rw [hval, hfs, ← hfill, hs])
    · have hxf : x ≠ f.val := by
        rintro rfl
        exact (nodup_plug (c := c) (t := f.fill (.node a l r)) hn).2 f.val (val_mem_fill f _) hx
      rw [stepSlot_write_ne hxf, he x (mem_below hx)]

/-! ### A node with at most one child -/

/-- The subtree that takes the place of a node with at most one child. -/
def OnlyChild (l r s : BinaryTree ρ) : Prop := l = .nil ∧ s = r ∨ r = .nil ∧ s = l

lemma exists_onlyChild {l r : BinaryTree ρ} (h : l = .nil ∨ r = .nil) : ∃ s, OnlyChild l r s := by
  rcases h with rfl | rfl
  · exact ⟨r, .inl ⟨rfl, rfl⟩⟩
  · exact ⟨l, .inr ⟨rfl, rfl⟩⟩

lemma OnlyChild.inorder_eq {l r s : BinaryTree ρ} (h : OnlyChild l r s) :
    inorder s = inorder l ++ inorder r := by
  rcases h with ⟨rfl, rfl⟩ | ⟨rfl, rfl⟩ <;> simp

lemma OnlyChild.height_eq {l r s : BinaryTree ρ} (h : OnlyChild l r s) (a : ρ) :
    (BinaryTree.node a l r).height = s.height + 1 := by
  rcases h with ⟨rfl, rfl⟩ | ⟨rfl, rfl⟩ <;> simp

lemma OnlyChild.balanced {l r s : BinaryTree ρ} (h : OnlyChild l r s) {a : ρ}
    (hb : Balanced (.node a l r)) : Balanced s := by
  rcases h with ⟨-, rfl⟩ | ⟨-, rfl⟩
  · exact hb.2.1
  · exact hb.1

lemma OnlyChild.repr {m : Links ρ} {p : Option ρ} {a : ρ} {l r s : BinaryTree ρ}
    (h : OnlyChild l r s) (hL : Linked m p a l r) : Repr m (some a) s := by
  rcases h with ⟨-, rfl⟩ | ⟨-, rfl⟩
  · exact hL.rrepr
  · exact hL.lrepr

/-- The child that the code picks is the root of that subtree, and its assertion holds. -/
lemma OnlyChild.child {m : Links ρ} {p : Option ρ} {a : ρ} {l r s : BinaryTree ρ}
    (h : OnlyChild l r s) (hL : Linked m p a l r) :
    ¬ ((m a).left.isSome = true ∧ (m a).right.isSome = true) ∧
      (if (m a).left.isSome then (m a).left else (m a).right) = top s := by
  rcases h with ⟨rfl, rfl⟩ | ⟨rfl, rfl⟩
  · simp [hL.left, hL.right]
  · cases s <;> simp [hL.left, hL.right]

lemma OnlyChild.nodup {c : Path ρ} {a : ρ} {l r s : BinaryTree ρ} (h : OnlyChild l r s)
    (hn : (inorder (plug c (.node a l r))).Nodup) : (inorder (plug c s)).Nodup := by
  refine hn.sublist ?_
  rw [inorder_plug, inorder_plug, inorder_node, h.inorder_eq]
  have hsub : (inorder l ++ inorder r).Sublist (inorder l ++ a :: inorder r) :=
    (List.sublist_cons_self a _).append_left _
  exact (hsub.append_left _).append_right _

/-! ### The successor -/

lemma leftmost_spec {m : Links ρ} {p : Option ρ} {b : ρ} {l r : BinaryTree ρ} {fuel : ℕ}
    (h : Repr m p (.node b l r)) (hfuel : (BinaryTree.node b l r).height ≤ fuel) :
    ∃ v d r', leftmost fuel m b = .ok v ∧ BinaryTree.node b l r = plug d (.node v .nil r') ∧
      before d = [] := by
  induction l generalizing p b r fuel with
  | nil =>
    obtain ⟨fuel, rfl⟩ : ∃ k, fuel = k + 1 := ⟨fuel - 1, by simp at hfuel; omega⟩
    exact ⟨b, [], r, by simp [leftmost, h.1], rfl, rfl⟩
  | node b' l' r' ihl ihr =>
    obtain ⟨fuel, rfl⟩ : ∃ k, fuel = k + 1 := ⟨fuel - 1, by simp at hfuel; omega⟩
    obtain ⟨v, d, k, he, ht, hd⟩ := ihl h.2.1 (by simp at hfuel ⊢; omega : _ ≤ fuel)
    refine ⟨v, d ++ [.left b r], k, ?_, by rw [plug_append, ← ht]; rfl, ?_⟩
    · simp only [leftmost, h.1, top_node]; exact he
    · simp [before_append, before, hd]

lemma exists_successor {c : Path ρ} {m : Links ρ} {a b : ρ} {l rl rr : BinaryTree ρ} {fuel : ℕ}
    (h : Repr m none (plug c (.node a l (.node b rl rr))))
    (hfuel : (plug c (.node a l (.node b rl rr))).height ≤ fuel) :
    ∃ v e k ys, leftmost fuel m b = .ok v ∧
      plug c (.node a l (.node b rl rr)) = plug e (.node v .nil k) ∧
      before e = before c ++ inorder l ++ [a] ∧ inorder k ++ after e = ys ++ after c ∧
      inorder (.node b rl rr) = v :: ys := by
  have hR := (pathRepr_plug h).1
  have hlen := length_add_height_le c (.node a l (.node b rl rr))
  obtain ⟨v, d, k, hev, hvt, hd⟩ := leftmost_spec hR.2.2
    (by simp only [BinaryTree.height] at hlen ⊢; omega : _ ≤ fuel)
  refine ⟨v, d ++ .right a l :: c, k, inorder k ++ after d, hev, ?_, ?_, ?_, ?_⟩
  · rw [plug_append, ← hvt]
    rfl
  · rw [before_append, hd]
    simp [before]
  · rw [after_append]
    simp [after]
  · rw [hvt, inorder_plug, hd]
    simp

lemma find_again {t : BinaryTree ρ} {a : ρ} {xs ys : List ρ} (ht : inorder t = xs ++ a :: ys)
    (hn : (inorder t).Nodup) : ∃ g l r, t = plug g (.node a l r) ∧
      before g ++ inorder l = xs ∧ inorder r ++ after g = ys := by
  obtain ⟨g, l, r, rfl⟩ := exists_path (show a ∈ inorder t by rw [ht]; simp)
  have hsplit : inorder (plug g (.node a l r)) =
      (before g ++ inorder l) ++ a :: (inorder r ++ after g) := by
    rw [inorder_plug]
    simp
  obtain ⟨hl, hr⟩ := inorder_split_unique (a := a) (hsplit ▸ hn) (hsplit.symm.trans ht)
  exact ⟨g, l, r, rfl, hl, hr⟩

variable [DecidableEq ρ]

/-! ### Detaching -/

lemma avlDelEasy_root {m : Links ρ} {a : ρ} {l r s : BinaryTree ρ} (hs : OnlyChild l r s)
    (h : Linked m none a l r) (fuel : ℕ) :
    avlDelEasy fuel m a = .ok (adopt m (top s) none, top s) := by
  obtain ⟨hassert, hchild⟩ := hs.child h
  rw [avlDelEasy, if_neg hassert]
  simp only [hchild, h.parent, pure_eq_ok]

lemma avlDelEasy_below {m : Links ρ} {a b : ρ} {l r s : BinaryTree ρ} (hs : OnlyChild l r s)
    (h : Linked m (some b) a l r) {fuel : ℕ} {slot : Slot ρ}
    (hslot : slotOf (adopt m (top s) (some b)) (some b) a = slot) {m' : Links ρ} {d : ρ}
    (he : avlFix fuel (slot.write (adopt m (top s) (some b)) (top s)) b = .ok (m', d)) :
    avlDelEasy fuel m a = .ok (m', some d) := by
  obtain ⟨hassert, hchild⟩ := hs.child h
  rw [avlDelEasy, if_neg hassert]
  simp only [hchild, h.parent, hslot, he, ok_bind, pure_eq_ok]

/-- **A node with at most one child**: that child's subtree takes its place. -/
theorem avlDelEasy_spec {c : Path ρ} {m : Links ρ} {a : ρ} {l r s : BinaryTree ρ} {fuel : ℕ}
    (h : Linked m (above c) a l r) (hs : OnlyChild l r s) (hc : PathRepr m c (some a))
    (hn : (inorder (plug c (.node a l r))).Nodup) (hfuel : c.length ≤ fuel) :
    ∃ m', avlDelEasy fuel m a = .ok (m', top (fixUp s c)) ∧ Repr m' none (fixUp s c) ∧
      ∀ x ∉ inorder (plug c s), m' x = m x := by
  obtain ⟨hna, hout⟩ := nodup_plug hn
  have hsub : ∀ x ∈ inorder s, x ∈ inorder (.node a l r) := by
    intro x hx
    rw [hs.inorder_eq, List.mem_append] at hx
    rw [inorder_node, List.mem_append, List.mem_cons]
    tauto
  have hnp := hs.nodup hn
  have hR₁ : Repr (adopt m (top s) (above c)) (above c) s := (hs.repr h).adopt (nodup_plug hnp).1
  have he₁ : ∀ x ∉ inorder s, adopt m (top s) (above c) x = m x := fun x hx =>
    adopt_of_notMem _ hx
  have hpath : ∀ x ∈ before c ++ after c, x ∉ inorder s := fun x hx hxs => hout x (hsub x hxs) hx
  cases c with
  | nil => exact ⟨_, avlDelEasy_root hs h fuel, hR₁, fun x hx => he₁ x hx⟩
  | cons f c =>
    have hb : f.val ∉ inorder s := hpath _ (val_mem f c)
    have hslot := slotOf_step hc (adopt_of_notMem (some f.val) hb) (hout a (by simp))
    obtain ⟨l', r', hfill, hL, hP⟩ := climb hc hR₁ hnp fun x hx => he₁ x (hpath x hx)
    have hplug : plug (f :: c) s = plug c (.node f.val l' r') := congrArg (plug c) hfill
    rw [hplug] at hnp
    obtain ⟨m', d, he, hR, ht, hf⟩ := avlFix_spec hL hP hnp (Nat.lt_of_succ_le hfuel)
    rw [fixUp_step hfill, ht]
    refine ⟨m', avlDelEasy_below hs h hslot he, hR, fun x hx => ?_⟩
    have hxv : x ≠ f.val := by
      rintro rfl
      exact hx (mem_plug.mpr (.inr (val_mem f c)))
    rw [hf x (by rw [← hplug]; exact hx), stepSlot_write_ne hxv,
      he₁ x fun hxs => hx (mem_plug.mpr (.inl hxs))]

/-- What a detached node leaves: a balanced tree of the others, in their order. -/
structure Detached (m m' : Links ρ) (c : Path ρ) (a : ρ) (l r t' : BinaryTree ρ) : Prop where
  repr : Repr m' none t'
  order : inorder t' = before c ++ (inorder l ++ inorder r) ++ after c
  balanced : Balanced t'
  frame : ∀ x ∉ inorder (plug c (.node a l r)), m' x = m x

lemma avlDelEasy_detached {c : Path ρ} {m : Links ρ} {a : ρ} {l r : BinaryTree ρ} {fuel : ℕ}
    (h : Repr m none (plug c (.node a l r))) (hn : (inorder (plug c (.node a l r))).Nodup)
    (hb : Balanced (plug c (.node a l r))) (hfuel : (plug c (.node a l r)).height ≤ fuel)
    (hlr : l = .nil ∨ r = .nil) :
    ∃ m' t', avlDelEasy fuel m a = .ok (m', top t') ∧ Detached m m' c a l r t' := by
  obtain ⟨hR, hP⟩ := pathRepr_plug h
  have hlen : c.length ≤ fuel :=
    Nat.le_trans (Nat.le_of_add_right_le (length_add_height_le c _)) hfuel
  obtain ⟨hbn, hfit⟩ := (balanced_plug c _).mp hb
  obtain ⟨s, hs⟩ := exists_onlyChild hlr
  have hheight := hs.height_eq a
  obtain ⟨m', he, hR', hf⟩ := avlDelEasy_spec hR.linked hs hP hn hlen
  refine ⟨m', fixUp s c, he, hR', by rw [inorder_fixUp, hs.inorder_eq],
    fixUp_balanced (hs.balanced hbn) hfit (by omega) (by omega), fun x hx => hf x fun hx' => hx ?_⟩
  rw [mem_plug] at hx' ⊢
  refine hx'.imp_left fun hxs => ?_
  rw [hs.inorder_eq, List.mem_append] at hxs
  rw [inorder_node, List.mem_append, List.mem_cons]
  tauto

/-! ### The successor takes the node's place -/

/-- A node's links copied to another one, which its children then have as their parent. -/
def copyLinks (m : Links ρ) (node victim : ρ) : Links ρ :=
  let m := Function.update m victim (m node)
  let m := adopt m (m victim).left (some victim)
  adopt m (m victim).right (some victim)

lemma copyLinks_spec {m : Links ρ} {p : Option ρ} {a v : ρ} {l r : BinaryTree ρ}
    (h : Repr m p (.node a l r)) (hn : (inorder (.node a l r)).Nodup)
    (hv : v ∉ inorder (.node a l r)) : Repr (copyLinks m a v) p (.node v l r) ∧
      ∀ x, x ≠ v → x ∉ inorder l → x ∉ inorder r → copyLinks m a v x = m x := by
  obtain ⟨-, -, hnl, hnr, hdis⟩ := nodup_node.mp hn
  rw [inorder_node, List.mem_append, List.mem_cons, not_or, not_or] at hv
  obtain ⟨hvl, -, hvr⟩ := hv
  obtain ⟨m₂, hm₂⟩ : ∃ m₂, m₂ = Function.update m v (m a) := ⟨_, rfl⟩
  have e₂ : ∀ x ≠ v, m₂ x = m x := fun x hx => by rw [hm₂, Function.update_of_ne hx]
  have hv₂ : m₂ v = m a := by rw [hm₂, Function.update_self]
  have hl₂ : (m₂ v).left = top l := by rw [hv₂, h.1]
  obtain ⟨m₃, hm₃⟩ : ∃ m₃, m₃ = adopt m₂ (top l) (some v) := ⟨_, rfl⟩
  have e₃ : ∀ x ∉ inorder l, m₃ x = m₂ x := fun x hx => by rw [hm₃, adopt_of_notMem _ hx]
  have hr₃ : (m₃ v).right = top r := by rw [e₃ v hvl, hv₂, h.1]
  have hcopy : copyLinks m a v = adopt m₃ (top r) (some v) := by
    unfold copyLinks
    dsimp only
    rw [← hm₂, hl₂, ← hm₃, hr₃]
  have e₄ : ∀ x ∉ inorder r, copyLinks m a v x = m₃ x := fun x hx => by
    rw [hcopy, adopt_of_notMem _ hx]
  refine ⟨⟨by rw [e₄ v hvr, e₃ v hvl, hv₂, h.1]; simp, ?_, ?_⟩, fun x hxv hxl hxr => ?_⟩
  · have h₂ : Repr m₂ (some a) l := h.2.1.congr fun x hx => e₂ x (by rintro rfl; exact hvl hx)
    have h₃ : Repr m₃ (some v) l := by rw [hm₃]; exact h₂.adopt hnl
    exact h₃.congr fun x hx => e₄ x fun hx' => hdis hx hx'
  · have h₃ : Repr m₃ (some a) r := h.2.2.congr fun x hx => by
      rw [e₃ x fun hx' => hdis hx' hx, e₂ x (by rintro rfl; exact hvr hx)]
    rw [hcopy]
    exact h₃.adopt hnr
  · rw [e₄ x hxr, e₃ x hxl, e₂ x hxv]

lemma slotOf_write_ne {m : Links ρ} {c : Path ρ} {a y : ρ} (v : Option ρ)
    (hy : y ∉ before c ++ after c) : (slotOf m (above c) a).write m v y = m y := by
  cases c with
  | nil => rfl
  | cons f c =>
    have hyf : y ≠ f.val := by
      rintro rfl
      exact hy (val_mem f c)
    have habove : above (f :: c) = some f.val := rfl
    rw [habove, slotOf]
    split_ifs
    · exact setLeft_ne hyf _
    · exact setRight_ne hyf _

lemma takePlace_spec {g : Path ρ} {m : Links ρ} {a v : ρ} {l r : BinaryTree ρ}
    (h : Repr m none (plug g (.node a l r))) (hn : (inorder (plug g (.node a l r))).Nodup)
    (hv : v ∉ inorder (plug g (.node a l r))) :
    (copyLinks m a v a).parent = above g ∧
      Repr ((slotOf (copyLinks m a v) (above g) a).write (copyLinks m a v) (some v)) none
        (plug g (.node v l r)) ∧
      ∀ y ≠ v, y ∉ inorder (plug g (.node a l r)) →
        (slotOf (copyLinks m a v) (above g) a).write (copyLinks m a v) (some v) y = m y := by
  obtain ⟨hna, hout⟩ := nodup_plug hn
  have hRa := (pathRepr_plug h).1
  obtain ⟨hal, har, -⟩ := nodup_node.mp hna
  have hva : v ≠ a := by
    rintro rfl
    exact hv (mem_plug.mpr (.inl (by simp)))
  obtain ⟨hR, hf⟩ := copyLinks_spec hRa hna fun hx => hv (mem_plug.mpr (.inl hx))
  have hpath : ∀ x ∈ before g ++ after g, copyLinks m a v x = m x := by
    intro x hx
    refine hf x ?_ (fun hxl => hout x (by simp [hxl]) hx) fun hxr => hout x (by simp [hxr]) hx
    rintro rfl
    exact hv (mem_plug.mpr (.inr hx))
  refine ⟨?_, repr_plug_relink h hn hR hv hpath, fun y hyv hy => ?_⟩
  · rw [hf a hva.symm hal har, hRa.linked.parent]
  · rw [mem_plug, inorder_node, not_or] at hy
    obtain ⟨hy, hyg⟩ := hy
    simp only [List.mem_append, List.mem_cons, not_or] at hy
    rw [slotOf_write_ne _ hyg, hf y hyv hy.1 hy.2.2]

lemma avlDel_easy {m : Links ρ} {p : Option ρ} {a : ρ} {l r : BinaryTree ρ} (fuel : ℕ)
    (h : Linked m p a l r) (hlr : l = .nil ∨ r = .nil) :
    avlDel fuel m a = avlDelEasy fuel m a := by
  unfold avlDel
  rcases hlr with rfl | rfl
  · simp [h.left]
  · cases htl : (m a).left <;> simp [h.right]

lemma avlDel_two {m m₁ : Links ρ} {p q root : Option ρ} {a b v : ρ} {l rl rr : BinaryTree ρ}
    {fuel : ℕ} (h : Linked m p a l (.node b rl rr)) (hl : l ≠ .nil)
    (hv : leftmost fuel m b = .ok v) (he : avlDelEasy fuel m v = .ok (m₁, root))
    (hp : (copyLinks m₁ a v a).parent = q) : avlDel fuel m a =
      .ok ((slotOf (copyLinks m₁ a v) q a).write (copyLinks m₁ a v) (some v),
        if q.isSome then root else some v) := by
  cases l with
  | nil => exact absurd rfl hl
  | node x xl xr =>
    subst hp
    unfold copyLinks
    simp only [avlDel, h.left, h.right, top_node, hv, ok_bind, he, pure_eq_ok]

/-- **Deletion.** `avlDel` detaches any node of a balanced tree. -/
theorem avlDel_rounds {c : Path ρ} {m : Links ρ} {a : ρ} {l r : BinaryTree ρ} {fuel : ℕ}
    (h : Repr m none (plug c (.node a l r))) (hn : (inorder (plug c (.node a l r))).Nodup)
    (hb : Balanced (plug c (.node a l r))) (hfuel : (plug c (.node a l r)).height ≤ fuel) :
    ∃ m' t', avlDel fuel m a = .ok (m', top t') ∧ Detached m m' c a l r t' := by
  have hL := (pathRepr_plug h).1.linked
  by_cases hlr : l = .nil ∨ r = .nil
  · rw [avlDel_easy fuel hL hlr]
    exact avlDelEasy_detached h hn hb hfuel hlr
  rw [not_or] at hlr
  obtain ⟨b, rl, rr, rfl⟩ : ∃ b rl rr, r = .node b rl rr := by
    cases r with
    | nil => exact absurd rfl hlr.2
    | node b rl rr => exact ⟨b, rl, rr, rfl⟩
  obtain ⟨v, e, k, ys, hev, hplug, hbef, haft, hin⟩ := exists_successor h hfuel
  rw [hplug] at h hn hb hfuel
  obtain ⟨m₁, t₁, he₁, hd₁⟩ := avlDelEasy_detached h hn hb hfuel (.inl rfl)
  have hord₁ : inorder t₁ = before c ++ inorder l ++ a :: (ys ++ after c) := by
    rw [hd₁.order, hbef, ← haft]
    simp
  have hperm : (inorder (plug e (.node v .nil k))).Perm (v :: inorder t₁) := by
    rw [inorder_plug, hd₁.order]
    simp
  obtain ⟨hv₁, hn₁⟩ := List.nodup_cons.mp (hperm.nodup_iff.mp hn)
  obtain ⟨g, l₂, r₂, rfl, hsplit⟩ := find_again hord₁ hn₁
  obtain ⟨hp, hR, hf⟩ := takePlace_spec hd₁.repr hn₁ hv₁
  refine ⟨_, plug g (.node v l₂ r₂), ?_, hR, ?_, ?_, fun y hy => ?_⟩
  · rw [avlDel_two hL hlr.1 hev he₁ hp]
    congr 2
    cases g with
    | nil => rfl
    | cons f g => cases f <;> exact top_plug_cons _ _ _ _
  · rw [inorder_plug, inorder_node, hin]
    calc before g ++ (inorder l₂ ++ v :: inorder r₂) ++ after g
        = (before g ++ inorder l₂) ++ v :: (inorder r₂ ++ after g) := by simp
      _ = before c ++ inorder l ++ v :: (ys ++ after c) := by rw [hsplit.1, hsplit.2]
      _ = before c ++ (inorder l ++ v :: ys) ++ after c := by simp
  · have hb₁ := hd₁.balanced
    rw [balanced_plug] at hb₁ ⊢
    exact hb₁
  · rw [hplug] at hy
    have hno := mt hperm.mem_iff.mpr hy
    rw [List.mem_cons, not_or] at hno
    rw [hf y hno.1 hno.2, hd₁.frame y hy]

theorem avlDel_spec {c : Path ρ} {m : Links ρ} {a : ρ} {l r : BinaryTree ρ} {fuel : ℕ}
    (h : Repr m none (plug c (.node a l r))) (hn : (inorder (plug c (.node a l r))).Nodup)
    (hb : Balanced (plug c (.node a l r))) (hfuel : (plug c (.node a l r)).numNodes ≤ fuel) :
    ∃ m' t', avlDel fuel m a = .ok (m', top t') ∧ Detached m m' c a l r t' :=
  avlDel_rounds h hn hb (Nat.le_trans (BinaryTree.height_le_numNodes _) hfuel)

end ByoRedis.AvlDel
