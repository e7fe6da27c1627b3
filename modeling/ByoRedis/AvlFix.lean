import ByoRedis.AvlTree

/-!
`avl_fix` and `avl_del` on the links compute `fixUp` on the tree.

`avlFix` starts at a node whose two sides are right and climbs its path; nothing is assumed
about the balance of the tree, so a rotation is met only where the pointers it follows exist
because the heights say so.
-/

namespace ByoRedis.AvlFix

open ByoRedis.Basic ByoRedis.Avl ByoRedis.AvlTree ByoRedis.Lib.Trees ByoRedis.Lib.Runs

variable {ρ : Type} [DecidableEq ρ]

/-! ### The repair of one node -/

lemma avlFixLeft_spec {m : Links ρ} {p : Option ρ} {a : ρ} {l r : BinaryTree ρ}
    (h : Linked m p a l r) (hn : (inorder (.node a l r)).Nodup)
    (hh : l.height = r.height + 2) :
    ∃ m' b, avlFixLeft m a = .ok (m', b) ∧ Repr m' p (repairLeft a l r) ∧
      top (repairLeft a l r) = some b ∧ ∀ c ∉ inorder (.node a l r), m' c = m c := by
  rcases l with _ | ⟨b, ll, lr⟩
  · simp at hh
  obtain ⟨hal, har, hl, hr, hdis⟩ := nodup_node.mp hn
  obtain ⟨hb, hll, hlr⟩ := h.lrepr
  have e1 : avlHeight m (m b).left = ll.height := by rw [hb]; exact avlHeight_top hll
  have e2 : avlHeight m (m b).right = lr.height := by rw [hb]; exact avlHeight_top hlr
  by_cases hc : ll.height < lr.height
  · -- the inner grandchild is the higher one
    rcases lr with _ | ⟨d, x, k⟩
    · simp at hc
    obtain ⟨m₁, he₁, hR₁, hf₁⟩ := rotLeft_spec (Repr.linked ⟨hb, hll, hlr⟩) hl
    have hin : inorder (BinaryTree.node d (.node b ll x) k) =
        inorder (.node b ll (.node d x k)) := by
      simp
    have hal₁ : a ∉ inorder (BinaryTree.node d (.node b ll x) k) := by rw [hin]; exact hal
    have ha₁ : m₁ a = m a := hf₁ a hal
    have hr₁ : Repr m₁ (some a) r := h.rrepr.congr fun c hc' => hf₁ c fun hcl => hdis hcl hc'
    have hL₂ : Linked (Avl.setLeft m₁ a (some d)) p a (.node d (.node b ll x) k) r := by
      refine ⟨by simp [ha₁, h.parent], by simp, by simp [ha₁, h.right], ?_, ?_⟩
      · exact hR₁.congr fun c hc' => setLeft_ne (by rintro rfl; exact hal₁ hc') _
      · exact hr₁.congr fun c hc' => setLeft_ne (by rintro rfl; exact har hc') _
    have hn₂ : (inorder (.node a (.node d (.node b ll x) k) r)).Nodup := by
      rw [inorder_node, hin]; exact hn
    obtain ⟨m₃, he₃, hR₃, hf₃⟩ := rotRight_spec hL₂ hn₂
    refine ⟨m₃, d, ?_, ?_, ?_, fun c hc' => ?_⟩
    · simp only [avlFixLeft, h.left, top_node, e1, e2, hc, if_true, he₁, ok_bind, he₃]
    · rw [repairLeft_double hc]; exact hR₃
    · rw [repairLeft_double hc]; rfl
    · have hca : c ≠ a := by rintro rfl; simp at hc'
      rw [hf₃ c (by rw [inorder_node, hin]; exact hc'), setLeft_ne hca,
        hf₁ c fun hcl => hc' (by rw [inorder_node]; exact List.mem_append_left _ hcl)]
  · obtain ⟨m₁, he₁, hR₁, hf₁⟩ := rotRight_spec h hn
    refine ⟨m₁, b, ?_, ?_, ?_, hf₁⟩
    · simp only [avlFixLeft, h.left, top_node, e1, e2, hc, if_false, he₁]
    · rw [repairLeft_single hc]; exact hR₁
    · rw [repairLeft_single hc]; rfl

lemma avlFixRight_exchange (m : Links ρ) (a : ρ) :
    avlFixRight (exchange m) a = (avlFixLeft m a).map fun x => (exchange x.1, x.2) := by
  have hright : (exchange m a).right = (m a).left := rfl
  unfold avlFixRight avlFixLeft
  rw [hright]
  cases (m a).left with
  | none => rfl
  | some b =>
    have hl : avlHeight (exchange m) (exchange m b).right = avlHeight m (m b).left :=
      avlHeight_exchange m _
    have hr : avlHeight (exchange m) (exchange m b).left = avlHeight m (m b).right :=
      avlHeight_exchange m _
    dsimp only
    rw [hl, hr, rotRight_exchange]
    split_ifs
    · cases rotLeft m b with
      | error f => rfl
      | ok x =>
        have hset := rotLeft_exchange (setLeft x.1 a (some x.2)) a
        rw [exchange_setLeft] at hset
        exact hset
    · exact rotLeft_exchange m a

lemma avlFixRight_spec {m : Links ρ} {p : Option ρ} {a : ρ} {l r : BinaryTree ρ}
    (h : Linked m p a l r) (hn : (inorder (.node a l r)).Nodup)
    (hh : r.height = l.height + 2) :
    ∃ m' b, avlFixRight m a = .ok (m', b) ∧ Repr m' p (repairRight a l r) ∧
      top (repairRight a l r) = some b ∧ ∀ c ∉ inorder (.node a l r), m' c = m c := by
  have hn' : (inorder (mirror (.node a l r))).Nodup := by
    rw [inorder_mirror, List.nodup_reverse]
    exact hn
  obtain ⟨m', b, he, hR, ht, hf⟩ := avlFixLeft_spec h.exchange hn'
    (by rw [height_mirror, height_mirror, hh])
  rw [repairRight_eq, top_mirror]
  refine ⟨exchange m', b, ?_, hR.exchange, ht, fun c hc => exchange_inj (hf c ?_)⟩
  · rw [← exchange_exchange m, avlFixRight_exchange, he]
    rfl
  · change c ∉ inorder (mirror (.node a l r))
    rwa [inorder_mirror, List.mem_reverse]

/-! ### Climbing -/

lemma slotOf_left {m : Links ρ} {a b : ρ} (h : (m b).left = some a) :
    slotOf m (some b) a = .left b := by simp [slotOf, h]

lemma slotOf_right {m : Links ρ} {a b : ρ} (h : (m b).left ≠ some a) :
    slotOf m (some b) a = .right b := by simp [slotOf, h]

lemma climb_left {m m₂ : Links ρ} {b : ρ} {r t : BinaryTree ρ} {c : Path ρ} {h : Option ρ}
    (hp : PathRepr m (.left b r :: c) h) (ht : Repr m₂ (some b) t)
    (hn : (inorder (plug (.left b r :: c) t)).Nodup)
    (he : ∀ x ∈ before (.left b r :: c) ++ after (.left b r :: c), m₂ x = m x) :
    Linked (setLeft m₂ b (top t)) (above c) b t r ∧
      PathRepr (setLeft m₂ b (top t)) c (some b) := by
  obtain ⟨h1, h2, h3, hr, hc⟩ := hp
  obtain ⟨hn, hout⟩ := nodup_plug (c := c) (by simpa only [plug_left] using hn)
  obtain ⟨hbt, hbr, -⟩ := nodup_node.mp hn
  simp only [before, after, List.mem_append, List.mem_cons] at he
  have hb : m₂ b = m b := he b (by tauto)
  refine ⟨⟨by simp [hb, h1], by simp, by simp [hb, h3], ?_, ?_⟩, ?_⟩
  · exact ht.congr fun x hx => setLeft_ne (by rintro rfl; exact hbt hx) _
  · refine hr.congr fun x hx => ?_
    rw [setLeft_ne (by rintro rfl; exact hbr hx), he x (by tauto)]
  · refine hc.congr fun x hx => ?_
    have hxb : x ≠ b := by rintro rfl; exact hout x (by simp) hx
    rw [setLeft_ne hxb, he x (by rw [List.mem_append] at hx; tauto)]

lemma climb_right {m m₂ : Links ρ} {b : ρ} {l t : BinaryTree ρ} {c : Path ρ} {h : Option ρ}
    (hp : PathRepr m (.right b l :: c) h) (ht : Repr m₂ (some b) t)
    (hn : (inorder (plug (.right b l :: c) t)).Nodup)
    (he : ∀ x ∈ before (.right b l :: c) ++ after (.right b l :: c), m₂ x = m x) :
    Linked (setRight m₂ b (top t)) (above c) b l t ∧
      PathRepr (setRight m₂ b (top t)) c (some b) := by
  obtain ⟨h1, h2, h3, hl, hc⟩ := hp
  obtain ⟨hn, hout⟩ := nodup_plug (c := c) (by simpa only [plug_right] using hn)
  obtain ⟨hbl, hbt, -⟩ := nodup_node.mp hn
  simp only [before, after, List.mem_append, List.mem_cons, List.not_mem_nil, or_false] at he
  have hb : m₂ b = m b := he b (by tauto)
  refine ⟨⟨by simp [hb, h1], by simp [hb, h2], by simp, ?_, ?_⟩, ?_⟩
  · refine hl.congr fun x hx => ?_
    rw [setRight_ne (by rintro rfl; exact hbl hx), he x (by tauto)]
  · exact ht.congr fun x hx => setRight_ne (by rintro rfl; exact hbt hx) _
  · refine hc.congr fun x hx => ?_
    have hxb : x ≠ b := by rintro rfl; exact hout x (by simp) hx
    rw [setRight_ne hxb, he x (by rw [List.mem_append] at hx; tauto)]

/-- The child link that a step of a path goes up from. -/
def stepSlot : Frame ρ → Slot ρ
  | .left b _ => .left b
  | .right b _ => .right b

lemma slotOf_step {m m' : Links ρ} {f : Frame ρ} {c : Path ρ} {a : ρ}
    (hc : PathRepr m (f :: c) (some a)) (hm : m' f.val = m f.val)
    (ha : a ∉ before (f :: c) ++ after (f :: c)) : slotOf m' (some f.val) a = stepSlot f := by
  cases f with
  | left b r =>
    have hleft : (m' b).left = some a := (congrArg _ hm).trans hc.2.1
    exact slotOf_left hleft
  | right b l =>
    have hleft : (m' b).left = top l := (congrArg _ hm).trans hc.2.1
    refine slotOf_right fun hl => ha ?_
    simp [before, after, mem_of_top (hleft.symm.trans hl)]

lemma stepSlot_write_ne {m : Links ρ} {f : Frame ρ} {v : Option ρ} {x : ρ} (hx : x ≠ f.val) :
    (stepSlot f).write m v x = m x := by
  cases f with
  | left b r => exact setLeft_ne hx _
  | right b l => exact setRight_ne hx _

lemma stepSlot_write_same {m m' : Links ρ} {f : Frame ρ} {c : Path ρ} {h : Option ρ}
    (hc : PathRepr m (f :: c) h) (hm : m' f.val = m f.val) : (stepSlot f).write m' h = m' := by
  cases f with
  | left b r =>
    have e : (m' b).left = h := (congrArg _ hm).trans hc.2.1
    simp only [stepSlot, Slot.write, setLeft, ← e]
    exact Function.update_eq_self b _
  | right b l =>
    have e : (m' b).right = h := (congrArg _ hm).trans hc.2.2.1
    simp only [stepSlot, Slot.write, setRight, ← e]
    exact Function.update_eq_self b _

lemma climb {m m₂ : Links ρ} {f : Frame ρ} {t : BinaryTree ρ} {c : Path ρ} {h : Option ρ}
    (hp : PathRepr m (f :: c) h) (ht : Repr m₂ (some f.val) t)
    (hn : (inorder (plug (f :: c) t)).Nodup)
    (he : ∀ x ∈ before (f :: c) ++ after (f :: c), m₂ x = m x) :
    ∃ l r, f.fill t = .node f.val l r ∧
      Linked ((stepSlot f).write m₂ (top t)) (above c) f.val l r ∧
      PathRepr ((stepSlot f).write m₂ (top t)) c (some f.val) := by
  cases f with
  | left b r => exact ⟨t, r, rfl, climb_left hp ht hn he⟩
  | right b l => exact ⟨l, t, rfl, climb_right hp ht hn he⟩

/-- One round of the loop: the node is rebalanced, and the slot holds the result. -/
lemma avlFixNode_spec {m : Links ρ} {p : Option ρ} {a : ρ} {l r : BinaryTree ρ} {slot : Slot ρ}
    (h : Linked m p a l r) (hn : (inorder (.node a l r)).Nodup)
    (hs : slot.write (avlUpdate m a) (some a) = avlUpdate m a) :
    ∃ m₂ b, avlFixNode m a slot = .ok (slot.write m₂ (some b), b) ∧
      Repr m₂ p (rebalance a l r) ∧ top (rebalance a l r) = some b ∧
      ∀ c ∉ inorder (.node a l r), m₂ c = m c := by
  have hR := avlUpdate_repr h hn
  have hL := hR.linked
  have hf : ∀ c ∉ inorder (.node a l r), avlUpdate m a c = m c := fun c hc =>
    avlUpdate_ne (by rintro rfl; simp at hc)
  unfold rebalance avlFixNode
  simp only [hL.left, hL.right, avlHeight_top hL.lrepr, avlHeight_top hL.rrepr]
  split_ifs with h1 h2
  · obtain ⟨m₂, b, he, hR₂, ht, hf₂⟩ := avlFixLeft_spec hL hn h1
    exact ⟨m₂, b, by simp [he], hR₂, ht, fun c hc => by rw [hf₂ c hc, hf c hc]⟩
  · obtain ⟨m₂, b, he, hR₂, ht, hf₂⟩ := avlFixRight_spec hL hn h2
    exact ⟨m₂, b, by simp [he], hR₂, ht, fun c hc => by rw [hf₂ c hc, hf c hc]⟩
  · exact ⟨_, a, by simp [hs], hR, rfl, hf⟩

/-- **The loop climbs the path**: `avlFix` computes `fixUp`, and touches the tree only. -/
theorem avlFix_spec {c : Path ρ} {m : Links ρ} {a : ρ} {l r : BinaryTree ρ} {fuel : ℕ}
    (h : Linked m (above c) a l r) (hc : PathRepr m c (some a))
    (hn : (inorder (plug c (.node a l r))).Nodup) (hfuel : c.length < fuel) :
    ∃ m' b, avlFix fuel m a = .ok (m', b) ∧ Repr m' none (fixUp (rebalance a l r) c) ∧
      top (fixUp (rebalance a l r) c) = some b ∧
      ∀ x ∉ inorder (plug c (.node a l r)), m' x = m x := by
  induction c generalizing m a l r fuel with
  | nil =>
    obtain ⟨fuel, rfl⟩ : ∃ k, fuel = k + 1 := ⟨fuel - 1, by simp at hfuel; omega⟩
    obtain ⟨m₂, b, he, hR, ht, hf⟩ := avlFixNode_spec h hn
      (rfl : Slot.root.write (avlUpdate m a) (some a) = avlUpdate m a)
    refine ⟨m₂, b, ?_, hR, ht, hf⟩
    simp only [avlFix, h.parent, above_nil, slotOf, he, ok_bind, Slot.write, pure_eq_ok]
  | cons f c ih =>
    obtain ⟨fuel, rfl⟩ : ∃ k, fuel = k + 1 := ⟨fuel - 1, by simp at hfuel; omega⟩
    obtain ⟨hna, hout⟩ := nodup_plug hn
    have ha : a ∉ before (f :: c) ++ after (f :: c) := hout a (by simp)
    have hval : f.val ≠ a := fun e => ha (e ▸ val_mem f c)
    obtain ⟨m₂, d, he, hR, ht, hf⟩ :=
      avlFixNode_spec h hna (stepSlot_write_same hc (avlUpdate_ne hval))
    -- the rebalancing keeps the order of the whole tree
    have hin : inorder (plug (f :: c) (rebalance a l r)) =
        inorder (plug (f :: c) (.node a l r)) := by
      rw [inorder_plug, inorder_plug, inorder_rebalance, inorder_node]
    obtain ⟨l', r', hfill, hL, hP⟩ := climb hc hR (by rw [hin]; exact hn)
      fun x hx => hf x fun hx' => hout x hx' hx
    have hplug : inorder (plug c (.node f.val l' r')) = inorder (plug (f :: c) (.node a l r)) := by
      rw [← hfill]
      exact hin
    rw [← ht] at he
    obtain ⟨m', d', he', hR', ht', hf'⟩ := ih hL hP (by rw [hplug]; exact hn)
      (by simp at hfuel; omega : c.length < fuel)
    rw [fixUp_step hfill]
    refine ⟨m', d', ?_, hR', ht', fun x hx => ?_⟩
    · have hparent : (m a).parent = some f.val := h.parent
      simp only [avlFix, hparent, slotOf_step hc rfl ha, he, ok_bind, he']
    · have hx' : x ∉ inorder (.node a l r) := fun hm => hx (mem_plug.mpr (.inl hm))
      have hxv : x ≠ f.val := by
        rintro rfl
        exact hx (mem_plug.mpr (.inr (val_mem f c)))
      rw [hf' x (by rw [hplug]; exact hx), stepSlot_write_ne hxv, hf x hx']

end ByoRedis.AvlFix
