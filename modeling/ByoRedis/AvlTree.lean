import ByoRedis.Lib.Trees
import ByoRedis.Avl

/-!
When the links in memory are a tree, and what the rotations do to it.

`Repr` says that the nodes of a tree are linked as the tree says, with exact heights and with
sizes cut to 32 bits. `Linked` says the same of a node whose own height and size may be out of
date, and `PathRepr` of the nodes above one, where they are out of date while `avlFix` climbs.
-/

namespace ByoRedis.AvlTree

open ByoRedis.Basic ByoRedis.Avl ByoRedis.Lib.Trees ByoRedis.Lib.Runs

variable {ρ : Type}

/-- The links are those of the tree, below the given parent. -/
def Repr (m : Links ρ) : Option ρ → BinaryTree ρ → Prop
  | _, .nil => True
  | p, .node a l r =>
    m a = ⟨p, top l, top r, (BinaryTree.node a l r).height,
      (BinaryTree.node a l r).numNodes % 2 ^ 32⟩ ∧ Repr m (some a) l ∧ Repr m (some a) r

/-- The links of a node over two trees; its own height and size are left open. -/
structure Linked (m : Links ρ) (p : Option ρ) (a : ρ) (l r : BinaryTree ρ) : Prop where
  parent : (m a).parent = p
  left : (m a).left = top l
  right : (m a).right = top r
  lrepr : Repr m (some a) l
  rrepr : Repr m (some a) r

/-- The links of the nodes above the lower end `h` of a path, and of what hangs off them. -/
def PathRepr (m : Links ρ) : Path ρ → Option ρ → Prop
  | [], _ => True
  | .left a r :: c, h =>
    (m a).parent = above c ∧ (m a).left = h ∧ (m a).right = top r ∧ Repr m (some a) r ∧
      PathRepr m c (some a)
  | .right a l :: c, h =>
    (m a).parent = above c ∧ (m a).left = top l ∧ (m a).right = h ∧ Repr m (some a) l ∧
      PathRepr m c (some a)

lemma Repr.linked {m : Links ρ} {p : Option ρ} {a : ρ} {l r : BinaryTree ρ}
    (h : Repr m p (.node a l r)) : Linked m p a l r := by
  obtain ⟨ha, hl, hr⟩ := h
  exact ⟨by rw [ha], by rw [ha], by rw [ha], hl, hr⟩

lemma mem_of_top {t : BinaryTree ρ} {a : ρ} (h : top t = some a) : a ∈ inorder t := by
  cases t with
  | nil => simp at h
  | node b l r => simp only [top_node, Option.some.injEq] at h; simp [h]

/-! ### Frames -/

lemma Repr.congr {m m' : Links ρ} {p : Option ρ} {t : BinaryTree ρ} (h : Repr m p t)
    (e : ∀ a ∈ inorder t, m' a = m a) : Repr m' p t := by
  induction t generalizing p with
  | nil => trivial
  | node a l r ihl ihr =>
    obtain ⟨ha, hl, hr⟩ := h
    exact ⟨by rw [e a (by simp), ha], ihl hl fun b hb => e b (by simp [hb]),
      ihr hr fun b hb => e b (by simp [hb])⟩

lemma PathRepr.congr {m m' : Links ρ} {c : Path ρ} {h : Option ρ} (hc : PathRepr m c h)
    (e : ∀ a ∈ before c ++ after c, m' a = m a) : PathRepr m' c h := by
  induction c generalizing h with
  | nil => trivial
  | cons f c ih =>
    cases f with
    | left a r =>
      obtain ⟨h1, h2, h3, hr, hc⟩ := hc
      have ea := e a (by simp [before, after])
      refine ⟨by rw [ea, h1], by rw [ea, h2], by rw [ea, h3],
        hr.congr fun b hb => e b (by simp [before, after, hb]), ih hc fun b hb => e b ?_⟩
      simp only [before, after, List.mem_append, List.mem_cons] at hb ⊢
      tauto
    | right a l =>
      obtain ⟨h1, h2, h3, hl, hc⟩ := hc
      have ea := e a (by simp [before, after])
      refine ⟨by rw [ea, h1], by rw [ea, h2], by rw [ea, h3],
        hl.congr fun b hb => e b (by simp [before, after, hb]), ih hc fun b hb => e b ?_⟩
      simp only [before, after, List.mem_append, List.mem_cons] at hb ⊢
      tauto

lemma Linked.congr {m m' : Links ρ} {p : Option ρ} {a : ρ} {l r : BinaryTree ρ}
    (h : Linked m p a l r) (e : ∀ b ∈ inorder (.node a l r), m' b = m b) :
    Linked m' p a l r := by
  have ea := e a (by simp)
  exact ⟨by rw [ea, h.parent], by rw [ea, h.left], by rw [ea, h.right],
    h.lrepr.congr fun b hb => e b (by simp [hb]), h.rrepr.congr fun b hb => e b (by simp [hb])⟩

lemma pathRepr_plug {m : Links ρ} {c : Path ρ} {t : BinaryTree ρ}
    (h : Repr m none (plug c t)) : Repr m (above c) t ∧ PathRepr m c (top t) := by
  induction c generalizing t with
  | nil => exact ⟨h, trivial⟩
  | cons f c ih =>
    cases f with
    | left a r =>
      obtain ⟨⟨ha, hl, hr⟩, hc⟩ := ih h
      exact ⟨hl, by rw [ha], by rw [ha], by rw [ha], hr, hc⟩
    | right a l =>
      obtain ⟨⟨ha, hl, hr⟩, hc⟩ := ih h
      exact ⟨hr, by rw [ha], by rw [ha], by rw [ha], hl, hc⟩

lemma avlHeight_top {m : Links ρ} {p : Option ρ} {t : BinaryTree ρ} (h : Repr m p t) :
    avlHeight m (top t) = t.height := by
  cases t with
  | nil => rfl
  | node a l r => simp [avlHeight, h.1]

lemma avlSize_top {m : Links ρ} {p : Option ρ} {t : BinaryTree ρ} (h : Repr m p t) :
    avlSize m (top t) = t.numNodes % 2 ^ 32 := by
  cases t with
  | nil => rfl
  | node a l r => simp [avlSize, h.1]

/-! ### Single updates -/

variable [DecidableEq ρ]

@[simp] lemma setParent_ne {m : Links ρ} {a b : ρ} (h : b ≠ a) (p : Option ρ) :
    setParent m a p b = m b := Function.update_of_ne h _ _
@[simp] lemma setLeft_ne {m : Links ρ} {a b : ρ} (h : b ≠ a) (p : Option ρ) :
    setLeft m a p b = m b := Function.update_of_ne h _ _
@[simp] lemma setRight_ne {m : Links ρ} {a b : ρ} (h : b ≠ a) (p : Option ρ) :
    setRight m a p b = m b := Function.update_of_ne h _ _
@[simp] lemma avlUpdate_ne {m : Links ρ} {a b : ρ} (h : b ≠ a) : avlUpdate m a b = m b :=
  Function.update_of_ne h _ _
@[simp] lemma setParent_self (m : Links ρ) (a : ρ) (p : Option ρ) :
    setParent m a p a = { m a with parent := p } := Function.update_self ..
@[simp] lemma setLeft_self (m : Links ρ) (a : ρ) (p : Option ρ) :
    setLeft m a p a = { m a with left := p } := Function.update_self ..
@[simp] lemma setRight_self (m : Links ρ) (a : ρ) (p : Option ρ) :
    setRight m a p a = { m a with right := p } := Function.update_self ..

lemma adopt_of_notMem {m : Links ρ} {t : BinaryTree ρ} {b : ρ} (p : Option ρ)
    (h : b ∉ inorder t) : adopt m (top t) p b = m b := by
  cases t with
  | nil => rfl
  | node a l r => exact setParent_ne (by rintro rfl; simp at h) p

lemma Repr.adopt {m : Links ρ} {p q : Option ρ} {t : BinaryTree ρ} (h : Repr m p t)
    (hn : (inorder t).Nodup) : Repr (adopt m (top t) q) q t := by
  cases t with
  | nil => trivial
  | node a l r =>
    obtain ⟨ha, hl, hr⟩ := h
    obtain ⟨hal, har, -⟩ := nodup_node.mp hn
    refine ⟨by simp [Avl.adopt, ha], hl.congr fun b hb => ?_, hr.congr fun b hb => ?_⟩
    · exact setParent_ne (by rintro rfl; exact hal hb) q
    · exact setParent_ne (by rintro rfl; exact har hb) q

lemma avlUpdate_repr {m : Links ρ} {p : Option ρ} {a : ρ} {l r : BinaryTree ρ}
    (h : Linked m p a l r) (hn : (inorder (.node a l r)).Nodup) :
    Repr (avlUpdate m a) p (.node a l r) := by
  obtain ⟨hal, har, -⟩ := nodup_node.mp hn
  have hself : avlUpdate m a a = ⟨p, top l, top r, (BinaryTree.node a l r).height,
      (BinaryTree.node a l r).numNodes % 2 ^ 32⟩ := by
    simp only [avlUpdate, Function.update_self, h.parent, h.left, h.right, avlHeight_top h.lrepr,
      avlHeight_top h.rrepr, avlSize_top h.lrepr, avlSize_top h.rrepr, AvlNode.mk.injEq,
      true_and, BinaryTree.height, BinaryTree.numNodes]
    omega
  refine ⟨hself, h.lrepr.congr fun b hb => ?_, h.rrepr.congr fun b hb => ?_⟩
  · exact avlUpdate_ne (by rintro rfl; exact hal hb)
  · exact avlUpdate_ne (by rintro rfl; exact har hb)

/-! ### Rotations -/

lemma rotLeft_spec {m : Links ρ} {p : Option ρ} {a b : ρ} {l x r : BinaryTree ρ}
    (h : Linked m p a l (.node b x r)) (hn : (inorder (.node a l (.node b x r))).Nodup) :
    ∃ m', rotLeft m a = .ok (m', b) ∧ Repr m' p (.node b (.node a l x) r) ∧
      ∀ c ∉ inorder (.node a l (.node b x r)), m' c = m c := by
  obtain ⟨hal, habxr, hl, hbxr, hdis⟩ := nodup_node.mp hn
  obtain ⟨hbx, hbr, hx, hr, hxr⟩ := nodup_node.mp hbxr
  obtain ⟨hb, hxR, hrR⟩ := h.rrepr
  simp only [inorder_node, List.mem_append, List.mem_cons, not_or] at habxr
  obtain ⟨hax, hab, har⟩ := habxr
  have hbl : b ∉ inorder l := fun hb' => hdis hb' (by simp)
  have hnal : (inorder (.node a l x)).Nodup := nodup_node.mpr
    ⟨hal, hax, hl, hx, fun c h1 h2 => hdis h1 (by simp [h2])⟩
  have hnew : (inorder (.node b (.node a l x) r)).Nodup := by
    have e : inorder (.node b (.node a l x) r) = inorder (.node a l (.node b x r)) := by simp
    rw [e]; exact hn
  -- the links before the two updates of heights and sizes
  obtain ⟨m₂, hm₂⟩ : ∃ m₂, m₂ = adopt (setRight m a (top x)) (top x) (some a) := ⟨_, rfl⟩
  obtain ⟨m₅, hm₅⟩ : ∃ m₅, m₅ = setParent (setLeft (setParent m₂ b p) b (some a)) a (some b) :=
    ⟨_, rfl⟩
  have e₂ : ∀ c, c ≠ a → c ∉ inorder x → m₂ c = m c := fun c hc hcx => by
    rw [hm₂, adopt_of_notMem _ hcx, setRight_ne hc]
  have e₅ : ∀ c, c ≠ a → c ≠ b → m₅ c = m₂ c := fun c hca hcb => by
    rw [hm₅, setParent_ne hca, setLeft_ne hcb, setParent_ne hcb]
  have hxR₂ : Repr m₂ (some a) x := by
    rw [hm₂]
    refine Repr.adopt (p := some b) (hxR.congr fun c hc => setRight_ne ?_ _) hx
    rintro rfl; exact hax hc
  have ha₅ : m₅ a = { m a with parent := some b, right := top x } := by
    rw [hm₅, setParent_self, setLeft_ne hab, setParent_ne hab, hm₂, adopt_of_notMem _ hax,
      setRight_self]
  have hb₅ : m₅ b = { m b with parent := p, left := some a } := by
    rw [hm₅, setParent_ne (Ne.symm hab), setLeft_self, setParent_self, e₂ b (Ne.symm hab) hbx]
  have hL₅ : Linked m₅ (some b) a l x := by
    refine ⟨by rw [ha₅], by rw [ha₅]; exact h.left, by rw [ha₅], ?_, ?_⟩
    · refine h.lrepr.congr fun c hc => ?_
      have hca : c ≠ a := by rintro rfl; exact hal hc
      rw [e₅ c hca (by rintro rfl; exact hbl hc),
        e₂ c hca fun hcx => hdis hc (by simp [hcx])]
    · refine hxR₂.congr fun c hc => e₅ c ?_ ?_
      · rintro rfl; exact hax hc
      · rintro rfl; exact hbx hc
  have hR₆ := avlUpdate_repr hL₅ hnal
  have hL₇ : Linked (avlUpdate m₅ a) p b (.node a l x) r := by
    have eb : avlUpdate m₅ a b = m₅ b := avlUpdate_ne (Ne.symm hab)
    refine ⟨by rw [eb, hb₅], by rw [eb, hb₅]; rfl, by rw [eb, hb₅, hb], hR₆, ?_⟩
    refine hrR.congr fun c hc => ?_
    have hca : c ≠ a := by rintro rfl; exact har hc
    rw [avlUpdate_ne hca, e₅ c hca (by rintro rfl; exact hbr hc),
      e₂ c hca fun hcx => hxr hcx hc]
  refine ⟨avlUpdate (avlUpdate m₅ a) b, ?_, avlUpdate_repr hL₇ hnew, fun c hc => ?_⟩
  · have hbl' : (m b).left = top x := by rw [hb]
    simp only [rotLeft, h.right, top_node, h.parent, hbl', ← hm₂, ← hm₅, pure_eq_ok]
  · simp only [inorder_node, List.mem_append, List.mem_cons, not_or] at hc
    obtain ⟨-, hca, hcx, hcb, -⟩ := hc
    rw [avlUpdate_ne hcb, avlUpdate_ne hca, e₅ c hca hcb, e₂ c hca hcx]

/-! ### Mirror images -/

def exchangeNode (n : AvlNode ρ) : AvlNode ρ := { n with left := n.right, right := n.left }

/-- The links with left and right exchanged. -/
def exchange (m : Links ρ) : Links ρ := exchangeNode ∘ m

omit [DecidableEq ρ] in
lemma exchange_exchange (m : Links ρ) : exchange (exchange m) = m := rfl

omit [DecidableEq ρ] in
lemma exchange_inj {m m' : Links ρ} {a : ρ} (h : exchange m a = exchange m' a) : m a = m' a :=
  congrArg exchangeNode h

omit [DecidableEq ρ] in
lemma Repr.exchange {m : Links ρ} {p : Option ρ} {t : BinaryTree ρ} (h : Repr m p t) :
    Repr (exchange m) p (mirror t) := by
  induction t generalizing p with
  | nil => trivial
  | node a l r ihl ihr =>
    obtain ⟨ha, hl, hr⟩ := h
    refine ⟨?_, ihr hr, ihl hl⟩
    rw [← mirror_node, height_mirror, numNodes_mirror, top_mirror, top_mirror]
    exact congrArg exchangeNode ha

omit [DecidableEq ρ] in
lemma Linked.exchange {m : Links ρ} {p : Option ρ} {a : ρ} {l r : BinaryTree ρ}
    (h : Linked m p a l r) : Linked (exchange m) p a (mirror r) (mirror l) := by
  refine ⟨h.parent, ?_, ?_, h.rrepr.exchange, h.lrepr.exchange⟩
  · rw [top_mirror]
    exact h.right
  · rw [top_mirror]
    exact h.left

omit [DecidableEq ρ] in
lemma avlHeight_exchange (m : Links ρ) (p : Option ρ) :
    avlHeight (exchange m) p = avlHeight m p := by
  cases p <;> rfl

omit [DecidableEq ρ] in
lemma avlSize_exchange (m : Links ρ) (p : Option ρ) : avlSize (exchange m) p = avlSize m p := by
  cases p <;> rfl

lemma exchange_setParent (m : Links ρ) (a : ρ) (p : Option ρ) :
    exchange (setParent m a p) = setParent (exchange m) a p := Function.comp_update ..

lemma exchange_setLeft (m : Links ρ) (a : ρ) (p : Option ρ) :
    exchange (setLeft m a p) = setRight (exchange m) a p := Function.comp_update ..

lemma exchange_setRight (m : Links ρ) (a : ρ) (p : Option ρ) :
    exchange (setRight m a p) = setLeft (exchange m) a p := Function.comp_update ..

lemma exchange_adopt (m : Links ρ) (child p : Option ρ) :
    exchange (adopt m child p) = adopt (exchange m) child p := by
  cases child with
  | none => rfl
  | some a => exact exchange_setParent m a p

lemma exchange_avlUpdate (m : Links ρ) (a : ρ) :
    exchange (avlUpdate m a) = avlUpdate (exchange m) a := by
  have hleft : (exchange m a).left = (m a).right := rfl
  have hright : (exchange m a).right = (m a).left := rfl
  unfold avlUpdate
  rw [hleft, hright, avlHeight_exchange, avlHeight_exchange, avlSize_exchange, avlSize_exchange,
    Nat.max_comm, Nat.add_right_comm]
  exact Function.comp_update ..

lemma rotRight_exchange (m : Links ρ) (a : ρ) :
    rotRight (exchange m) a = (rotLeft m a).map fun x => (exchange x.1, x.2) := by
  have hleft : (exchange m a).left = (m a).right := rfl
  unfold rotRight rotLeft
  rw [hleft]
  cases (m a).right with
  | none => rfl
  | some b =>
    simp only [pure_eq_ok, Except.map, exchange_avlUpdate, exchange_setParent, exchange_setLeft,
      exchange_adopt, exchange_setRight]
    rfl

lemma rotLeft_exchange (m : Links ρ) (a : ρ) :
    rotLeft (exchange m) a = (rotRight m a).map fun x => (exchange x.1, x.2) := by
  have h := rotRight_exchange (exchange m) a
  rw [exchange_exchange] at h
  rw [h]
  cases rotLeft (exchange m) a <;> rfl

lemma rotRight_spec {m : Links ρ} {p : Option ρ} {a b : ρ} {l x r : BinaryTree ρ}
    (h : Linked m p a (.node b l x) r) (hn : (inorder (.node a (.node b l x) r)).Nodup) :
    ∃ m', rotRight m a = .ok (m', b) ∧ Repr m' p (.node b l (.node a x r)) ∧
      ∀ c ∉ inorder (.node a (.node b l x) r), m' c = m c := by
  have hn' : (inorder (mirror (.node a (.node b l x) r))).Nodup := by
    rw [inorder_mirror, List.nodup_reverse]
    exact hn
  obtain ⟨m', he, hR, hf⟩ := rotLeft_spec h.exchange hn'
  have hR' := hR.exchange
  simp only [mirror_node, mirror_mirror] at hR'
  refine ⟨exchange m', ?_, hR', fun c hc => exchange_inj (hf c ?_)⟩
  · rw [← exchange_exchange m, rotRight_exchange, he]
    rfl
  · change c ∉ inorder (mirror (.node a (.node b l x) r))
    rwa [inorder_mirror, List.mem_reverse]

end ByoRedis.AvlTree
