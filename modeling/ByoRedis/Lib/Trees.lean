import Mathlib.Data.Tree.Basic
import Mathlib.Data.List.Nodup
import Mathlib.Order.Defs.LinearOrder
import ByoRedis.Lib.Positions

/-!
Binary trees seen from one of their nodes: the path to the node, what stands left and right
of it, and the repair of the height balance along the path.

A path is read from the node upwards. Rebuilding a tree along a path after one subtree
changed its height by at most one, with a rotation wherever two siblings differ by two,
keeps the order of the values and restores the balance.
-/

namespace ByoRedis.Lib.Trees

open ByoRedis.Lib.Positions

variable {α : Type*}

def inorder : BinaryTree α → List α
  | .nil => []
  | .node a l r => inorder l ++ a :: inorder r

/-- The value at the root. -/
def top : BinaryTree α → Option α
  | .nil => none
  | .node a _ _ => some a

@[simp] lemma inorder_nil : inorder (.nil : BinaryTree α) = [] := rfl
@[simp] lemma inorder_node (a : α) (l r : BinaryTree α) :
    inorder (.node a l r) = inorder l ++ a :: inorder r := rfl
@[simp] lemma top_nil : top (.nil : BinaryTree α) = none := rfl
@[simp] lemma top_node (a : α) (l r : BinaryTree α) : top (.node a l r) = some a := rfl

lemma top_eq_none {t : BinaryTree α} : top t = none ↔ t = .nil := by
  cases t <;> simp

lemma inorder_length (t : BinaryTree α) : (inorder t).length = t.numNodes := by
  induction t with
  | nil => rfl
  | node a l r ihl ihr => simp [ihl, ihr]; omega

lemma inorder_eq_nil {t : BinaryTree α} : inorder t = [] ↔ t = .nil := by
  cases t <;> simp

/-- The values of a node's two sides differ from its own and from each other. -/
lemma nodup_node {a : α} {l r : BinaryTree α} :
    (inorder (.node a l r)).Nodup ↔ a ∉ inorder l ∧ a ∉ inorder r ∧ (inorder l).Nodup ∧
      (inorder r).Nodup ∧ (inorder l).Disjoint (inorder r) := by
  rw [inorder_node, List.nodup_middle, List.nodup_cons, List.mem_append, not_or,
    List.nodup_append']
  tauto

/-! ### Paths -/

/-- One step of a path: the parent's value, and the sibling on its other side. -/
inductive Frame (α : Type*)
  | left (a : α) (r : BinaryTree α)
  | right (a : α) (l : BinaryTree α)

abbrev Path (α : Type*) := List (Frame α)

/-- The value a step leads up to. -/
def Frame.val : Frame α → α
  | .left a _ => a
  | .right a _ => a

def Frame.fill : Frame α → BinaryTree α → BinaryTree α
  | .left a r, t => .node a t r
  | .right a l, t => .node a l t

/-- The whole tree, from a path and what stands at its lower end. -/
def plug : Path α → BinaryTree α → BinaryTree α
  | [], t => t
  | f :: c, t => plug c (f.fill t)

/-- The value a path leads up to first. -/
def above : Path α → Option α
  | [] => none
  | f :: _ => some f.val

/-- The values left of the lower end of a path. -/
def before : Path α → List α
  | [] => []
  | .left _ _ :: c => before c
  | .right a l :: c => before c ++ (inorder l ++ [a])

/-- The values right of the lower end of a path. -/
def after : Path α → List α
  | [] => []
  | .left a r :: c => a :: inorder r ++ after c
  | .right _ _ :: c => after c

@[simp] lemma plug_nil (t : BinaryTree α) : plug [] t = t := rfl
@[simp] lemma plug_left (a : α) (r t : BinaryTree α) (c : Path α) :
    plug (.left a r :: c) t = plug c (.node a t r) := rfl
@[simp] lemma plug_right (a : α) (l t : BinaryTree α) (c : Path α) :
    plug (.right a l :: c) t = plug c (.node a l t) := rfl
@[simp] lemma above_nil : above ([] : Path α) = none := rfl
@[simp] lemma above_left (a : α) (r : BinaryTree α) (c : Path α) :
    above (.left a r :: c) = some a := rfl
@[simp] lemma above_right (a : α) (l : BinaryTree α) (c : Path α) :
    above (.right a l :: c) = some a := rfl

lemma inorder_plug (c : Path α) (t : BinaryTree α) :
    inorder (plug c t) = before c ++ inorder t ++ after c := by
  induction c generalizing t with
  | nil => simp [before, after]
  | cons f c ih => cases f <;> simp [ih, before, after]

lemma plug_append (c d : Path α) (t : BinaryTree α) : plug (d ++ c) t = plug c (plug d t) := by
  induction d generalizing t with
  | nil => rfl
  | cons f d ih => exact ih _

lemma before_append (c d : Path α) : before (d ++ c) = before c ++ before d := by
  induction d with
  | nil => simp [before]
  | cons f d ih => cases f <;> simp [before, ih]

lemma after_append (c d : Path α) : after (d ++ c) = after d ++ after c := by
  induction d with
  | nil => simp [after]
  | cons f d ih => cases f <;> simp [after, ih]

lemma top_plug_cons (f : Frame α) (c : Path α) (t t' : BinaryTree α) :
    top (plug (f :: c) t) = top (plug (f :: c) t') := by
  induction c generalizing f t t' with
  | nil => cases f <;> rfl
  | cons g c ih => cases f <;> exact ih g _ _

lemma mem_plug {c : Path α} {t : BinaryTree α} {x : α} :
    x ∈ inorder (plug c t) ↔ x ∈ inorder t ∨ x ∈ before c ++ after c := by
  simp only [inorder_plug, List.mem_append]
  tauto

lemma val_mem (f : Frame α) (c : Path α) : f.val ∈ before (f :: c) ++ after (f :: c) := by
  cases f <;> simp [before, after, Frame.val]

lemma nodup_plug {c : Path α} {t : BinaryTree α} (h : (inorder (plug c t)).Nodup) :
    (inorder t).Nodup ∧ ∀ x ∈ inorder t, x ∉ before c ++ after c := by
  rw [inorder_plug, List.append_assoc, (List.perm_append_comm_assoc _ _ _).nodup_iff,
    List.nodup_append'] at h
  exact ⟨h.1, fun x hx hc => h.2.2 hx hc⟩

lemma numNodes_plug_le (c : Path α) (t : BinaryTree α) :
    c.length + t.numNodes ≤ (plug c t).numNodes := by
  induction c generalizing t with
  | nil => simp
  | cons f c ih =>
    cases f with
    | left a r => have := ih (.node a t r); simp at this ⊢; omega
    | right a l => have := ih (.node a l t); simp at this ⊢; omega

lemma length_add_height_le (c : Path α) (t : BinaryTree α) :
    c.length + t.height ≤ (plug c t).height := by
  induction c generalizing t with
  | nil => simp
  | cons f c ih =>
    cases f with
    | left a r => have := ih (.node a t r); simp only [BinaryTree.height, plug_left,
        List.length_cons] at this ⊢; omega
    | right a l => have := ih (.node a l t); simp only [BinaryTree.height, plug_right,
        List.length_cons] at this ⊢; omega

lemma length_le_numNodes_plug (c : Path α) (t : BinaryTree α) :
    c.length ≤ (plug c t).numNodes := by
  have := numNodes_plug_le c t
  omega

/-- Every value of a tree is the lower end of some path. -/
lemma exists_path {a : α} {t : BinaryTree α} (h : a ∈ inorder t) :
    ∃ c l r, t = plug c (.node a l r) := by
  suffices H : ∀ c : Path α, ∃ d l r, plug c t = plug d (.node a l r) by
    simpa using H []
  induction t with
  | nil => simp at h
  | node b l r ihl ihr =>
    intro c
    rw [inorder_node, List.mem_append, List.mem_cons] at h
    rcases h with h | rfl | h
    · exact ihl h (.left b r :: c)
    · exact ⟨c, l, r, rfl⟩
    · exact ihr h (.right b l :: c)

/-- In a tree without repetitions a value has one place. -/
lemma inorder_split_unique {l₁ r₁ l₂ r₂ : List α} {a : α} (hn : (l₁ ++ a :: r₁).Nodup)
    (h : l₁ ++ a :: r₁ = l₂ ++ a :: r₂) : l₁ = l₂ ∧ r₁ = r₂ := by
  induction l₁ generalizing l₂ with
  | nil =>
    cases l₂ with
    | nil => simpa using h
    | cons b t =>
      simp only [List.nil_append, List.cons_append, List.cons.injEq] at h
      obtain ⟨rfl, hr⟩ := h
      simp [hr] at hn
  | cons b t ih =>
    cases l₂ with
    | nil =>
      simp only [List.nil_append, List.cons_append, List.cons.injEq] at h
      obtain ⟨rfl, -⟩ := h
      simp at hn
    | cons b' t' =>
      simp only [List.cons_append, List.cons.injEq] at h
      obtain ⟨rfl, h⟩ := h
      obtain ⟨h1, h2⟩ := ih (List.nodup_cons.mp hn).2 h
      exact ⟨by rw [h1], h2⟩

/-! ### Rotations -/

def rotateLeft : BinaryTree α → BinaryTree α
  | .node a l (.node b m r) => .node b (.node a l m) r
  | t => t

def rotateRight : BinaryTree α → BinaryTree α
  | .node b (.node a l m) r => .node a l (.node b m r)
  | t => t

/-- The left side is two too high: a single rotation, or a double one where the inner
grandchild is the higher one. -/
def repairLeft (a : α) (l r : BinaryTree α) : BinaryTree α :=
  if l.left.height < l.right.height then rotateRight (.node a (rotateLeft l) r)
  else rotateRight (.node a l r)

def repairRight (a : α) (l r : BinaryTree α) : BinaryTree α :=
  if r.right.height < r.left.height then rotateLeft (.node a l (rotateRight r))
  else rotateLeft (.node a l r)

lemma repairLeft_single {a b : α} {ll lr r : BinaryTree α} (h : ¬ ll.height < lr.height) :
    repairLeft a (.node b ll lr) r = .node b ll (.node a lr r) := by
  unfold repairLeft
  rw [if_neg (by simpa [BinaryTree.left, BinaryTree.right] using h)]
  rfl

lemma repairLeft_double {a b d : α} {ll x k r : BinaryTree α}
    (h : ll.height < (BinaryTree.node d x k).height) :
    repairLeft a (.node b ll (.node d x k)) r = .node d (.node b ll x) (.node a k r) := by
  unfold repairLeft
  rw [if_pos (by simpa only [BinaryTree.left, BinaryTree.right] using h)]
  rfl

/-! ### Mirror images -/

def mirror : BinaryTree α → BinaryTree α
  | .nil => .nil
  | .node a l r => .node a (mirror r) (mirror l)

@[simp] lemma mirror_nil : mirror (.nil : BinaryTree α) = .nil := rfl
@[simp] lemma mirror_node (a : α) (l r : BinaryTree α) :
    mirror (.node a l r) = .node a (mirror r) (mirror l) := rfl

@[simp] lemma mirror_mirror (t : BinaryTree α) : mirror (mirror t) = t := by
  induction t with
  | nil => rfl
  | node a l r ihl ihr => simp [ihl, ihr]

@[simp] lemma inorder_mirror (t : BinaryTree α) : inorder (mirror t) = (inorder t).reverse := by
  induction t with
  | nil => rfl
  | node a l r ihl ihr => simp [ihl, ihr]

@[simp] lemma top_mirror (t : BinaryTree α) : top (mirror t) = top t := by
  cases t <;> rfl

@[simp] lemma height_mirror (t : BinaryTree α) : (mirror t).height = t.height := by
  induction t with
  | nil => rfl
  | node a l r ihl ihr =>
    simp only [mirror_node, BinaryTree.height, ihl, ihr]
    omega

@[simp] lemma numNodes_mirror (t : BinaryTree α) : (mirror t).numNodes = t.numNodes := by
  rw [← inorder_length, inorder_mirror, List.length_reverse, inorder_length]

lemma rotateLeft_mirror (t : BinaryTree α) : rotateLeft (mirror t) = mirror (rotateRight t) := by
  rcases t with _ | ⟨b, _ | ⟨a, l, m⟩, r⟩ <;> rfl

lemma rotateRight_mirror (t : BinaryTree α) : rotateRight (mirror t) = mirror (rotateLeft t) := by
  rcases t with _ | ⟨a, l, _ | ⟨b, m, r⟩⟩ <;> rfl

lemma repairRight_mirror (a : α) (l r : BinaryTree α) :
    repairRight a (mirror r) (mirror l) = mirror (repairLeft a l r) := by
  have hleft : (mirror l).left = mirror l.right := by cases l <;> rfl
  have hright : (mirror l).right = mirror l.left := by cases l <;> rfl
  unfold repairRight repairLeft
  rw [hleft, hright, height_mirror, height_mirror, rotateRight_mirror, ← mirror_node, ← mirror_node,
    rotateLeft_mirror, rotateLeft_mirror, apply_ite mirror]

lemma repairRight_eq (a : α) (l r : BinaryTree α) :
    repairRight a l r = mirror (repairLeft a (mirror r) (mirror l)) := by
  rw [← repairRight_mirror, mirror_mirror, mirror_mirror]

/-- A node over two subtrees, rotated where one is two higher than the other. -/
def rebalance (a : α) (l r : BinaryTree α) : BinaryTree α :=
  if l.height = r.height + 2 then repairLeft a l r
  else if r.height = l.height + 2 then repairRight a l r
  else .node a l r

/-- Rebuild a tree along a path, rebalancing every node passed. -/
def fixUp : BinaryTree α → Path α → BinaryTree α
  | t, [] => t
  | t, .left a r :: c => fixUp (rebalance a t r) c
  | t, .right a l :: c => fixUp (rebalance a l t) c

@[simp] lemma fixUp_nil (t : BinaryTree α) : fixUp t [] = t := rfl
@[simp] lemma fixUp_left (a : α) (t r : BinaryTree α) (c : Path α) :
    fixUp t (.left a r :: c) = fixUp (rebalance a t r) c := rfl
@[simp] lemma fixUp_right (a : α) (t l : BinaryTree α) (c : Path α) :
    fixUp t (.right a l :: c) = fixUp (rebalance a l t) c := rfl

lemma fixUp_step {f : Frame α} {t l r : BinaryTree α} (h : f.fill t = .node f.val l r)
    (c : Path α) : fixUp t (f :: c) = fixUp (rebalance f.val l r) c := by
  cases f with
  | left b r' =>
    obtain ⟨-, rfl, rfl⟩ := BinaryTree.node.inj h
    rfl
  | right b l' =>
    obtain ⟨-, rfl, rfl⟩ := BinaryTree.node.inj h
    rfl

@[simp] lemma inorder_rotateLeft (t : BinaryTree α) : inorder (rotateLeft t) = inorder t := by
  rcases t with _ | ⟨a, l, _ | ⟨b, m, r⟩⟩ <;> simp [rotateLeft]

@[simp] lemma inorder_rotateRight (t : BinaryTree α) : inorder (rotateRight t) = inorder t := by
  rcases t with _ | ⟨b, _ | ⟨a, l, m⟩, r⟩ <;> simp [rotateRight]

@[simp] lemma inorder_rebalance (a : α) (l r : BinaryTree α) :
    inorder (rebalance a l r) = inorder l ++ a :: inorder r := by
  unfold rebalance repairLeft repairRight
  split_ifs <;> simp

lemma inorder_fixUp (t : BinaryTree α) (c : Path α) :
    inorder (fixUp t c) = before c ++ inorder t ++ after c := by
  induction c generalizing t with
  | nil => simp [before, after]
  | cons f c ih => cases f <;> simp [ih, before, after]

/-! ### Height balance -/

/-- At every node the heights of the two sides differ by at most one. -/
def Balanced : BinaryTree α → Prop
  | .nil => True
  | .node _ l r =>
    Balanced l ∧ Balanced r ∧ l.height ≤ r.height + 1 ∧ r.height ≤ l.height + 1

/-- A subtree of height `h` at the lower end of the path leaves all above it balanced. -/
def Fits : Path α → ℕ → Prop
  | [], _ => True
  | .left _ r :: c, h => Balanced r ∧ h ≤ r.height + 1 ∧ r.height ≤ h + 1 ∧
      Fits c (max h r.height + 1)
  | .right _ l :: c, h => Balanced l ∧ l.height ≤ h + 1 ∧ h ≤ l.height + 1 ∧
      Fits c (max l.height h + 1)

lemma balanced_plug (c : Path α) (t : BinaryTree α) :
    Balanced (plug c t) ↔ Balanced t ∧ Fits c t.height := by
  induction c generalizing t with
  | nil => simp [Fits]
  | cons f c ih =>
    cases f with
    | left a r => simp only [plug_left, ih, Balanced, Fits, BinaryTree.height]; tauto
    | right a l => simp only [plug_right, ih, Balanced, Fits, BinaryTree.height]; tauto

lemma repairLeft_balanced {a : α} {l r : BinaryTree α} (hl : Balanced l) (hr : Balanced r)
    (h : l.height = r.height + 2) :
    Balanced (repairLeft a l r) ∧ r.height + 2 ≤ (repairLeft a l r).height ∧
      (repairLeft a l r).height ≤ r.height + 3 := by
  rcases l with _ | ⟨b, ll, lr⟩
  · simp at h
  obtain ⟨hll, hlr, h1, h2⟩ := hl
  simp only [BinaryTree.height] at h
  by_cases hc : ll.height < lr.height
  · rcases lr with _ | ⟨d, m, k⟩
    · simp at hc
    obtain ⟨hm, hk, h3, h4⟩ := hlr
    rw [repairLeft_double hc]
    simp only [BinaryTree.height] at h h1 h2 hc
    simp only [Balanced, BinaryTree.height]
    exact ⟨⟨⟨hll, hm, by omega, by omega⟩, ⟨hk, hr, by omega, by omega⟩, by omega, by omega⟩,
      by omega, by omega⟩
  · rw [repairLeft_single hc]
    simp only [Balanced, BinaryTree.height]
    exact ⟨⟨hll, ⟨hlr, hr, by omega, by omega⟩, by omega, by omega⟩, by omega, by omega⟩

lemma balanced_mirror {t : BinaryTree α} : Balanced (mirror t) ↔ Balanced t := by
  induction t with
  | nil => rfl
  | node a l r ihl ihr =>
    simp only [mirror_node, Balanced, ihl, ihr, height_mirror]
    tauto

lemma repairRight_balanced {a : α} {l r : BinaryTree α} (hl : Balanced l) (hr : Balanced r)
    (h : r.height = l.height + 2) :
    Balanced (repairRight a l r) ∧ l.height + 2 ≤ (repairRight a l r).height ∧
      (repairRight a l r).height ≤ l.height + 3 := by
  have hleft := repairLeft_balanced (a := a) (balanced_mirror.mpr hr) (balanced_mirror.mpr hl)
    (by rw [height_mirror, height_mirror, h])
  rw [repairRight_eq, balanced_mirror, height_mirror]
  rwa [height_mirror] at hleft

/-- Rebalancing two balanced sides at most two apart gives a balanced tree, at most one lower
than the node over the two sides was. -/
lemma rebalance_balanced {a : α} {l r : BinaryTree α} (hl : Balanced l) (hr : Balanced r)
    (h1 : l.height ≤ r.height + 2) (h2 : r.height ≤ l.height + 2) :
    Balanced (rebalance a l r) ∧ max l.height r.height ≤ (rebalance a l r).height ∧
      (rebalance a l r).height ≤ max l.height r.height + 1 ∧
      (l.height ≤ r.height + 1 → r.height ≤ l.height + 1 →
        (rebalance a l r).height = max l.height r.height + 1) := by
  unfold rebalance
  split_ifs with hL hR
  · obtain ⟨hb, hge, hle⟩ := repairLeft_balanced (a := a) hl hr hL
    exact ⟨hb, by omega, by omega, by omega⟩
  · obtain ⟨hb, hge, hle⟩ := repairRight_balanced (a := a) hl hr hR
    exact ⟨hb, by omega, by omega, by omega⟩
  · simp only [Balanced, BinaryTree.height]
    exact ⟨⟨hl, hr, by omega, by omega⟩, by omega, by omega, fun _ _ => trivial⟩

/-- **Balance is restored**: a subtree whose height is at most one away from one that fits
the path is rebuilt into a balanced tree. -/
theorem fixUp_balanced {t : BinaryTree α} {c : Path α} {h : ℕ} (ht : Balanced t) (hc : Fits c h)
    (h1 : t.height ≤ h + 1) (h2 : h ≤ t.height + 1) : Balanced (fixUp t c) := by
  induction c generalizing t h with
  | nil => exact ht
  | cons f c ih =>
    cases f with
    | left a r =>
      obtain ⟨hr, ha, hb, hc⟩ := hc
      obtain ⟨hB, hlo, hhi, heq⟩ := rebalance_balanced (a := a) ht hr (by omega) (by omega)
      exact ih hB hc (by omega) (by omega)
    | right a l =>
      obtain ⟨hl, ha, hb, hc⟩ := hc
      obtain ⟨hB, hlo, hhi, heq⟩ := rebalance_balanced (a := a) hl ht (by omega) (by omega)
      exact ih hB hc (by omega) (by omega)

/-! ### Search -/

/-- The path to the empty place a search comes to, going left where `left` says so. -/
def descend (left : α → Bool) : BinaryTree α → Path α → Path α
  | .nil, c => c
  | .node b l r, c =>
    if left b then descend left l (.left b r :: c) else descend left r (.right b l :: c)

lemma plug_descend (left : α → Bool) (t : BinaryTree α) (c : Path α) :
    plug (descend left t c) .nil = plug c t := by
  induction t generalizing c with
  | nil => rfl
  | node b l r ihl ihr => unfold descend; split_ifs <;> simp [ihl, ihr]

/-- A search through sorted values ends between the values that turned it right and those
that turned it left. -/
lemma descend_sides {left : α → Bool} {t : BinaryTree α}
    (hmono : (inorder t).Pairwise fun x y => left x → left y) (c : Path α) :
    ∃ xs ys, inorder t = xs ++ ys ∧ before (descend left t c) = before c ++ xs ∧
      after (descend left t c) = ys ++ after c ∧ (∀ x ∈ xs, left x = false) ∧
      ∀ y ∈ ys, left y = true := by
  induction t generalizing c with
  | nil => exact ⟨[], [], by simp [descend]⟩
  | node b l r ihl ihr =>
    rw [inorder_node, List.pairwise_append, List.pairwise_cons] at hmono
    obtain ⟨hl, ⟨hb, hr⟩, hlr⟩ := hmono
    unfold descend
    by_cases h : left b
    · obtain ⟨xs, ys, e, hbef, haft, hx, hy⟩ := ihl hl (.left b r :: c)
      refine ⟨xs, ys ++ b :: inorder r, by simp [e], by simp [h, hbef, before],
        by simp [h, haft, after], hx, fun y hy' => ?_⟩
      rcases List.mem_append.mp hy' with hy' | hy'
      · exact hy y hy'
      · rcases List.mem_cons.mp hy' with rfl | hy'
        · exact h
        · exact hb y hy' h
    · obtain ⟨xs, ys, e, hbef, haft, hx, hy⟩ := ihr hr (.right b l :: c)
      refine ⟨inorder l ++ b :: xs, ys, by simp [e], by simp [h, hbef, before],
        by simp [h, haft, after], fun x hx' => ?_, hy⟩
      rcases List.mem_append.mp hx' with hx' | hx'
      · by_contra hc
        exact h (hlr x hx' b (by simp) (by simpa using hc))
      · rcases List.mem_cons.mp hx' with rfl | hx'
        · simpa using h
        · exact hx x hx'

/-! ### Positions -/

lemma nth_node_left (a : α) (l r : BinaryTree α) {k : ℤ} (h : k < l.numNodes) :
    nth (inorder (.node a l r)) k = nth (inorder l) k :=
  nth_append_left (by rwa [inorder_length]) _

lemma nth_node_self (a : α) (l r : BinaryTree α) :
    nth (inorder (.node a l r)) l.numNodes = some a := by
  rw [nth_natCast, inorder_node, ← inorder_length, List.getElem?_append_right (Nat.le_refl _)]
  simp

lemma nth_node_right (a : α) (l r : BinaryTree α) {k : ℤ} (h : 0 ≤ k) :
    nth (inorder (.node a l r)) (l.numNodes + 1 + k) = nth (inorder r) k := by
  have happ := @nth_append_right _ (inorder l ++ [a]) _ h (inorder r)
  rw [List.append_assoc, List.singleton_append, List.length_append, inorder_length,
    List.length_singleton] at happ
  exact_mod_cast happ

/-- A position in the tree at the lower end of a path. -/
lemma nth_plug (c : Path α) {t : BinaryTree α} {k : ℤ} (h0 : 0 ≤ k) (h1 : k < t.numNodes) :
    nth (inorder (plug c t)) ((before c).length + k) = nth (inorder t) k := by
  rw [inorder_plug, List.append_assoc, nth_append_right h0,
    nth_append_left (by rwa [inorder_length])]

end ByoRedis.Lib.Trees
