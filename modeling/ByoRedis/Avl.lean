import Mathlib.Logic.Function.Basic
import ByoRedis.Basic

/-!
The intrusive AVL tree, pointer by pointer.

The links of all nodes are one map from addresses. A loop that follows links carries a
number of rounds it may take; running out of it, dereferencing `NULL` and a failed assertion
end the process.
-/

namespace ByoRedis.Avl

open ByoRedis.Basic

variable {ρ : Type} [DecidableEq ρ]

structure AvlNode (ρ : Type) where
  parent : Option ρ := none
  left : Option ρ := none
  right : Option ρ := none
  /-- Height of the subtree, a `uint32_t`. -/
  height : ℕ := 0
  /-- Size of the subtree, a `size_t`. -/
  size : ℕ := 0
  deriving DecidableEq, Repr

/-- The AVL nodes by address. -/
abbrev Links (ρ : Type) := ρ → AvlNode ρ

def setParent (m : Links ρ) (a : ρ) (p : Option ρ) : Links ρ :=
  Function.update m a { m a with parent := p }

def setLeft (m : Links ρ) (a : ρ) (p : Option ρ) : Links ρ :=
  Function.update m a { m a with left := p }

def setRight (m : Links ρ) (a : ρ) (p : Option ρ) : Links ρ :=
  Function.update m a { m a with right := p }

def avlInit (m : Links ρ) (node : ρ) : Links ρ :=
  Function.update m node ⟨none, none, none, 1, 1⟩

def avlHeight (m : Links ρ) : Option ρ → ℕ
  | none => 0
  | some a => (m a).height

/-- `avl_size`: the `size_t` field comes back as a `uint32_t`. -/
def avlSize (m : Links ρ) : Option ρ → ℕ
  | none => 0
  | some a => (m a).size % 2 ^ 32

/-- `avl_update`: the size is a sum of `uint32_t`s. -/
def avlUpdate (m : Links ρ) (node : ρ) : Links ρ :=
  Function.update m node { m node with
    height := 1 + max (avlHeight m (m node).left) (avlHeight m (m node).right)
    size := (1 + avlSize m (m node).left + avlSize m (m node).right) % 2 ^ 32 }

/-- Set the parent of a child, where there is one. -/
def adopt (m : Links ρ) (child : Option ρ) (p : Option ρ) : Links ρ :=
  match child with
  | none => m
  | some c => setParent m c p

def rotLeft (m : Links ρ) (node : ρ) : Eff (Links ρ × ρ) :=
  let parent := (m node).parent
  match (m node).right with
  | none => throw .access
  | some newNode =>
    let inner := (m newNode).left
    let m := setRight m node inner
    let m := adopt m inner (some node)
    let m := setParent m newNode parent
    let m := setLeft m newNode (some node)
    let m := setParent m node (some newNode)
    let m := avlUpdate m node
    let m := avlUpdate m newNode
    pure (m, newNode)

def rotRight (m : Links ρ) (node : ρ) : Eff (Links ρ × ρ) :=
  let parent := (m node).parent
  match (m node).left with
  | none => throw .access
  | some newNode =>
    let inner := (m newNode).right
    let m := setLeft m node inner
    let m := adopt m inner (some node)
    let m := setParent m newNode parent
    let m := setRight m newNode (some node)
    let m := setParent m node (some newNode)
    let m := avlUpdate m node
    let m := avlUpdate m newNode
    pure (m, newNode)

def avlFixLeft (m : Links ρ) (node : ρ) : Eff (Links ρ × ρ) :=
  match (m node).left with
  | none => throw .access
  | some l =>
    if avlHeight m (m l).left < avlHeight m (m l).right then do
      let (m, l) ← rotLeft m l
      rotRight (setLeft m node (some l)) node
    else rotRight m node

def avlFixRight (m : Links ρ) (node : ρ) : Eff (Links ρ × ρ) :=
  match (m node).right with
  | none => throw .access
  | some r =>
    if avlHeight m (m r).right < avlHeight m (m r).left then do
      let (m, r) ← rotRight m r
      rotLeft (setRight m node (some r)) node
    else rotLeft m node

/-- An `AVLNode **`: a local variable or the root pointer, or a child link. -/
inductive Slot (ρ : Type)
  | root
  | left (p : ρ)
  | right (p : ρ)

/-- What a slot holds, the root pointer holding `root`. -/
def Slot.read (root : Option ρ) (m : Links ρ) : Slot ρ → Option ρ
  | .root => root
  | .left p => (m p).left
  | .right p => (m p).right

/-- Store through a slot that is a child link. -/
def Slot.write (m : Links ρ) (v : Option ρ) : Slot ρ → Links ρ
  | .root => m
  | .left p => setLeft m p v
  | .right p => setRight m p v

/-- `parent->left == node ? &parent->left : &parent->right`, or the local variable. -/
def slotOf (m : Links ρ) (parent : Option ρ) (node : ρ) : Slot ρ :=
  match parent with
  | none => .root
  | some p => if (m p).left = some node then .left p else .right p

/-- The body of the loop of `avl_fix`: bring one node up to date, fix a height difference of
two, and save the fixed subtree through the slot. -/
def avlFixNode (m : Links ρ) (node : ρ) (slot : Slot ρ) : Eff (Links ρ × ρ) :=
  let m := avlUpdate m node
  let lh := avlHeight m (m node).left
  let rh := avlHeight m (m node).right
  if lh = rh + 2 then do
    let (m, sub) ← avlFixLeft m node
    pure (slot.write m (some sub), sub)
  else if rh = lh + 2 then do
    let (m, sub) ← avlFixRight m node
    pure (slot.write m (some sub), sub)
  else pure (m, node)

/-- `avl_fix`: fix nodes up to the root, and return it. -/
def avlFix : ℕ → Links ρ → ρ → Eff (Links ρ × ρ)
  | 0, _, _ => throw .spin
  | fuel + 1, m, node => do
    let parent := (m node).parent
    let (m, sub) ← avlFixNode m node (slotOf m parent node)
    match parent with
    | none => pure (m, sub)
    | some p => avlFix fuel m p

/-- `avl_del_easy`: detach a node one of whose children is `NULL`. -/
def avlDelEasy (fuel : ℕ) (m : Links ρ) (node : ρ) : Eff (Links ρ × Option ρ) :=
  if (m node).left.isSome ∧ (m node).right.isSome then throw .assertion
  else
    let child := if (m node).left.isSome then (m node).left else (m node).right
    let parent := (m node).parent
    let m := adopt m child parent
    match parent with
    | none => pure (m, child)
    | some p => do
      let m := (slotOf m parent node).write m child
      let (m, root) ← avlFix fuel m p
      pure (m, some root)

/-- `while (victim->left) victim = victim->left` -/
def leftmost : ℕ → Links ρ → ρ → Eff ρ
  | 0, _, _ => throw .spin
  | fuel + 1, m, node =>
    match (m node).left with
    | none => pure node
    | some l => leftmost fuel m l

/-- `avl_del`: detach a node and return the new root. -/
def avlDel (fuel : ℕ) (m : Links ρ) (node : ρ) : Eff (Links ρ × Option ρ) :=
  match (m node).left, (m node).right with
  | some _, some r => do
    -- the in-order successor is detached and takes the node's place
    let victim ← leftmost fuel m r
    let (m, root) ← avlDelEasy fuel m victim
    let m := Function.update m victim (m node)
    let m := adopt m (m victim).left (some victim)
    let m := adopt m (m victim).right (some victim)
    let parent := (m node).parent
    let m := (slotOf m parent node).write m (some victim)
    pure (m, if parent.isSome then root else some victim)
  | _, _ => avlDelEasy fuel m node

/-- `avl_offset`: `pos` is the rank difference from the node started at. -/
def avlOffset : ℕ → Links ρ → ρ → ℤ → ℤ → Eff (Option ρ)
  | 0, _, _, _, _ => throw .spin
  | fuel + 1, m, node, pos, offset =>
    if pos = offset then pure (some node)
    else if pos < offset ∧ offset ≤ pos + avlSize m (m node).right then
      match (m node).right with
      | none => throw .access
      | some r =>
        avlOffset fuel m r (pos + ((1 + avlSize m (m r).left) % 2 ^ 32 : ℕ)) offset
    else if offset < pos ∧ pos - avlSize m (m node).left ≤ offset then
      match (m node).left with
      | none => throw .access
      | some l =>
        avlOffset fuel m l (pos - ((1 + avlSize m (m l).right) % 2 ^ 32 : ℕ)) offset
    else
      match (m node).parent with
      | none => pure none
      | some p =>
        if (m p).right = some node then
          avlOffset fuel m p (pos - ((1 + avlSize m (m node).left) % 2 ^ 32 : ℕ)) offset
        else
          avlOffset fuel m p (pos + ((1 + avlSize m (m node).right) % 2 ^ 32 : ℕ)) offset

def avlRankLoop : ℕ → Links ρ → ρ → ℤ → Eff ℤ
  | 0, _, _, _ => throw .spin
  | fuel + 1, m, node, rank =>
    match (m node).parent with
    | none => pure rank
    | some p =>
      if (m p).right = some node then
        avlRankLoop fuel m p (rank + ((1 + avlSize m (m p).left) % 2 ^ 32 : ℕ))
      else avlRankLoop fuel m p rank

def avlRank (fuel : ℕ) (m : Links ρ) (node : ρ) : Eff ℤ :=
  avlRankLoop fuel m node (avlSize m (m node).left)

end ByoRedis.Avl
