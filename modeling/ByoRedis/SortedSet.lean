import ByoRedis.Avl
import ByoRedis.HashTable

/-!
The sorted set: members indexed by name in a hash map and by score and name in a tree.

The nodes of one set are kept together, by address. An address is given out once, so that a
node that was freed is no longer there; the links of a tree and the data of its nodes are
separate maps.
-/

namespace ByoRedis.SortedSet

open ByoRedis.Basic ByoRedis.HashTable ByoRedis.Avl

/-! ### Scores -/

/-- `isnan` of the bits of a `double`: the exponent is all ones, the fraction is not zero. -/
def isNan (bits : UInt64) : Bool := 0x7FF0000000000000 < (bits &&& 0x7FFFFFFFFFFFFFFF)

/-- A `double` that is not NaN, by its bits. -/
structure Score where
  bits : UInt64
  notNan : isNan bits = false
  deriving DecidableEq, Repr

lemma notNan_zero : isNan 0 = false := rfl

/-- Comparison of doubles goes by sign and magnitude. The two zeros are equal. -/
def Score.ord (s : Score) : ℤ :=
  if s.bits.toNat < 2 ^ 63 then s.bits.toNat else -(s.bits.toNat - 2 ^ 63 : ℤ)

/-! ### Nodes -/

/-- What a `ZNode` holds besides its tree links; `len` is the length of the name. -/
structure ZNode where
  hcode : ℕ
  score : Score
  name : Bytes
  deriving DecidableEq, Repr

structure ZSet where
  /-- Index by score and name. -/
  root : Option Addr := none
  /-- Index by name. -/
  hmap : HMap Addr := {}
  tree : Links Addr := fun _ => {}
  node : Addr → Option ZNode := fun _ => none
  /-- No address from here on was ever given out. -/
  fresh : Addr := 0

/-- The rounds a loop over tree links may take. -/
def ZSet.rounds (zset : ZSet) : ℕ := zset.fresh + 1

def ZSet.deref (zset : ZSet) (a : Addr) : Eff ZNode :=
  match zset.node a with
  | none => throw .access
  | some d => pure d

/-- `memcmp` of two arrays of the same length: the difference at the first byte that differs. -/
def memcmp : Bytes → Bytes → ℤ
  | a :: as, b :: bs => if a = b then memcmp as bs else (a.toNat : ℤ) - b.toNat
  | _, _ => 0

def hcmp (node : Addr → Option ZNode) (n : HNode Addr) (key : HNode Bytes) : Bool :=
  match node n.ref with
  | none => false
  | some znode =>
    if znode.name.length ≠ key.ref.length then false else memcmp znode.name key.ref == 0

def zsetLookup (zset : ZSet) (name : Bytes) : Eff (ZSet × Option Addr) :=
  if zset.root.isNone then pure (zset, none)
  else do
    let (hmap, found) ← hmLookup zset.hmap ⟨strHash name, name⟩ (hcmp zset.node)
    pure ({ zset with hmap := hmap }, found.map HNode.ref)

/-- `zless` of a member and a pair. -/
def zlessPair (zl : ZNode) (score : Score) (name : Bytes) : Bool :=
  if zl.score.ord ≠ score.ord then zl.score.ord < score.ord
  else
    let n := min zl.name.length name.length
    let rv := memcmp (zl.name.take n) (name.take n)
    if rv ≠ 0 then rv < 0 else zl.name.length < name.length

/-- `zless` of two members. -/
def zless (zset : ZSet) (lhs rhs : Addr) : Eff Bool := do
  let zl ← zset.deref lhs
  let zr ← zset.deref rhs
  if zl.score.ord ≠ zr.score.ord then pure (zl.score.ord < zr.score.ord)
  else
    let n := min zl.name.length zr.name.length
    let rv := memcmp (zl.name.take n) (zr.name.take n)
    pure (if rv ≠ 0 then rv < 0 else zl.name.length < zr.name.length)

/-- The loop of `tree_insert`, down to the empty link. -/
def treeInsertLoop : ℕ → ZSet → Addr → Option Addr → Slot Addr → Eff (Option Addr × Slot Addr)
  | 0, _, _, _, _ => throw .spin
  | fuel + 1, zset, node, parent, frm =>
    match frm.read zset.root zset.tree with
    | none => pure (parent, frm)
    | some cur => do
      let less ← zless zset node cur
      treeInsertLoop fuel zset node (some cur) (if less then .left cur else .right cur)

def treeInsert (zset : ZSet) (node : Addr) : Eff ZSet := do
  let (parent, frm) ← treeInsertLoop zset.rounds zset node none .root
  let tree := setParent (frm.write zset.tree (some node)) node parent
  let (tree, root) ← avlFix zset.rounds tree node
  pure { zset with tree := tree, root := some root }

/-- `zset_update`: detach the node from the tree and insert it again. -/
def zsetUpdate (zset : ZSet) (node : Addr) (score : Score) : Eff ZSet := do
  let (tree, root) ← avlDel zset.rounds zset.tree node
  let d ← zset.deref node
  treeInsert { zset with
    root := root
    tree := avlInit tree node
    node := Function.update zset.node node (some { d with score := score }) } node

def znodeNew (zset : ZSet) (name : Bytes) (score : Score) : ZSet × Addr :=
  ({ zset with
    tree := avlInit zset.tree zset.fresh
    node := Function.update zset.node zset.fresh (some ⟨strHash name, score, name⟩)
    fresh := zset.fresh + 1 }, zset.fresh)

def znodeFree (zset : ZSet) (a : Addr) : ZSet :=
  { zset with node := Function.update zset.node a none }

def zsetInsert (zset : ZSet) (name : Bytes) (score : Score) : Eff (ZSet × Bool) := do
  match ← zsetLookup zset name with
  | (zset, some node) => do
    let zset ← zsetUpdate zset node score
    pure (zset, false)
  | (zset, none) => do
    let (zset, node) := znodeNew zset name score
    let d ← zset.deref node
    let hmap ← hmInsert zset.hmap ⟨d.hcode, node⟩
    let zset ← treeInsert { zset with hmap := hmap } node
    pure (zset, true)

def zsetDelete (zset : ZSet) (node : Addr) : Eff ZSet := do
  let d ← zset.deref node
  match ← hmDelete zset.hmap ⟨d.hcode, d.name⟩ (hcmp zset.node) with
  | (_, none) => throw .assertion
  | (hmap, some _) => do
    let (tree, root) ← avlDel zset.rounds zset.tree node
    pure (znodeFree { zset with hmap := hmap, tree := tree, root := root } node)

/-- The loop of `zset_seekge`. -/
def zsetSeekgeLoop : ℕ → ZSet → Score → Bytes → Option Addr → Option Addr → Eff (Option Addr)
  | 0, _, _, _, _, _ => throw .spin
  | fuel + 1, zset, score, name, node, found =>
    match node with
    | none => pure found
    | some a => do
      let zl ← zset.deref a
      if zlessPair zl score name then
        zsetSeekgeLoop fuel zset score name (zset.tree a).right found
      else zsetSeekgeLoop fuel zset score name (zset.tree a).left (some a)

/-- `zset_seekge`: the first member that is not less than the pair. -/
def zsetSeekge (zset : ZSet) (score : Score) (name : Bytes) : Eff (Option Addr) :=
  zsetSeekgeLoop zset.rounds zset score name zset.root none

/-- `znode_offset`. A walk up to an ancestor and down again passes every node at most twice. -/
def znodeOffset (zset : ZSet) (node : Option Addr) (offset : ℤ) : Eff (Option Addr) :=
  match node with
  | none => pure none
  | some a => avlOffset (2 * zset.rounds) zset.tree a 0 offset

def treeDispose : ℕ → ZSet → Option Addr → Eff ZSet
  | 0, _, _ => throw .spin
  | fuel + 1, zset, node =>
    match node with
    | none => pure zset
    | some a => do
      let zset ← treeDispose fuel zset (zset.tree a).left
      let zset ← treeDispose fuel zset (zset.tree a).right
      let _ ← zset.deref a
      pure (znodeFree zset a)

def zsetClear (zset : ZSet) : Eff ZSet := do
  let zset := { zset with hmap := hmClear zset.hmap }
  let zset ← treeDispose zset.rounds zset zset.root
  pure { zset with root := none }

end ByoRedis.SortedSet
