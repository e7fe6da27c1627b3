import Mathlib.Data.Set.Finite.Basic
import Mathlib.Data.Finite.Prod
import Mathlib.Data.Set.Finite.List
import ByoRedis.SortedSetSpec

/-!
The two indexes of a sorted set agree over every history.

`Reached` pairs the sets that insertions, lookups and deletions lead to with the map their user
has in mind. `Meets` is all that is asked of such a set. The one part of it that can fail are
the subtree sizes, which are summed in 32 bits.
-/

namespace ByoRedis.DualIndex

open ByoRedis.Basic ByoRedis.Avl ByoRedis.HashTable ByoRedis.HashSpec ByoRedis.SortedSet
open ByoRedis.SortedSetSpec ByoRedis.MemberTree ByoRedis.AvlTree ByoRedis.Lib.Trees
open ByoRedis.Lib.Runs

/-- The sets reached from the empty one, with the scores given to the names in them. A node
that `zset_lookup` returned is a member's until it is deleted. -/
inductive Reached : ZSet → (Bytes → Option Score) → Prop
  | empty : Reached {} fun _ => none
  | insert {z z' : ZSet} {m : Bytes → Option Score} {name : Bytes} {score : Score} {added : Bool} :
    Reached z m → zsetInsert z name score = .ok (z', added) →
    Reached z' (Function.update m name (some score))
  | lookup {z z' : ZSet} {m : Bytes → Option Score} {name : Bytes} {r : Option Addr} :
    Reached z m → zsetLookup z name = .ok (z', r) → Reached z' m
  | delete {z z' : ZSet} {m : Bytes → Option Score} {a : Addr} {d : ZNode} :
    Reached z m → z.node a = some d → zsetDelete z a = .ok z' →
    Reached z' (Function.update m d.name none)

/-- The links, the height and the size of every node are those of its subtree. -/
def Exact (m : Links Addr) : Option Addr → BinaryTree Addr → Prop
  | _, .nil => True
  | p, .node a l r =>
    m a = ⟨p, top l, top r, (BinaryTree.node a l r).height, (BinaryTree.node a l r).numNodes⟩ ∧
      Exact m (some a) l ∧ Exact m (some a) r

/-- Tree and hash map index the same nodes, the tree in their order. -/
structure Indexes (z : ZSet) (t : BinaryTree Addr) : Prop where
  root : z.root = top t
  exact : Exact z.tree none t
  balanced : Balanced t
  nodup : (inorder t).Nodup
  same : ∀ a, a ∈ inorder t ↔ a ∈ (nodes z.hmap).map HNode.ref
  once : ((nodes z.hmap).map HNode.ref).Nodup
  allocated : ∀ a ∈ inorder t, ∃ d, z.node a = some d
  names : ∀ a b d e, z.node a = some d → z.node b = some e → d.name = e.name → a = b
  increasing : (inorder t).Pairwise (Below z.node)
  root_none : z.root = none ↔ nodes z.hmap = []

/-- What is asked of a set that stands for a map. -/
structure Meets (z : ZSet) (m : Bytes → Option Score) : Prop where
  indexes : ∃ t, Indexes z t
  holds : Holds z m
  finite : {name | m name ≠ none}.Finite
  insert : ∀ name score, ∃ z' added, zsetInsert z name score = .ok (z', added) ∧
    (added = true ↔ m name = none) ∧ Holds z' (Function.update m name (some score))
  delete : ∀ a d, z.node a = some d → ∃ z', zsetDelete z a = .ok z' ∧
    Holds z' (Function.update m d.name none)
  lookup : ∀ name, ∃ z' r, zsetLookup z name = .ok (z', r) ∧ Holds z' m ∧
    (∀ a, r = some a → ∃ d, z.node a = some d ∧ d.name = name ∧ m name = some d.score) ∧
    (r = none ↔ m name = none)

lemma Reached.wf {z : ZSet} {m : Bytes → Option Score} (h : Reached z m) :
    (∃ t, Wf z t) ∧ Holds z m := by
  induction h with
  | empty => exact ⟨⟨_, SortedSetSpec.wf_empty⟩, holds_empty⟩
  | @insert z z' m name score added _ he ih =>
    obtain ⟨⟨t, w⟩, hm⟩ := ih
    obtain ⟨z₁, t₁, added₁, he₁, i⟩ := zsetInsert_spec w name score
    obtain ⟨rfl, rfl⟩ : z₁ = z' ∧ added₁ = added := by simpa [he] using he₁.symm
    exact ⟨⟨t₁, i.wf⟩, i.holds m hm⟩
  | @lookup z z' m name r _ he ih =>
    obtain ⟨⟨t, w⟩, hm⟩ := ih
    obtain ⟨h₁, r₁, he₁, w₁, -⟩ := zsetLookup_spec w name
    obtain ⟨rfl, rfl⟩ : { z with hmap := h₁ } = z' ∧ r₁ = r := by simpa [he] using he₁.symm
    exact ⟨⟨t, w₁⟩, hm⟩
  | @delete z z' m a d _ hd he ih =>
    obtain ⟨⟨t, w⟩, hm⟩ := ih
    obtain ⟨z₁, t₁, he₁, w₁, -, -, hh⟩ := zsetDelete_spec w hd
    obtain rfl : z₁ = z' := by simpa [he] using he₁.symm
    exact ⟨⟨t₁, w₁⟩, hh m hm⟩

/-- Sizes below the wrap are exact. -/
lemma exact_iff_repr {m : Links Addr} {p : Option Addr} {t : BinaryTree Addr}
    (hlt : t.numNodes < 2 ^ 32) : Exact m p t ↔ Repr m p t := by
  induction t generalizing p with
  | nil => exact Iff.rfl
  | node a l r ihl ihr =>
    have hn : (BinaryTree.node a l r).numNodes = l.numNodes + r.numNodes + 1 := rfl
    unfold Exact AvlTree.Repr
    rw [Nat.mod_eq_of_lt hlt, ihl (by omega), ihr (by omega)]

lemma finite_of_holds {z : ZSet} {t : BinaryTree Addr} (w : Wf z t) {m : Bytes → Option Score}
    (h : Holds z m) : {name | m name ≠ none}.Finite := by
  refine (List.finite_toSet
    ((inorder t).map fun a => ((z.node a).map ZNode.name).getD [])).subset ?_
  intro name hn
  obtain ⟨score, hs⟩ := Option.ne_none_iff_exists'.mp hn
  obtain ⟨a, d, hd, rfl, -⟩ := (h name score).mp hs
  exact List.mem_map.mpr ⟨a, (w.live a d hd).1, by simp [hd]⟩

lemma Wf.indexes {z : ZSet} {t : BinaryTree Addr} (w : Wf z t) (hlt : hmSize z.hmap < 2 ^ 32) :
    Indexes z t where
  root := w.root
  exact := (exact_iff_repr (by rwa [← w.size])).mpr w.repr
  balanced := w.balanced
  nodup := w.nodup
  same := fun _ => w.index.mem_iff.symm
  once := w.index.nodup_iff.mpr w.nodup
  allocated := w.allocated
  names := w.names
  increasing := w.sorted
  root_none := by rw [w.root_none, hmSize_spec w.table, List.length_eq_zero_iff]

lemma Indexes.size_lt {z : ZSet} {t t' : BinaryTree Addr} (h : Indexes z t) (w : Wf z t') :
    t.numNodes < 2 ^ 32 := by
  cases t with
  | nil => simp
  | node a l r =>
    have hroot : top t' = some a := by rw [← w.root, h.root]; rfl
    cases t' with
    | nil => simp at hroot
    | node b l' r' =>
      obtain rfl : b = a := by simpa using hroot
      have e := congrArg AvlNode.size (h.exact.1.symm.trans w.repr.1)
      dsimp only at e
      rw [e]
      exact Nat.mod_lt _ (Nat.two_pow_pos 32)

lemma Indexes.size {z : ZSet} {t t' : BinaryTree Addr} (h : Indexes z t) (w : Wf z t') :
    t.numNodes = hmSize z.hmap := by
  rw [w.size, ← inorder_length, ← inorder_length]
  refine ((List.perm_ext_iff_of_nodup h.nodup w.nodup).mpr fun a => ?_).length_eq
  rw [h.same, w.index.mem_iff]

def insertAll (score : Score) : ZSet → List Bytes → Eff ZSet
  | zset, [] => pure zset
  | zset, name :: names => do
    let (zset, _) ← zsetInsert zset name score
    insertAll score zset names

def giveAll (score : Score) (m : Bytes → Option Score) (names : List Bytes) :
    Bytes → Option Score :=
  names.foldl (fun m name => Function.update m name (some score)) m

lemma insertAll_spec (score : Score) {names : List Bytes} {z : ZSet} {t : BinaryTree Addr}
    {m : Bytes → Option Score} (w : Wf z t) (h : Reached z m) (hnd : names.Nodup)
    (hnew : ∀ name ∈ names, m name = none) :
    ∃ z', insertAll score z names = .ok z' ∧ Reached z' (giveAll score m names) ∧
      hmSize z'.hmap = hmSize z.hmap + names.length := by
  induction names generalizing z t m with
  | nil => exact ⟨z, rfl, h, rfl⟩
  | cons name names ih =>
    obtain ⟨hname, hnd⟩ := List.nodup_cons.mp hnd
    obtain ⟨z₁, t₁, added, he, i⟩ := zsetInsert_spec w name score
    have hadd : added = true :=
      i.added_iff.mpr ((h.wf.2.none_iff name).mp (hnew name List.mem_cons_self))
    obtain ⟨z', he', h', hs⟩ := ih i.wf (.insert h he) hnd fun k hk => by
      rw [Function.update_of_ne (by rintro rfl; exact hname hk)]
      exact hnew k (List.mem_cons_of_mem _ hk)
    refine ⟨z', ?_, h', ?_⟩
    · rw [insertAll, he]
      exact he'
    · have hc := i.count
      rw [hadd, Bool.toNat_true, ← i.wf.size, ← w.size] at hc
      rw [hs, hc, List.length_cons]
      omega

def threeNames : List Bytes := [[98], [97], [99]]

def tied : Bytes → Option Score := giveAll ⟨0, notNan_zero⟩ (fun _ => none) threeNames

lemma tied_eq_some {name : Bytes} {score : Score} (h : tied name = some score) :
    score = ⟨0, rfl⟩ ∧ (name = [98] ∨ name = [97] ∨ name = [99]) := by
  by_cases hin : name ∈ threeNames
  · rcases List.mem_cons.mp hin with rfl | hin
    · exact ⟨(Option.some.inj h).symm, .inl rfl⟩
    · rcases List.mem_pair.mp hin with rfl | rfl
      · exact ⟨(Option.some.inj h).symm, .inr (.inl rfl)⟩
      · exact ⟨(Option.some.inj h).symm, .inr (.inr rfl)⟩
  · simp only [threeNames, List.mem_cons, List.not_mem_nil, or_false, not_or] at hin
    simp [tied, giveAll, threeNames, hin.1, hin.2.1, hin.2.2] at h

lemma exists_tied : ∃ z, insertAll ⟨0, rfl⟩ {} threeNames = .ok z ∧ Reached z tied := by
  obtain ⟨z, he, h, -⟩ := insertAll_spec ⟨0, rfl⟩ SortedSetSpec.wf_empty .empty
    (by decide : threeNames.Nodup) fun _ _ => rfl
  exact ⟨z, he, h⟩

/-- **The dual index.** A set reached by any history meets all that is asked of it exactly
where it has fewer than 2^32 members. -/
theorem meets_iff {z : ZSet} {m : Bytes → Option Score} (h : Reached z m) :
    Meets z m ↔ hmSize z.hmap < 2 ^ 32 := by
  obtain ⟨⟨t, w⟩, hm⟩ := h.wf
  constructor
  · rintro ⟨⟨t', i⟩, -⟩
    rw [← i.size w]
    exact i.size_lt w
  · refine fun hlt => ⟨⟨t, Wf.indexes w hlt⟩, hm, finite_of_holds w hm, fun name score => ?_,
      fun a d hd => ?_, fun name => ?_⟩
    · obtain ⟨z', t', added, he, i⟩ := zsetInsert_spec w name score
      exact ⟨z', added, he, i.added_iff.trans (hm.none_iff name).symm, i.holds m hm⟩
    · obtain ⟨z', t', he, -, -, -, hh⟩ := zsetDelete_spec w hd
      exact ⟨z', he, hh m hm⟩
    · obtain ⟨h', r, he, -, hr⟩ := zsetLookup_spec w name
      refine ⟨_, r, he, hm, ?_, ?_⟩
      · rintro a rfl
        obtain ⟨d, hd, rfl⟩ := hr
        exact ⟨d, hd, rfl, hm.get_eq hd⟩
      · rw [hm.none_iff]
        cases r with
        | none => simpa using hr
        | some a => simpa using ⟨a, hr⟩

/-- Three members with equal scores, one of which is then scored anew and another removed. -/
theorem meets_iff_tied : ∃ z₁ z₂ z₃ a d, insertAll ⟨0, rfl⟩ {} threeNames = .ok z₁ ∧
    zsetInsert z₁ [97] ⟨1, rfl⟩ = .ok (z₂, false) ∧ z₂.node a = some d ∧ d.name = [99] ∧
    zsetDelete z₂ a = .ok z₃ ∧
      (Meets z₃ (Function.update (Function.update tied [97] (some ⟨1, rfl⟩)) d.name none) ↔
        hmSize z₃.hmap < 2 ^ 32) := by
  obtain ⟨z₁, he₁, h₁⟩ := exists_tied
  obtain ⟨⟨t, w⟩, hm⟩ := h₁.wf
  obtain ⟨z₂, t₂, added, he₂, i⟩ := zsetInsert_spec w [97] ⟨1, rfl⟩
  have hold : added = false := by
    cases added with
    | false => rfl
    | true => exact absurd ((hm.none_iff [97]).mpr (i.added_iff.mp rfl)) (by decide)
  subst hold
  have h₂ := h₁.insert he₂
  obtain ⟨a, d, hd, hname, -⟩ := (h₂.wf.2 [99] ⟨0, rfl⟩).mp rfl
  obtain ⟨z₃, t₃, he₃, -⟩ := zsetDelete_spec i.wf hd
  exact ⟨z₁, z₂, z₃, a, d, he₁, he₂, hd, hname, he₃, meets_iff (h₂.delete hd he₃)⟩

/-! ### A set that is too large -/

def fourBytes (i : ℕ) : Bytes :=
  [i % 256, i / 256 % 256, i / 65536 % 256, i / 16777216 % 256].map UInt8.ofNat

lemma fourBytes_injOn {i j : ℕ} (hi : i < 2 ^ 32) (hj : j < 2 ^ 32)
    (h : fourBytes i = fourBytes j) : i = j := by
  have hb : ∀ {a b : ℕ}, UInt8.ofNat (a % 256) = UInt8.ofNat (b % 256) → a % 256 = b % 256 := by
    intro a b e
    have := congrArg UInt8.toNat e
    simpa using this
  simp only [fourBytes, List.map_cons, List.map_nil, List.cons.injEq, and_true] at h
  obtain ⟨h0, h1, h2, h3⟩ := h
  have := hb h0
  have := hb h1
  have := hb h2
  have := hb h3
  omega

lemma insertAll_fourBytes (score : Score) {n : ℕ} (hn : n ≤ 2 ^ 32) :
    ∃ z m, insertAll score {} ((List.range n).map fourBytes) = .ok z ∧ Reached z m ∧
      hmSize z.hmap = n := by
  have hnd : ((List.range n).map fourBytes).Nodup := by
    refine List.nodup_range.map_on fun i hi j hj => fourBytes_injOn ?_ ?_
    · exact Nat.lt_of_lt_of_le (List.mem_range.mp hi) hn
    · exact Nat.lt_of_lt_of_le (List.mem_range.mp hj) hn
  obtain ⟨z, he, h, hs⟩ := insertAll_spec score SortedSetSpec.wf_empty .empty hnd fun _ _ => rfl
  refine ⟨z, _, he, h, ?_⟩
  rw [hs, List.length_map, List.length_range]
  exact Nat.zero_add n

/-- With a member for every name of four bytes, the size at the root is 0. -/
theorem not_meets_of_all_names : ∃ z m,
    insertAll ⟨0, rfl⟩ {} ((List.range (2 ^ 32)).map fourBytes) = .ok z ∧ Reached z m ∧
      ¬ Meets z m := by
  obtain ⟨z, m, he, h, hs⟩ := insertAll_fourBytes ⟨0, rfl⟩ (Nat.le_refl (2 ^ 32))
  refine ⟨z, m, he, h, fun hm => ?_⟩
  obtain ⟨⟨t, w⟩, -⟩ := h.wf
  obtain ⟨t', i⟩ := hm.indexes
  have := i.size_lt w
  rw [i.size w, hs] at this
  exact Nat.lt_irrefl _ this

end ByoRedis.DualIndex
