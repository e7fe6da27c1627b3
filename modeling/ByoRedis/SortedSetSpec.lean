import ByoRedis.HashSpec
import ByoRedis.MemberTree

/-!
The sorted set is a finite map from names to scores, indexed twice.

`Wf` is what every operation keeps: the tree and the hash map index the same nodes, and these
are the nodes allocated.
-/

namespace ByoRedis.SortedSetSpec

open ByoRedis.Basic ByoRedis.Avl ByoRedis.HashTable ByoRedis.HashSpec ByoRedis.SortedSet
open ByoRedis.MemberOrder ByoRedis.MemberTree ByoRedis.AvlTree ByoRedis.Lib.Trees
open ByoRedis.Lib.Runs

/-- A set over a tree of its nodes. -/
structure Wf (z : ZSet) (t : BinaryTree Addr) : Prop extends Shape z t where
  table : WF z.hmap
  index : ((nodes z.hmap).map HNode.ref).Perm (inorder t)
  hcodes : ∀ n ∈ nodes z.hmap, ∀ d, z.node n.ref = some d → n.hcode = d.hcode
  live : ∀ a d, z.node a = some d → a ∈ inorder t ∧ d.hcode = strHash d.name
  names : ∀ a b d e, z.node a = some d → z.node b = some e → d.name = e.name → a = b

/-- The map a set stands for. -/
def Holds (z : ZSet) (m : Bytes → Option Score) : Prop :=
  ∀ name score, m name = some score ↔ ∃ a d, z.node a = some d ∧ d.name = name ∧ d.score = score

/-- A member has a name. -/
def Named (z : ZSet) (name : Bytes) (a : Addr) : Prop := ∃ d, z.node a = some d ∧ d.name = name

lemma wf_empty : Wf {} .nil := by
  refine ⟨⟨rfl, trivial, ?_, trivial, ?_, ?_, ?_⟩, HashSpec.wf_empty, ?_, ?_, ?_, ?_⟩ <;> simp

lemma holds_empty : Holds {} fun _ => none := by
  intro name score
  simp

lemma Holds.none_iff {z : ZSet} {m : Bytes → Option Score} (h : Holds z m) (name : Bytes) :
    m name = none ↔ ∀ a, ¬ Named z name a := by
  constructor
  · rintro hm a ⟨d, hd, hn⟩
    have := (h name d.score).mpr ⟨a, d, hd, hn, rfl⟩
    rw [hm] at this
    simp at this
  · intro hno
    cases hm : m name with
    | none => rfl
    | some score =>
      obtain ⟨a, d, hd, hn, -⟩ := (h name score).mp hm
      exact absurd ⟨d, hd, hn⟩ (hno a)

lemma Holds.get_eq {z : ZSet} {m : Bytes → Option Score} (h : Holds z m) {a : Addr} {d : ZNode}
    (hd : z.node a = some d) : m d.name = some d.score :=
  (h _ _).mpr ⟨a, d, hd, rfl, rfl⟩

lemma Holds.unique {z : ZSet} {m m' : Bytes → Option Score} (h : Holds z m) (h' : Holds z m') :
    m = m' := by
  funext name
  refine Option.ext fun score => ?_
  rw [h name score, h' name score]

lemma Wf.named_unique {z : ZSet} {t : BinaryTree Addr} (w : Wf z t) {name : Bytes} {a b : Addr}
    (ha : Named z name a) (hb : Named z name b) : a = b := by
  obtain ⟨d, hd, rfl⟩ := ha
  obtain ⟨e, he, hn⟩ := hb
  exact w.names a b d e hd he hn.symm

/-- The root is `NULL` exactly where the hash map is empty. -/
lemma Wf.root_none {z : ZSet} {t : BinaryTree Addr} (w : Wf z t) :
    z.root = none ↔ hmSize z.hmap = 0 := by
  have h := w.index.length_eq
  rw [List.length_map] at h
  rw [w.root, top_eq_none, hmSize_spec w.table, h, List.length_eq_zero_iff, inorder_eq_nil]

lemma Wf.size {z : ZSet} {t : BinaryTree Addr} (w : Wf z t) : hmSize z.hmap = t.numNodes := by
  have h := w.index.length_eq
  rw [List.length_map] at h
  rw [hmSize_spec w.table, h, inorder_length]

/-! ### Searching by name -/

def nameKey (name : Bytes) : HNode Bytes := ⟨strHash name, name⟩

lemma Wf.matched {z : ZSet} {name : Bytes} {n : HNode Addr}
    (h : Matches (hcmp z.node) (nameKey name) n) : Named z name n.ref := hcmp_iff.mp h.2

lemma Wf.unmatched {z : ZSet} {t : BinaryTree Addr} (w : Wf z t) {name : Bytes}
    (h : ∀ n ∈ nodes z.hmap, ¬ Matches (hcmp z.node) (nameKey name) n) (a : Addr) :
    ¬ Named z name a := by
  rintro ⟨d, hd, rfl⟩
  obtain ⟨hat, hcode⟩ := w.live a d hd
  obtain ⟨n, hn, rfl⟩ := List.mem_map.mp (w.index.mem_iff.mpr hat)
  exact h n hn ⟨(w.hcodes n hn d hd).trans hcode, hcmp_iff.mpr ⟨d, hd, rfl⟩⟩

lemma Wf.rehashed {z : ZSet} {t : BinaryTree Addr} (w : Wf z t) {h : HMap Addr} (wh : WF h)
    (hp : (nodes h).Perm (nodes z.hmap)) : Wf { z with hmap := h } t where
  toShape := ⟨w.root, w.repr, w.nodup, w.balanced, w.allocated, w.fresh, w.sorted⟩
  table := wh
  index := (hp.map _).trans w.index
  hcodes := fun n hn => w.hcodes n (hp.mem_iff.mp hn)
  live := w.live
  names := w.names

/-- **`zset_lookup`** finds the member of a name. -/
theorem zsetLookup_spec {z : ZSet} {t : BinaryTree Addr} (w : Wf z t) (name : Bytes) :
    ∃ h r, zsetLookup z name = .ok ({ z with hmap := h }, r) ∧ Wf { z with hmap := h } t ∧
      match r with
      | some a => Named z name a
      | none => ∀ a, ¬ Named z name a := by
  unfold zsetLookup
  by_cases hroot : z.root = none
  · refine ⟨z.hmap, none, by rw [if_pos (by rw [hroot]; rfl)]; rfl, w, fun a ⟨d, hd, _⟩ => ?_⟩
    rw [w.root, top_eq_none] at hroot
    have := (w.live a d hd).1
    simp [hroot] at this
  · obtain ⟨h, r, he, wh, hp, hr⟩ := hmLookup_spec w.table (nameKey name) (hcmp z.node)
    refine ⟨h, r.map HNode.ref, ?_, w.rehashed wh hp, ?_⟩
    · rw [nameKey] at he
      simp [hroot, he]
    · cases r with
      | none => exact w.unmatched hr
      | some n => exact Wf.matched hr.2

/-! ### Insertion -/

lemma Holds.update {z z' : ZSet} {m : Bytes → Option Score} (h : Holds z m) {a : Addr} {d : ZNode}
    (hnode : z'.node = Function.update z.node a (some d))
    (hother : ∀ b, Named z d.name b → b = a) (hself : ∀ e, z.node a = some e → e.name = d.name) :
    Holds z' (Function.update m d.name (some d.score)) := by
  intro name score
  by_cases hn : name = d.name
  · subst hn
    rw [Function.update_self, hnode]
    constructor
    · intro hs
      exact ⟨a, d, Function.update_self .., rfl, Option.some.inj hs⟩
    · rintro ⟨b, e, hb, hname, rfl⟩
      by_cases hba : b = a
      · subst hba
        rw [Function.update_self] at hb
        rw [Option.some.inj hb]
      · rw [Function.update_of_ne hba] at hb
        exact absurd (hother b ⟨e, hb, hname⟩) hba
  · rw [Function.update_of_ne hn, h name score, hnode]
    refine exists_congr fun b => ?_
    by_cases hba : b = a
    · subst hba
      constructor
      · rintro ⟨e, he, rfl, -⟩
        exact absurd (hself e he) hn
      · rintro ⟨e, he, rfl, -⟩
        rw [Function.update_self] at he
        exact absurd (congrArg ZNode.name (Option.some.inj he)).symm hn
    · rw [Function.update_of_ne hba]

/-- What `zset_insert` does to a set and its map. -/
structure Inserted (z z' : ZSet) (t t' : BinaryTree Addr) (name : Bytes) (score : Score)
    (added : Bool) : Prop where
  wf : Wf z' t'
  added_iff : added = true ↔ ∀ a, ¬ Named z name a
  holds : ∀ m, Holds z m → Holds z' (Function.update m name (some score))
  count : t'.numNodes = t.numNodes + added.toNat

lemma Wf.update {z : ZSet} {t : BinaryTree Addr} (w : Wf z t) {a : Addr} {d : ZNode}
    (hd : z.node a = some d) (score : Score) :
    ∃ z' t', zsetUpdate z a score = .ok z' ∧ Inserted z z' t t' d.name score false := by
  have hat := (w.live a d hd).1
  obtain ⟨z', t', he, s', hp, hh, hf, hn⟩ := zsetUpdate_spec w.toShape hat hd score
    fun b _ e hb hname => w.names b a e d hb hd hname
  have hsame : ∀ b e, z'.node b = some e → ∃ e', z.node b = some e' ∧ e'.name = e.name ∧
      e'.hcode = e.hcode := by
    intro b e hb
    rw [hn] at hb
    by_cases hba : b = a
    · subst hba
      rw [Function.update_self, Option.some.injEq] at hb
      subst hb
      exact ⟨d, hd, rfl, rfl⟩
    · rw [Function.update_of_ne hba] at hb
      exact ⟨e, hb, rfl, rfl⟩
  refine ⟨z', t', he, ⟨⟨s', ?_, ?_, ?_, ?_, ?_⟩, ?_, ?_, ?_⟩⟩
  · rw [hh]
    exact w.table
  · rw [hh]
    exact w.index.trans hp.symm
  · intro n hn' e hb
    rw [hh] at hn'
    obtain ⟨e', hb', -, hc⟩ := hsame _ e hb
    rw [w.hcodes n hn' e' hb', hc]
  · intro b e hb
    obtain ⟨e', hb', hname, hc⟩ := hsame b e hb
    obtain ⟨hbt, hcode⟩ := w.live b e' hb'
    exact ⟨hp.mem_iff.mpr hbt, by rw [← hc, hcode, hname]⟩
  · intro b c e e' hb hc hname
    obtain ⟨f, hf₁, hf₂, -⟩ := hsame b e hb
    obtain ⟨g, hg₁, hg₂, -⟩ := hsame c e' hc
    exact w.names b c f g hf₁ hg₁ (by rw [hf₂, hg₂, hname])
  · simp only [Bool.false_eq_true, false_iff]
    exact fun h => h a ⟨d, hd, rfl⟩
  · intro m hm
    refine hm.update (d := { d with score := score }) hn (fun b hb => ?_) fun e hb => ?_
    · exact w.named_unique hb ⟨d, hd, rfl⟩
    · rw [hd, Option.some.injEq] at hb
      rw [← hb]
  · have := hp.length_eq
    rw [inorder_length, inorder_length] at this
    simpa using this

lemma Wf.ne_fresh {z : ZSet} {t : BinaryTree Addr} (w : Wf z t) {b : Addr} (hb : b ∈ inorder t) :
    b ≠ z.fresh := Nat.ne_of_lt (w.fresh b hb)

lemma Wf.fresh_none {z : ZSet} {t : BinaryTree Addr} (w : Wf z t) : z.node z.fresh = none := by
  cases hd : z.node z.fresh with
  | none => rfl
  | some d => exact absurd rfl (w.ne_fresh (w.live _ d hd).1)

lemma Wf.node_new {z : ZSet} {t : BinaryTree Addr} (w : Wf z t) (name : Bytes) (score : Score)
    {b : Addr} (hb : b ∈ inorder t) : (znodeNew z name score).1.node b = z.node b :=
  Function.update_of_ne (w.ne_fresh hb) ..

lemma Wf.shape_new {z : ZSet} {t : BinaryTree Addr} (w : Wf z t) (name : Bytes) (score : Score)
    (h : HMap Addr) : Shape { (znodeNew z name score).1 with hmap := h } t := by
  refine ⟨w.root, ?_, w.nodup, w.balanced, fun b hb => ?_, fun b hb => ?_, ?_⟩
  · exact w.repr.congr fun b hb => Function.update_of_ne (w.ne_fresh hb) ..
  · dsimp only
    rw [w.node_new name score hb]
    exact w.allocated b hb
  · exact Nat.lt_succ_of_lt (w.fresh b hb)
  · refine w.sorted.imp_of_mem fun {x y} hx hy hxy d e hd he => hxy d e ?_ ?_
    · rwa [← w.node_new name score hx]
    · rwa [← w.node_new name score hy]

lemma Wf.withNode {z z' : ZSet} {t t' : BinaryTree Addr} (w : Wf z t) {d : ZNode}
    (hcode : d.hcode = strHash d.name) (hno : ∀ a, ¬ Named z d.name a) (s' : Shape z' t')
    (wh : WF z'.hmap) (hnodes : (nodes z'.hmap).Perm (⟨d.hcode, z.fresh⟩ :: nodes z.hmap))
    (hp : (inorder t').Perm (z.fresh :: inorder t))
    (hn : z'.node = Function.update z.node z.fresh (some d)) : Wf z' t' := by
  have hcases : ∀ b e, z'.node b = some e → (b = z.fresh ∧ e = d) ∨ z.node b = some e := by
    intro b e hb
    rw [hn] at hb
    by_cases hbf : b = z.fresh
    · subst hbf
      rw [Function.update_self, Option.some.injEq] at hb
      exact .inl ⟨rfl, hb.symm⟩
    · rw [Function.update_of_ne hbf] at hb
      exact .inr hb
  refine ⟨s', wh, (hnodes.map _).trans ((w.index.cons _).trans hp.symm), ?_, ?_, ?_⟩
  · intro n hn e hb
    rcases List.mem_cons.mp (hnodes.mem_iff.mp hn) with rfl | hn
    · rcases hcases _ e hb with ⟨-, rfl⟩ | hb
      · rfl
      · rw [w.fresh_none] at hb
        simp at hb
    · rcases hcases _ e hb with ⟨hf, -⟩ | hb
      · exact absurd hf (w.ne_fresh (w.index.mem_iff.mp (List.mem_map_of_mem hn)))
      · exact w.hcodes n hn e hb
  · intro b e hb
    rcases hcases b e hb with ⟨rfl, rfl⟩ | hb
    · exact ⟨hp.mem_iff.mpr (by simp), hcode⟩
    · obtain ⟨hbt, hc⟩ := w.live b e hb
      exact ⟨hp.mem_iff.mpr (by simp [hbt]), hc⟩
  · intro b c e e' hb hc hname
    rcases hcases b e hb with ⟨rfl, rfl⟩ | hb <;> rcases hcases c e' hc with ⟨rfl, rfl⟩ | hc
    · rfl
    · exact absurd ⟨e', hc, hname.symm⟩ (hno c)
    · exact absurd ⟨e, hb, hname⟩ (hno b)
    · exact w.names b c e e' hb hc hname

lemma Wf.insertNew {z : ZSet} {t : BinaryTree Addr} (w : Wf z t) {name : Bytes}
    (hno : ∀ a, ¬ Named z name a) (score : Score) (h : HMap Addr) {rounds : ℕ}
    (hf : Enough rounds t.numNodes) :
    ∃ z' t', treeInsertIn rounds { (znodeNew z name score).1 with hmap := h } z.fresh = .ok z' ∧
      Shape z' t' ∧ (inorder t').Perm (z.fresh :: inorder t) ∧
      Relinked { (znodeNew z name score).1 with hmap := h } z' := by
  refine treeInsertIn_spec (w.shape_new name score h) hf (d := ⟨strHash name, score, name⟩)
    (Function.update_self ..) (fun hm => w.ne_fresh hm rfl) (Nat.lt_succ_self _)
    (by simp [znodeNew, avlInit]) (by simp [znodeNew, avlInit]) fun b hb e hbe hbn => ?_
  exact hno b ⟨e, (w.node_new name score hb).symm.trans hbe, hbn⟩

lemma Wf.add {z : ZSet} {t : BinaryTree Addr} (w : Wf z t) {name : Bytes}
    (hno : ∀ a, ¬ Named z name a) (score : Score) {z₁ : ZSet} {h : HMap Addr}
    (hz₁ : z₁ = (znodeNew z name score).1) (he : hmInsert z₁.hmap ⟨strHash name, z.fresh⟩ = .ok h) :
    ∃ z' t', treeInsert { z₁ with hmap := h } z.fresh = .ok z' ∧
      Inserted z z' t t' name score true := by
  obtain ⟨d, hd⟩ : ∃ d : ZNode, d = ⟨strHash name, score, name⟩ := ⟨_, rfl⟩
  have hname : d.name = name := by rw [hd]
  have hnode : z₁.node = Function.update z.node z.fresh (some d) := by rw [hz₁, hd]; rfl
  obtain ⟨h', he', wh, hp⟩ := hmInsert_spec w.table ⟨strHash name, z.fresh⟩
  obtain rfl : h' = h := by
    rw [hz₁] at he
    exact Except.ok.inj (he'.symm.trans he)
  obtain ⟨z', t', hi, s', hp', hrel⟩ :=
    w.insertNew hno score h' (w.shape_new name score h').enough
  rw [← hz₁] at hi hrel
  have hn' : z'.node = Function.update z.node z.fresh (some d) := by rw [hrel.node, ← hnode]
  have hmap : z'.hmap = h' := hrel.hmap
  rw [← hname] at hno
  refine ⟨z', t', hi, ?_, ?_, fun m hm => ?_, ?_⟩
  · refine w.withNode (by rw [hd]) hno s' ?_ ?_ hp' hn'
    · rw [hmap]
      exact wh
    · rw [hmap, hd]
      exact hp
  · simp only [true_iff]
    rwa [hname] at hno
  · have := hm.update hn' (fun b hb => absurd hb (hno b)) fun e he => by
      rw [w.fresh_none] at he
      simp at he
    rwa [hd] at this
  · have := hp'.length_eq
    rw [List.length_cons, inorder_length, inorder_length] at this
    simpa using this

lemma Inserted.of_rehashed {z z' : ZSet} {t t' : BinaryTree Addr} {h : HMap Addr} {name : Bytes}
    {score : Score} {added : Bool} (i : Inserted { z with hmap := h } z' t t' name score added) :
    Inserted z z' t t' name score added :=
  ⟨i.wf, i.added_iff, i.holds, i.count⟩

/-- **`zset_insert`** gives a name a score, and says whether the name is new. -/
theorem zsetInsert_spec {z : ZSet} {t : BinaryTree Addr} (w : Wf z t) (name : Bytes)
    (score : Score) : ∃ z' t' added, zsetInsert z name score = .ok (z', added) ∧
      Inserted z z' t t' name score added := by
  obtain ⟨h, r, he, w₁, hr⟩ := zsetLookup_spec w name
  unfold zsetInsert
  rw [he, ok_bind]
  cases r with
  | some a =>
    obtain ⟨d, hd, rfl⟩ := hr
    obtain ⟨z', t', hu, i⟩ := w₁.update hd score
    exact ⟨z', t', false, by simp [hu], i.of_rehashed⟩
  | none =>
    obtain ⟨h', hi, -⟩ := hmInsert_spec w₁.table ⟨strHash name, z.fresh⟩
    obtain ⟨z', t', ht, i⟩ := w₁.add hr score rfl hi
    refine ⟨z', t', true, ?_, i.of_rehashed⟩
    simp only [znodeNew, ZSet.deref, Function.update_self, pure_eq_ok, ok_bind, hi]
    simp only [znodeNew] at ht
    rw [ht]
    rfl

/-! ### Deletion -/

lemma Holds.erase {z z' : ZSet} {m : Bytes → Option Score} (h : Holds z m) {a : Addr} {d : ZNode}
    (hd : z.node a = some d) (hnode : z'.node = Function.update z.node a none)
    (hother : ∀ b, Named z d.name b → b = a) : Holds z' (Function.update m d.name none) := by
  intro name score
  rw [hnode]
  by_cases hn : name = d.name
  · subst hn
    rw [Function.update_self]
    refine ⟨fun hs => by simp at hs, ?_⟩
    rintro ⟨b, e, hb, hname, -⟩
    by_cases hba : b = a
    · subst hba
      simp at hb
    · rw [Function.update_of_ne hba] at hb
      exact absurd (hother b ⟨e, hb, hname⟩) hba
  · rw [Function.update_of_ne hn, h name score]
    refine exists_congr fun b => ?_
    by_cases hba : b = a
    · subst hba
      constructor
      · rintro ⟨e, he, rfl, -⟩
        rw [hd, Option.some.injEq] at he
        exact absurd (congrArg ZNode.name he).symm hn
      · rintro ⟨e, he, -⟩
        simp at he
    · rw [Function.update_of_ne hba]

/-- **`zset_delete`** takes out any member; its assertion does not fail. -/
theorem zsetDelete_spec {z : ZSet} {t : BinaryTree Addr} (w : Wf z t) {a : Addr} {d : ZNode}
    (hd : z.node a = some d) :
    ∃ z' t', zsetDelete z a = .ok z' ∧ Wf z' t' ∧ (inorder t).Perm (a :: inorder t') ∧
      z'.node = Function.update z.node a none ∧
      ∀ m, Holds z m → Holds z' (Function.update m d.name none) := by
  obtain ⟨hat, hcode⟩ := w.live a d hd
  obtain ⟨h, r, he, wh, hr⟩ := hmDelete_spec w.table (nameKey d.name) (hcmp z.node)
  obtain ⟨m', t', hdel, hR, hb, hsub, hperm⟩ := w.toShape.detach w.toShape.enough hat
  cases r with
  | none => exact absurd ⟨d, hd, rfl⟩ (w.unmatched hr.2 a)
  | some n =>
    obtain ⟨hp, hm⟩ := hr
    obtain rfl : n.ref = a := w.named_unique (Wf.matched hm) ⟨d, hd, rfl⟩
    have hne : ∀ {b e}, Function.update z.node n.ref none b = some e → z.node b = some e := by
      intro b e hbe
      by_cases hba : b = n.ref
      · subst hba
        simp at hbe
      · rwa [Function.update_of_ne hba] at hbe
    refine ⟨{ z with
      root := top t'
      tree := m'
      hmap := h
      node := Function.update z.node n.ref none }, t', ?_, ⟨?_, wh, ?_, ?_, ?_, ?_⟩, hperm, rfl,
      fun m hm => hm.erase hd rfl fun b hb => w.named_unique hb ⟨d, hd, rfl⟩⟩
    · rw [nameKey] at he
      simp only [zsetDelete, ZSet.deref, hd, hcode, pure_eq_ok, ok_bind, he, hdel]
      rfl
    · exact w.toShape.without hsub hperm rfl hR hb (fun b hba => Function.update_of_ne hba ..) rfl
    · have := (hp.map HNode.ref).symm.trans (w.index.trans hperm)
      exact (List.perm_cons _).mp this
    · exact fun k hk e hbe => w.hcodes k (hp.mem_iff.mpr (by simp [hk])) e (hne hbe)
    · intro b e hbe
      obtain ⟨hbt, hc⟩ := w.live b e (hne hbe)
      refine ⟨?_, hc⟩
      have := hperm.mem_iff.mp hbt
      rcases List.mem_cons.mp this with rfl | hbt
      · dsimp only at hbe
        simp at hbe
      · exact hbt
    · exact fun b c e e' hb hc => w.names b c e e' (hne hb) (hne hc)

/-- `tree_dispose` frees the nodes of a tree, each once. -/
lemma treeDispose_spec {t : BinaryTree Addr} {z : ZSet} {p : Option Addr} {fuel : ℕ}
    (hR : Repr z.tree p t) (hnd : (inorder t).Nodup) (hf : t.numNodes < fuel)
    (hlive : ∀ a ∈ inorder t, ∃ d, z.node a = some d) :
    ∃ node, treeDispose fuel z (top t) = .ok { z with node := node } ∧
      (∀ a ∈ inorder t, node a = none) ∧ ∀ a ∉ inorder t, node a = z.node a := by
  induction t generalizing z p fuel with
  | nil =>
    obtain ⟨fuel, rfl⟩ : ∃ k, fuel = k + 1 := ⟨fuel - 1, by omega⟩
    exact ⟨z.node, rfl, by simp, fun a _ => rfl⟩
  | node b l r ihl ihr =>
    obtain ⟨fuel, rfl⟩ : ∃ k, fuel = k + 1 := ⟨fuel - 1, by omega⟩
    simp only [BinaryTree.numNodes] at hf
    obtain ⟨hbl, hbr, hl, hr, hdis⟩ := nodup_node.mp hnd
    obtain ⟨hb, hRl, hRr⟩ := hR
    simp only [inorder_node, List.mem_append, List.mem_cons] at hlive ⊢
    obtain ⟨n₁, e₁, hin₁, hout₁⟩ := ihl (z := z) hRl hl (by omega : l.numNodes < fuel)
      fun a ha => hlive a (.inl ha)
    obtain ⟨n₂, e₂, hin₂, hout₂⟩ := ihr (z := { z with node := n₁ }) hRr hr
      (by omega : r.numNodes < fuel) fun a ha => by
        dsimp only
        rw [hout₁ a fun hal => hdis hal ha]
        exact hlive a (.inr (.inr ha))
    dsimp only at hout₂
    obtain ⟨d, hd⟩ := hlive b (.inr (.inl rfl))
    have hn₂ : n₂ b = some d := by rw [hout₂ b hbr, hout₁ b hbl, hd]
    refine ⟨Function.update n₂ b none, ?_, fun a ha => ?_, fun a ha => ?_⟩
    · simp only [treeDispose, top_node, hb, e₁, ok_bind, e₂, ZSet.deref, hn₂, pure_eq_ok]
      rfl
    · by_cases hab : a = b
      · rw [hab, Function.update_self]
      · rw [Function.update_of_ne hab]
        rcases ha with ha | rfl | ha
        · rw [hout₂ a fun har => hdis ha har, hin₁ a ha]
        · exact absurd rfl hab
        · exact hin₂ a ha
    · simp only [not_or] at ha
      rw [Function.update_of_ne ha.2.1, hout₂ a ha.2.2, hout₁ a ha.1]

/-- **`zset_clear`** frees every member. -/
theorem zsetClear_spec {z : ZSet} {t : BinaryTree Addr} (w : Wf z t) :
    ∃ z', zsetClear z = .ok z' ∧ Wf z' .nil ∧ ∀ a, z'.node a = none := by
  obtain ⟨node, he, hin, hout⟩ := treeDispose_spec (z := { z with hmap := hmClear z.hmap })
    w.repr w.nodup (Nat.lt_succ_of_le w.toShape.numNodes_le : t.numNodes < z.rounds) w.allocated
  have hnone : ∀ a, node a = none := by
    intro a
    by_cases ha : a ∈ inorder t
    · exact hin a ha
    · rw [hout a ha]
      cases hd : z.node a with
      | none => rfl
      | some d => exact absurd (w.live a d hd).1 ha
  refine ⟨{ z with root := none, hmap := {}, node := node }, ?_, ?_, hnone⟩
  · unfold zsetClear
    dsimp only
    rw [w.root] at he ⊢
    exact congrArg (fun x => x >>= fun zset : ZSet => pure { zset with root := none }) he
  · refine ⟨⟨rfl, trivial, ?_, trivial, ?_, ?_, ?_⟩, HashSpec.wf_empty, ?_, ?_, ?_, ?_⟩ <;>
      simp [hnone]

end ByoRedis.SortedSetSpec
