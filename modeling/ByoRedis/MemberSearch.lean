import ByoRedis.DualIndex
import ByoRedis.MemberWalk

/-!
One order for insertion and search.

The tree is ordered by one comparison and searched by another. Both decide `Precedes`, and the
search finds the least member that does not precede the key.
-/

namespace ByoRedis.MemberSearch

open ByoRedis.Basic ByoRedis.SortedSet ByoRedis.SortedSetSpec ByoRedis.MemberOrder
open ByoRedis.MemberTree ByoRedis.MemberWalk ByoRedis.DualIndex ByoRedis.Lib.Trees
open ByoRedis.Lib.Positions

/-- A pair comes before another: by score, then byte by byte, a proper prefix first. -/
def Precedes (s : Score) (n : Bytes) (s' : Score) (n' : Bytes) : Prop :=
  s.ord < s'.ord ∨ s.ord = s'.ord ∧ n < n'

lemma map_toNat_lt_iff (a b : Bytes) : a.map UInt8.toNat < b.map UInt8.toNat ↔ a < b := by
  induction a generalizing b with
  | nil => cases b <;> simp
  | cons x a ih =>
    cases b with
    | nil => simp
    | cons y b =>
      rw [List.map_cons, List.map_cons, List.cons_lt_cons_iff, List.cons_lt_cons_iff, ih,
        UInt8.toNat_inj, UInt8.lt_iff_toNat_lt]

lemma rank_lt_rank_iff {s s' : Score} {n n' : Bytes} :
    rank s n < rank s' n' ↔ Precedes s n s' n' := by
  rw [rank, rank, Prod.Lex.toLex_lt_toLex, Precedes, map_toNat_lt_iff]

lemma precedes_trichotomy (s : Score) (n : Bytes) (s' : Score) (n' : Bytes) :
    Precedes s n s' n' ∨ (s.ord = s'.ord ∧ n = n') ∨ Precedes s' n' s n := by
  rw [← rank_lt_rank_iff, ← rank_lt_rank_iff]
  rcases lt_trichotomy (rank s n) (rank s' n') with h | h | h
  · exact .inl h
  · obtain ⟨h1, h2⟩ := Prod.mk.inj (toLex.injective h)
    exact .inr (.inl ⟨h1, toNat_map_injective h2⟩)
  · exact .inr (.inr h)

lemma Precedes.irrefl (s : Score) (n : Bytes) : ¬ Precedes s n s n := by
  rw [← rank_lt_rank_iff]
  exact lt_irrefl _

lemma Precedes.trans {s₁ s₂ s₃ : Score} {n₁ n₂ n₃ : Bytes} (h : Precedes s₁ n₁ s₂ n₂)
    (h' : Precedes s₂ n₂ s₃ n₃) : Precedes s₁ n₁ s₃ n₃ := by
  rw [← rank_lt_rank_iff] at h h' ⊢
  exact h.trans h'

instance (s : Score) (n : Bytes) (s' : Score) (n' : Bytes) : Decidable (Precedes s n s' n') :=
  inferInstanceAs (Decidable (_ ∨ _ ∧ _))

/-! ### The members of a set, in order -/

/-- The members of a map, listed in their order. -/
structure Lists (m : Bytes → Option Score) (members : List (Score × Bytes)) : Prop where
  sorted : members.Pairwise fun p q => Precedes p.1 p.2 q.1 q.2
  mem : ∀ s n, (s, n) ∈ members ↔ m n = some s

lemma Lists.unique {m : Bytes → Option Score} {xs ys : List (Score × Bytes)} (hx : Lists m xs)
    (hy : Lists m ys) : xs = ys := by
  have hnodup : ∀ {zs}, Lists m zs → zs.Nodup := by
    intro zs h
    refine h.sorted.imp fun {p q} hpq => ?_
    rintro rfl
    exact Precedes.irrefl _ _ hpq
  have hperm : xs.Perm ys := (List.perm_ext_iff_of_nodup (hnodup hx) (hnodup hy)).mpr fun p => by
    rw [hx.mem p.1 p.2, hy.mem p.1 p.2]
  refine hperm.eq_of_pairwise (fun p q _ _ h h' => ?_) hx.sorted hy.sorted
  exact absurd (h.trans h') (Precedes.irrefl _ _)

/-- What a node of a set stands for. -/
def memberOf (z : ZSet) (a : Addr) : Score × Bytes :=
  ((z.node a).map fun d => (d.score, d.name)).getD (⟨0, notNan_zero⟩, [])

lemma memberOf_eq {z : ZSet} {a : Addr} {d : ZNode} (hd : z.node a = some d) :
    memberOf z a = (d.score, d.name) := by
  rw [memberOf, hd, Option.map_some, Option.getD_some]

lemma Wf.lists {z : ZSet} {t : BinaryTree Addr} (w : Wf z t) {m : Bytes → Option Score}
    (hm : Holds z m) : Lists m ((inorder t).map (memberOf z)) := by
  refine ⟨List.pairwise_map.mpr (w.sorted.imp_of_mem fun {x y} hx hy hxy => ?_), fun s n => ?_⟩
  · obtain ⟨d, hd⟩ := w.allocated x hx
    obtain ⟨e, he⟩ := w.allocated y hy
    rw [memberOf_eq hd, memberOf_eq he, ← rank_lt_rank_iff]
    exact hxy d e hd he
  · rw [hm n s, List.mem_map]
    constructor
    · rintro ⟨a, ha, h⟩
      obtain ⟨d, hd⟩ := w.allocated a ha
      rw [memberOf_eq hd] at h
      exact ⟨a, d, hd, (Prod.mk.inj h).2, (Prod.mk.inj h).1⟩
    · rintro ⟨a, d, hd, rfl, rfl⟩
      exact ⟨a, (w.live a d hd).1, memberOf_eq hd⟩

def preceding (members : List (Score × Bytes)) (score : Score) (name : Bytes) : ℕ :=
  members.countP fun p => Precedes p.1 p.2 score name

lemma Lists.cut {m : Bytes → Option Score} {members : List (Score × Bytes)} (h : Lists m members)
    (score : Score) (name : Bytes) : members.Pairwise fun p q =>
      decide (Precedes q.1 q.2 score name) = true → decide (Precedes p.1 p.2 score name) = true :=
  h.sorted.imp fun hpq hq => decide_eq_true (hpq.trans (of_decide_eq_true hq))

/-- **`zset_seekge`** returns the node at the position that counts the members before the key. -/
theorem zsetSeekge_position {z : ZSet} {t : BinaryTree Addr} (w : Wf z t)
    {m : Bytes → Option Score} (hm : Holds z m) {members : List (Score × Bytes)}
    (hl : Lists m members) (score : Score) (name : Bytes) :
    zsetSeekge z score name = .ok (inorder t)[preceding members score name]? := by
  obtain rfl := hl.unique (Wf.lists w hm)
  have hbefore : ∀ a ∈ inorder t, MemberWalk.before z score name a =
      decide (Precedes (memberOf z a).1 (memberOf z a).2 score name) := by
    intro a ha
    obtain ⟨d, hd⟩ := w.allocated a ha
    rw [MemberWalk.before, hd, Option.any_some, memberOf_eq hd, Bool.eq_iff_iff, zlessPair_iff,
      rank_lt_rank_iff, decide_eq_true_eq]
  have hmono : (inorder t).Pairwise fun x y =>
      MemberWalk.before z score name y → MemberWalk.before z score name x := by
    refine (List.pairwise_map.mp (hl.cut score name)).imp_of_mem fun {x y} hx hy h => ?_
    rw [hbefore x hx, hbefore y hy]
    exact h
  have hcount : (inorder t).countP (MemberWalk.before z score name) =
      preceding ((inorder t).map (memberOf z)) score name := by
    rw [preceding, List.countP_map]
    exact List.countP_congr fun a ha => by rw [hbefore a ha]; rfl
  rw [zsetSeekge_spec w, find?_not hmono, hcount]

/-- The member at the position a search returns is the least that does not precede the key. -/
lemma Lists.least {m : Bytes → Option Score} {members : List (Score × Bytes)} (h : Lists m members)
    {score : Score} {name : Bytes} {p : Score × Bytes}
    (hp : members[preceding members score name]? = some p) :
    ¬ Precedes p.1 p.2 score name ∧ ∀ q ∈ members, ¬ Precedes q.1 q.2 score name →
      ¬ Precedes q.1 q.2 p.1 p.2 := by
  have hlt : ∀ {i q}, members[i]? = some q →
      (i < preceding members score name ↔ Precedes q.1 q.2 score name) := by
    intro i q hi
    rw [preceding, lt_countP_iff (h.cut score name) hi, decide_eq_true_eq]
  refine ⟨fun hlt' => Nat.lt_irrefl _ ((hlt hp).mpr hlt'), fun q hq hnot hqp => ?_⟩
  obtain ⟨i, hi⟩ := List.mem_iff_getElem?.mp hq
  have hle : preceding members score name ≤ i := Nat.le_of_not_lt (mt (hlt hi).mp hnot)
  obtain ⟨hil, rfl⟩ := List.getElem?_eq_some_iff.mp hi
  obtain ⟨hpl, rfl⟩ := List.getElem?_eq_some_iff.mp hp
  rcases Nat.lt_or_eq_of_le hle with hlt' | heq
  · exact Precedes.irrefl _ _ (hqp.trans (List.pairwise_iff_getElem.mp h.sorted _ _ hpl hil hlt'))
  · simp only [← heq] at hqp
    exact Precedes.irrefl _ _ hqp

lemma all_precede (members : List (Score × Bytes)) (score : Score) (name : Bytes) :
    members[preceding members score name]? = none ↔
      ∀ p ∈ members, Precedes p.1 p.2 score name := by
  rw [List.getElem?_eq_none_iff]
  have hle : preceding members score name ≤ members.length := List.countP_le_length
  rw [show members.length ≤ preceding members score name ↔
      preceding members score name = members.length by omega, preceding, List.countP_eq_length]
  simp only [decide_eq_true_eq]

lemma Lists.exact {m : Bytes → Option Score} {members : List (Score × Bytes)} (h : Lists m members)
    {s score : Score} {name : Bytes} (hm : m name = some s) (hs : s.ord = score.ord) :
    members[preceding members score name]? = some (s, name) := by
  have hin := (h.mem s name).mpr hm
  have hkey : ¬ Precedes s name score name := by
    rintro (hlt | ⟨-, hlt⟩)
    · exact hlt.ne hs
    · exact Precedes.irrefl s name (.inr ⟨rfl, hlt⟩)
  cases hp : members[preceding members score name]? with
  | none => exact absurd ((all_precede members score name).mp hp _ hin) hkey
  | some p =>
    obtain ⟨hge, hleast⟩ := h.least hp
    have hle := hleast _ hin hkey
    rcases precedes_trichotomy p.1 p.2 s name with hlt | ⟨-, hn⟩ | hlt
    · -- what precedes the member precedes the key
      refine absurd ?_ hge
      rcases hlt with hlt | ⟨he, hn⟩
      · exact .inl (hs ▸ hlt)
      · exact .inr ⟨he.trans hs, hn⟩
    · have hmem := (h.mem p.1 p.2).mp (List.mem_of_getElem? hp)
      rw [hn, hm, Option.some.injEq] at hmem
      rw [hmem, ← hn]
    · exact absurd hlt hle

/-- **Search and insertion agree.** Both comparisons decide one strict total order, and the
search finds the least member that does not precede the key. -/
theorem zsetSeekge_least :
    (∀ (z : ZSet) (a b : Addr) (d e : ZNode), z.node a = some d → z.node b = some e →
      zless z a b = .ok (decide (Precedes d.score d.name e.score e.name))) ∧
    (∀ (d : ZNode) (score : Score) (name : Bytes),
      zlessPair d score name = decide (Precedes d.score d.name score name)) ∧
    (∀ s n, ¬ Precedes s n s n) ∧
    (∀ s₁ n₁ s₂ n₂ s₃ n₃, Precedes s₁ n₁ s₂ n₂ → Precedes s₂ n₂ s₃ n₃ → Precedes s₁ n₁ s₃ n₃) ∧
    (∀ s n s' n', Precedes s n s' n' ∨ (s.ord = s'.ord ∧ n = n') ∨ Precedes s' n' s n) ∧
    ∀ (z : ZSet) (m : Bytes → Option Score), Reached z m → ∀ (score : Score) (name : Bytes),
      ∃ r, zsetSeekge z score name = .ok r ∧
        (r = none ↔ ∀ n s, m n = some s → Precedes s n score name) ∧
        (∀ a, r = some a → ∃ d, z.node a = some d ∧ m d.name = some d.score ∧
          ¬ Precedes d.score d.name score name ∧
          ∀ n s, m n = some s → ¬ Precedes s n score name → ¬ Precedes s n d.score d.name) ∧
        ∀ s, m name = some s → s.ord = score.ord →
          ∃ a d, r = some a ∧ z.node a = some d ∧ d.name = name ∧ d.score = s := by
  refine ⟨fun z a b d e ha hb => ?_, fun d score name => ?_, Precedes.irrefl,
    fun _ _ _ _ _ _ h h' => h.trans h', precedes_trichotomy, fun z m h score name => ?_⟩
  · simp only [zless_eq ha hb, rank_lt_rank_iff]
  · rw [Bool.eq_iff_iff, zlessPair_iff, rank_lt_rank_iff, decide_eq_true_eq]
  · obtain ⟨⟨t, w⟩, hm⟩ := h.wf
    have hl := Wf.lists w hm
    obtain ⟨k, hk⟩ : ∃ k, k = preceding ((inorder t).map (memberOf z)) score name := ⟨_, rfl⟩
    have hpos : ((inorder t).map (memberOf z))[k]? = (inorder t)[k]?.map (memberOf z) :=
      List.getElem?_map
    refine ⟨(inorder t)[k]?, hk ▸ zsetSeekge_position w hm hl score name, ?_, fun a ha => ?_,
      fun s hs hord => ?_⟩
    · rw [← Option.map_eq_none_iff (f := memberOf z), ← hpos, hk, all_precede]
      exact ⟨fun hall n s hn => hall (s, n) ((hl.mem s n).mpr hn),
        fun hall p hp => hall p.2 p.1 ((hl.mem p.1 p.2).mp hp)⟩
    · obtain ⟨d, hd⟩ := w.allocated a (List.mem_of_getElem? ha)
      rw [ha, Option.map_some, memberOf_eq hd, hk] at hpos
      obtain ⟨hge, hleast⟩ := hl.least hpos
      refine ⟨d, hd, hm.get_eq hd, hge, fun n s hn => ?_⟩
      exact hleast (s, n) ((hl.mem s n).mpr hn)
    · rw [hk, hl.exact hs hord, Eq.comm, Option.map_eq_some_iff] at hpos
      obtain ⟨a, ha, hp⟩ := hpos
      obtain ⟨d, hd⟩ := w.allocated a (List.mem_of_getElem? ha)
      rw [memberOf_eq hd] at hp
      exact ⟨a, d, hk ▸ ha, hd, (Prod.mk.inj hp).2, (Prod.mk.inj hp).1⟩

/-- Between the first two of three members with equal scores the search finds the second. -/
theorem zsetSeekge_least_tied : ∃ z a d, insertAll ⟨0, rfl⟩ {} threeNames = .ok z ∧
    zsetSeekge z ⟨0, rfl⟩ [97, 97] = .ok (some a) ∧ z.node a = some d ∧ d.name = [98] := by
  obtain ⟨z, he, h⟩ := exists_tied
  obtain ⟨r, hr, hnone, hsome, -⟩ := zsetSeekge_least.2.2.2.2.2 z _ h ⟨0, rfl⟩ [97, 97]
  cases r with
  | none => exact absurd (hnone.mp rfl [98] ⟨0, rfl⟩ rfl) (by decide)
  | some a =>
    obtain ⟨d, hd, hin, hge, hleast⟩ := hsome a rfl
    refine ⟨z, a, d, he, hr, hd, ?_⟩
    -- the name is one of the three, not less than the key and not greater than `b`
    have hb := hleast [98] ⟨0, rfl⟩ rfl (by decide)
    rcases tied_eq_some hin with ⟨hs, hn | hn | hn⟩
    · exact hn
    · rw [hs, hn] at hge
      exact absurd (by decide) hge
    · rw [hs, hn] at hb
      exact absurd (by decide) hb

end ByoRedis.MemberSearch
