import ByoRedis.AvlSpec
import ByoRedis.MemberCommands

/-!
Ranks and ranges of sorted sets: `zrank`, `zcount` and `zquery` over the ordered list of the
members.

The tree answers by positions. They are exact below 2^32 members; beyond, a rank lacks a multiple
of 2^32 that depends on the shape of the tree.
-/

namespace ByoRedis.RangeCommands

open ByoRedis.Basic ByoRedis.Avl ByoRedis.AvlSpec ByoRedis.SortedSet ByoRedis.SortedSetSpec
open ByoRedis.MemberTree ByoRedis.MemberWalk ByoRedis.MemberSearch ByoRedis.ByteBuffer
open ByoRedis.ByteBufferSpec ByoRedis.Proto ByoRedis.Tlv ByoRedis.Database ByoRedis.DatabaseSpec
open ByoRedis.Commands ByoRedis.KeySpace ByoRedis.CommandSpec ByoRedis.MemberCommands
open ByoRedis.Lib.LittleEndian ByoRedis.Lib.Runs ByoRedis.Lib.Trees ByoRedis.Lib.Positions
open ByoRedis.DualIndex (exact_iff_repr tied tied_eq_some)

/-! ### Positions in the tree -/

/-- **Rank and offset** are the arithmetic of positions. -/
theorem rank_and_offset {m : Links Addr} {root : Option Addr} {t : BinaryTree Addr}
    (w : WellFormed m root t) (hlt : t.numNodes < 2 ^ 32) {i : ℕ} {x : Addr}
    (hi : (inorder t)[i]? = some x) :
    (∀ fuel, t.numNodes < fuel → avlRank fuel m x = .ok (i : ℤ)) ∧
      ∀ (k : ℤ) (fuel : ℕ), 2 * t.numNodes ≤ fuel →
        avlOffset fuel m x 0 k = .ok (nth (inorder t) (i + k)) := by
  have hR := (exact_iff_repr hlt).mp w.exact
  refine ⟨fun fuel hf => ?_, fun k fuel hf => avlOffset_spec hR w.nodup hlt hi hf k⟩
  rw [avlRank_spec hR w.nodup hi hf, lost_eq_zero hlt]
  simp

/-! ### The set of a key -/

/-- The members of the set under a key: a missing key has none. -/
inductive Members (σ : Store) (key : Bytes) : (Bytes → Option Score) → Prop
  | missing (h : σ key = none) : Members σ key fun _ => none
  | zset {m : Bytes → Option Score} {expiry : Option ℕ} (h : σ key = some ⟨.zset m, expiry⟩) :
    Members σ key m

lemma Members.expectZset {g : GlobalData} {σ : Store} (hg : Good g σ) {key : Bytes}
    {m : Bytes → Option Score} (hm : Members σ key m) :
    ∃ db ref z t, Commands.expectZset g key = .ok ({ g with db := db }, some ref) ∧
      Good { g with db := db } σ ∧ Wf z t ∧ Holds z m ∧ Found { g with db := db } σ key ref z m ∧
      readZset { g with db := db } ref = .ok z := by
  obtain ⟨db, r, he, hg', hr⟩ := expectZset_spec hg key
  cases r with
  | none =>
    obtain ⟨s, expiry, hs⟩ := hr
    cases hm with
    | missing h => simp [h] at hs
    | zset h => simp [h] at hs
  | some ref =>
    obtain ⟨z, t, m', w, hz, hf, hread⟩ := hr
    suffices h : m' = m by
      subst h
      exact ⟨db, ref, z, t, he, hg', w, hz, hf, hread⟩
    cases hf with
    | empty hs =>
      cases hm with
      | missing => rfl
      | zset h => simp [h] at hs
    | entry hat ht hd hs =>
      cases hm with
      | missing h => simp [h] at hs
      | zset h =>
        rw [h, Option.some.injEq] at hs
        exact (Content.zset.inj (Item.mk.inj hs).1).symm

lemma member_at {z : ZSet} {t : BinaryTree Addr} (w : Wf z t) {m : Bytes → Option Score}
    (hz : Holds z m) {members : List (Score × Bytes)} (hl : Lists m members) :
    members = (inorder t).map (memberOf z) ∧ members.length = t.numNodes := by
  have h := hl.unique (Wf.lists w hz)
  exact ⟨h, by rw [h, List.length_map, inorder_length]⟩

/-! ### `zrank` -/

/-- **`zrank`** answers the number of members before the named one. -/
theorem doZrank_rank {g : GlobalData} {σ : Store} (hg : Good g σ) {cmd : List Bytes}
    {m : Bytes → Option Score} (hm : Members σ (arg cmd 1) m) {members : List (Score × Bytes)}
    (hl : Lists m members) (hlt : members.length < 2 ^ 32) {s : Score}
    (hs : m (arg cmd 2) = some s) :
    Does (doZrank g cmd) fun v σ' =>
      v = .int (preceding members s (arg cmd 2)) ∧ σ' = σ := by
  obtain ⟨db, ref, z, t, he, hg', w, hz, hf, hread⟩ := hm.expectZset hg
  obtain ⟨h, found, hlook, w', hfound⟩ := zsetLookup_spec w (arg cmd 2)
  have hz' : Holds { z with hmap := h } m := hz
  obtain ⟨g₁, hwrite, hg₁⟩ := hf.write_same hg' w' hz'
  obtain ⟨hmem, hlen⟩ := member_at w' hz' hl
  cases found with
  | none =>
    rw [(hz'.none_iff _).mpr hfound] at hs
    simp at hs
  | some a =>
    obtain ⟨d, hd, hname⟩ := hfound
    -- the member is at the position that counts those before it
    have hpos := hl.exact hs rfl
    rw [hmem, List.getElem?_map, Option.map_eq_some_iff, ← hmem] at hpos
    obtain ⟨b, hb, hp⟩ := hpos
    obtain ⟨e, he'⟩ := w'.allocated b (List.mem_of_getElem? hb)
    rw [memberOf_eq he', Prod.mk.injEq] at hp
    obtain rfl : b = a := w'.names b a e d he' hd (hp.2.trans hname.symm)
    have hrank := avlRank_position w' hb
    rw [lost_eq_zero (by omega), Nat.cast_zero, Int.mul_zero, Int.sub_zero] at hrank
    exact .of_eq (fun buf => by simp [doZrank, he, hread, hlook, hwrite, hrank])
      (fun hb => shows_outInt hb _) hg₁ ⟨rfl, rfl⟩

/-- **Index arithmetic**: ranks and offsets in a tree, and the rank of a member. -/
theorem index_arithmetic :
    (∀ (m : Links Addr) (root : Option Addr) (t : BinaryTree Addr) (i : ℕ) (x : Addr),
      WellFormed m root t → t.numNodes < 2 ^ 32 → (inorder t)[i]? = some x →
      (∀ fuel, t.numNodes < fuel → avlRank fuel m x = .ok (i : ℤ)) ∧
        ∀ (k : ℤ) (fuel : ℕ), 2 * t.numNodes ≤ fuel →
          avlOffset fuel m x 0 k = .ok (nth (inorder t) (i + k))) ∧
    ∀ (g : GlobalData) (σ : Store) (cmd : List Bytes) (m : Bytes → Option Score)
      (members : List (Score × Bytes)) (s : Score), Good g σ → Members σ (arg cmd 1) m →
      Lists m members → members.length < 2 ^ 32 → m (arg cmd 2) = some s →
      Does (doZrank g cmd) fun v σ' => v = .int (preceding members s (arg cmd 2)) ∧ σ' = σ :=
  ⟨fun _ _ _ _ _ w hlt hi => rank_and_offset w hlt hi,
    fun _ _ _ _ _ _ hg hm hl hlt hs => doZrank_rank hg hm hl hlt hs⟩

def single : Bytes → Option Score := Function.update (fun _ => none) [97] (some ⟨0, notNan_zero⟩)

lemma single_lists : Lists single [(⟨0, rfl⟩, [97])] := by
  refine ⟨List.pairwise_singleton _ _, fun s n => ?_⟩
  rw [List.mem_singleton, Prod.mk.injEq, single]
  by_cases hn : n = [97]
  · subst hn
    rw [Function.update_self, Option.some.injEq]
    simp [eq_comm]
  · rw [Function.update_of_ne hn]
    simp [hn]

/-- A parser of numbers that reads any text as zero. -/
def allZero (s : Bytes) : UInt64 × ℕ := (0, s.length)

/-- The store with a set of one member under the key `z`. -/
def oneSet : Store := put (fun _ => none) [122] (.zset single) none

lemma oneSet_members : Members oneSet [122] single := by
  have h : oneSet [122] = some ⟨.zset single, none⟩ := by
    rw [oneSet, put]
    exact Function.update_self ..
  exact .zset h

/-- A database with one set of one member, made by `zadd`. -/
lemma exists_oneSet : ∃ g b, doZadd allZero {} [str "zadd", [122], [48], [97]] {} = .ok (g, b) ∧
    Good g oneSet := by
  have hscore : str2dbl allZero (arg [str "zadd", [122], [48], [97]] 2) = some ⟨0, rfl⟩ := rfl
  obtain ⟨g, v, σ, hg, hr, -, hb⟩ := doZadd_spec good_empty 0 hscore
  obtain ⟨-, rfl⟩ : _ ∧ σ = _ := hr
  obtain ⟨b, he, -⟩ := hb _ _ _ shows_empty
  exact ⟨g, b, he, hg⟩

/-- Adding to a set that is there. -/
lemma zadd_again {g : GlobalData} {m : Bytes → Option Score}
    (hg : Good g (put (fun _ => none) [122] (.zset m) none)) (name : Bytes) :
    ∃ g', Good g' (put (fun _ => none) [122]
      (.zset (Function.update m name (some ⟨0, rfl⟩))) none) := by
  have hscore : str2dbl allZero (arg [str "zadd", [122], [48], name] 2) = some ⟨0, rfl⟩ := rfl
  obtain ⟨g', v, σ, hg', hr, -⟩ := doZadd_spec hg 0 hscore
  simp only [Reference, arg, put, List.getD_cons_succ, List.getD_cons_zero,
    Function.update_self, Function.update_idem] at hr
  rw [hr.2] at hg'
  exact ⟨g', hg'⟩

/-- The store with three members of equal scores under the key `z`. -/
def tiedSet : Store := put (fun _ => none) [122] (.zset tied) none

lemma tiedSet_members : Members tiedSet [122] tied := by
  have h : tiedSet [122] = some ⟨.zset tied, none⟩ := by
    rw [tiedSet, put]
    exact Function.update_self ..
  exact .zset h

lemma exists_tiedSet : ∃ g, Good g tiedSet := by
  have hscore : str2dbl allZero (arg [str "zadd", [122], [48], [98]] 2) = some ⟨0, rfl⟩ := rfl
  obtain ⟨g₁, v, σ, hg₁, hr, -⟩ := doZadd_spec good_empty 0 hscore
  obtain ⟨-, rfl⟩ : _ ∧ σ = _ := hr
  obtain ⟨g₂, hg₂⟩ := zadd_again hg₁ [97]
  exact zadd_again hg₂ [99]

def tiedMembers : List (Score × Bytes) :=
  [[97], [98], [99]].map fun name => (⟨0, notNan_zero⟩, name)

lemma tied_lists : Lists tied tiedMembers := by
  refine ⟨by decide, fun s n => ⟨fun h => ?_, fun h => ?_⟩⟩
  · simp only [tiedMembers, List.map_cons, List.map_nil, List.mem_cons, Prod.mk.injEq,
      List.not_mem_nil, or_false] at h
    rcases h with ⟨rfl, rfl⟩ | ⟨rfl, rfl⟩ | ⟨rfl, rfl⟩ <;> rfl
  · obtain ⟨rfl, rfl | rfl | rfl⟩ := tied_eq_some h <;> decide

/-- The last of three nodes, and the rank of the second of three members. -/
theorem index_arithmetic_tied :
    (avlRank 4 threeNodes 2 = .ok 2 ∧ avlOffset 6 threeNodes 2 0 (-2) = .ok (some 0)) ∧
    ∃ g, Good g tiedSet ∧ Does (doZrank g [str "zrank", [122], [98]]) fun v σ' =>
      v = .int 1 ∧ σ' = tiedSet := by
  obtain ⟨g, hg⟩ := exists_tiedSet
  have h := index_arithmetic.1 _ _ _ 2 2 wellFormed_threeNodes (by decide) rfl
  refine ⟨⟨h.1 4 (by decide), h.2 (-2) 6 (by decide)⟩, g, hg, ?_⟩
  exact index_arithmetic.2 g _ [str "zrank", [122], [98]] tied _ ⟨0, rfl⟩ hg tiedSet_members
    tied_lists (by decide) rfl

/-! ### `zquery` -/

/-- The members from `offset` positions after the `i`-th one on, `limit` of them at most. -/
def slice (members : List (Score × Bytes)) (i : ℕ) (offset limit : ℤ) : List (Score × Bytes) :=
  if limit ≤ 0 ∨ i = members.length ∨ ¬ (0 ≤ i + offset ∧ i + offset < members.length) then []
  else (members.drop (i + offset).toNat).take (min limit (members.length - (i + offset))).toNat

/-- What the search, the offset and the loop of `do_zquery` come to. -/
lemma slice_eq (members : List (Score × Bytes)) {i : ℕ} (hi : i ≤ members.length)
    (offset : ℤ) {limit : ℤ} (hlimit : 0 < limit) :
    (i < members.length ∧ 0 ≤ i + offset ∧
      slice members i offset limit = (members.drop (i + offset).toNat).take limit.toNat) ∨
      (¬ (i < members.length ∧ 0 ≤ i + offset) ∧ slice members i offset limit = []) := by
  by_cases h : i < members.length ∧ 0 ≤ i + offset
  · refine .inl ⟨h.1, h.2, ?_⟩
    by_cases hin : i + offset < members.length
    · rw [slice, if_neg (by omega)]
      have hlen : (members.drop (i + offset).toNat).length = members.length - (i + offset).toNat :=
        List.length_drop
      rcases le_total limit (members.length - (i + offset)) with hle | hle
      · rw [min_eq_left hle]
      · rw [min_eq_right hle, List.take_of_length_le (by omega), List.take_of_length_le (by omega)]
    · rw [slice, if_pos (by omega), List.drop_eq_nil_of_le (by omega), List.take_nil]
  · exact .inr ⟨h, by rw [slice, if_pos (by omega)]⟩

/-- A slice starts at this node, or at none where it is empty. -/
def Starts (t : BinaryTree Addr) (members : List (Score × Bytes)) (i : ℕ) (offset limit : ℤ)
    (start : Option Addr) : Prop :=
  start = none ∧ slice members i offset limit = [] ∨ ∃ j : ℕ, start = (inorder t)[j]? ∧
    slice members i offset limit = (members.drop j).take limit.toNat

lemma Starts.mem {t : BinaryTree Addr} {members : List (Score × Bytes)} {i : ℕ} {offset limit : ℤ}
    {start : Option Addr} (h : Starts t members i offset limit start) {a : Addr}
    (ha : start = some a) : a ∈ inorder t := by
  subst ha
  rcases h with ⟨hnone, -⟩ | ⟨j, hj, -⟩
  · cases hnone
  · exact List.mem_of_getElem? hj.symm

/-- The node that the loop of `zquery` starts from. -/
lemma znodeOffset_starts {z : ZSet} {t : BinaryTree Addr} (w : Wf z t)
    {members : List (Score × Bytes)} (hlen : members.length = t.numNodes)
    (hlt : members.length < 2 ^ 31) {i : ℕ} (hi : i ≤ members.length) (offset : ℤ) {limit : ℤ}
    (hlimit : 0 < limit) : ∃ start, znodeOffset z (inorder t)[i]? offset = .ok start ∧
      Starts t members i offset limit start := by
  have hat : i < members.length →
      znodeOffset z (inorder t)[i]? offset = .ok (nth (inorder t) (i + offset)) := by
    intro hin
    have hi' : i < (inorder t).length := by rwa [inorder_length, ← hlen]
    have hle := w.toShape.numNodes_le
    rw [List.getElem?_eq_getElem hi', znodeOffset]
    exact avlOffset_spec w.repr w.nodup (by omega) (List.getElem?_eq_getElem hi')
      (by unfold ZSet.rounds; omega) offset
  rcases slice_eq members hi offset hlimit with ⟨hin, h0, hs⟩ | ⟨hout, hs⟩
  · refine ⟨_, hat hin, .inr ⟨(i + offset).toNat, ?_, hs⟩⟩
    rw [← nth_natCast, Int.toNat_of_nonneg h0]
  · by_cases hin : i < members.length
    · refine ⟨_, hat hin, .inl ⟨nth_eq_none (.inl ?_), hs⟩⟩
      omega
    · rw [List.getElem?_eq_none (by rw [inorder_length]; omega)]
      exact ⟨none, rfl, .inl ⟨rfl, hs⟩⟩

/-- **`zquery`** answers a slice of the ordered members. -/
theorem doZquery_slice (strtod : Bytes → UInt64 × ℕ) {g : GlobalData} {σ : Store} (hg : Good g σ)
    {cmd : List Bytes} {score : Score} {offset limit : ℤ}
    (hscore : str2dbl strtod (arg cmd 2) = some score) (hoffset : str2int (arg cmd 4) = some offset)
    (hlimit : str2int (arg cmd 5) = some limit) {m : Bytes → Option Score}
    (hm : Members σ (arg cmd 1) m) {members : List (Score × Bytes)} (hl : Lists m members)
    (hlt : members.length < 2 ^ 31) :
    Does (doZquery strtod g cmd) fun v σ' =>
      v = .arr (pairValues
        (slice members (preceding members score (arg cmd 3)) offset limit)) ∧ σ' = σ := by
  obtain ⟨db, ref, z, t, he, hg', w, hz, hf, hread⟩ := hm.expectZset hg
  obtain ⟨hmem, hlen⟩ := member_at w hz hl
  by_cases hpos : limit ≤ 0
  · refine .of_eq (fun b => by simp [doZquery, hscore, hoffset, hlimit, he, hpos])
      (fun h => shows_outArr h 0) (v := .arr []) hg' ⟨?_, rfl⟩
    rw [slice, if_pos (.inl hpos)]
    rfl
  have hseek := zsetSeekge_position w hz hl score (arg cmd 3)
  obtain ⟨i, hi⟩ : ∃ i, i = preceding members score (arg cmd 3) := ⟨_, rfl⟩
  rw [← hi] at hseek ⊢
  have hile : i ≤ members.length := by
    rw [hi]
    exact List.countP_le_length
  obtain ⟨start, hoff, hstart⟩ := znodeOffset_starts w hlen hlt hile offset (by omega : 0 < limit)
  obtain ⟨ps, hloop, hps⟩ := zqueryLoop_spec w limit.toNat (fun a => hstart.mem) 0
  have hslice : ps = slice members i offset limit := by
    rcases hstart with ⟨rfl, hs⟩ | ⟨j, hj, hs⟩
    · rw [hs, hps (by omega) (inorder t).length (List.getElem?_eq_none (Nat.le_refl _)).symm,
        List.drop_eq_nil_of_le (by rw [List.length_map]), List.take_nil]
    · rw [hs, hmem, hps (by omega) j hj]
  subst hslice
  refine ⟨_, _, σ, hg', ⟨rfl, rfl⟩, depth_pairValues _, fun b u hs hb => ?_⟩
  obtain ⟨b₁, hb₁, hs₁⟩ := hloop _ _ _ (shows_outBeginArr hb)
  obtain ⟨b₂, hb₂, hs₂⟩ :=
    shows_outEndArr hs₁ ((slice members i offset limit).length * 2)
  refine ⟨b₂, ?_, ?_⟩
  · rw [Nat.zero_add] at hb₁
    simp only [doZquery, hscore, hoffset, hlimit, he, ok_bind, if_neg hpos, hread, hseek, hoff, hb₁,
      hb₂, pure_eq_ok]
  · rw [enc_arr, pairValues_length, ← List.append_assoc]
    exact hs₂

def queryBefore : List Bytes := [str "zquery", [122], [48], [97, 97], [45, 49], [50]]

/-- From the member before the first one that is not less than `aa`, two of three members. -/
theorem doZquery_slice_tied : ∃ g, Good g tiedSet ∧ Does (doZquery allZero g queryBefore)
    fun v σ' => v = .arr [.str [97], .dbl 0, .str [98], .dbl 0] ∧ σ' = tiedSet := by
  obtain ⟨g, hg⟩ := exists_tiedSet
  have hscore : str2dbl allZero (arg queryBefore 2) = some ⟨0, rfl⟩ := rfl
  have hoffset : str2int (arg queryBefore 4) = some (-1) := by decide
  have hlimit : str2int (arg queryBefore 5) = some 2 := by decide
  have hslice : slice tiedMembers (preceding tiedMembers ⟨0, rfl⟩ (arg queryBefore 3)) (-1) 2 =
    [(⟨0, rfl⟩, [97]), (⟨0, rfl⟩, [98])] := by decide
  have h := doZquery_slice allZero hg hscore hoffset hlimit tiedSet_members tied_lists (by decide)
  rw [hslice] at h
  exact ⟨g, hg, h⟩

/-! ### `zcount` -/

/-- The number of members from one pair on and before another. -/
def within (members : List (Score × Bytes)) (lo : Score) (name₁ : Bytes) (hi : Score)
    (name₂ : Bytes) : ℕ :=
  members.countP fun p => ¬ Precedes p.1 p.2 lo name₁ ∧ Precedes p.1 p.2 hi name₂

lemma within_eq (members : List (Score × Bytes)) (lo : Score) (name₁ : Bytes) (hi : Score)
    (name₂ : Bytes) : within members lo name₁ hi name₂ =
      preceding members hi name₂ - preceding members lo name₁ := by
  have hand : within members lo name₁ hi name₂ = members.countP fun p =>
      !decide (Precedes p.1 p.2 lo name₁) && decide (Precedes p.1 p.2 hi name₂) := by
    refine List.countP_congr fun p _ => ?_
    simp
  by_cases hle : Precedes hi name₂ lo name₁
  · -- the range is empty
    have hsub : ∀ p : Score × Bytes, Precedes p.1 p.2 hi name₂ → Precedes p.1 p.2 lo name₁ :=
      fun p h => h.trans hle
    have hzero : within members lo name₁ hi name₂ = 0 := by
      rw [within, List.countP_eq_zero]
      intro p _ h
      obtain ⟨h1, h2⟩ := of_decide_eq_true h
      exact h1 (hsub p h2)
    have hmono : preceding members hi name₂ ≤ preceding members lo name₁ := by
      refine List.countP_mono_left fun p _ h => ?_
      exact decide_eq_true (hsub p (of_decide_eq_true h))
    omega
  · rw [hand, preceding, preceding, countP_between]
    intro p _ h
    refine decide_eq_true ?_
    have h := of_decide_eq_true h
    rcases precedes_trichotomy lo name₁ hi name₂ with h' | ⟨h1, h2⟩ | h'
    · exact h.trans h'
    · rw [Precedes, ← h1, ← h2]
      exact h
    · exact absurd h' hle

/-- The value `do_zcount` writes, from the positions of its two searches. -/
def countOf (t : BinaryTree Addr) (n₁ n₂ : ℕ) : ℤ :=
  if n₁ < t.numNodes ∧ n₂ < t.numNodes then
    max 0 ((n₂ - 2 ^ 32 * lost t n₂) - (n₁ - 2 ^ 32 * lost t n₁))
  else 0

lemma doZcount_value (strtod : Bytes → UInt64 × ℕ) {g : GlobalData} {σ : Store} (hg : Good g σ)
    {cmd : List Bytes} {lo hi : Score} (hlo : str2dbl strtod (arg cmd 2) = some lo)
    (hhi : str2dbl strtod (arg cmd 4) = some hi) {m : Bytes → Option Score}
    (hm : Members σ (arg cmd 1) m) {members : List (Score × Bytes)} (hl : Lists m members)
    {g₁ : GlobalData} {ref : ZSetRef} {z : ZSet} {t : BinaryTree Addr}
    (hset : expectZset g (arg cmd 1) = .ok (g₁, some ref)) (hread : readZset g₁ ref = .ok z)
    (w : Wf z t) :
    Good g₁ σ ∧ members.length = t.numNodes ∧ ∀ b, doZcount strtod g cmd b = .ok (g₁, outInt b
      (countOf t (preceding members lo (arg cmd 3)) (preceding members hi (arg cmd 5)))) := by
  obtain ⟨db, ref', z', t', he, hg', -, hz, -, hread'⟩ := hm.expectZset hg
  obtain ⟨rfl, rfl⟩ : { g with db := db } = g₁ ∧ ref' = ref := by
    simpa using he.symm.trans hset
  obtain rfl : z' = z := Except.ok.inj (hread'.symm.trans hread)
  obtain ⟨hmem, hlen⟩ := member_at w hz hl
  refine ⟨hg', hlen, fun b => ?_⟩
  have hs₁ := zsetSeekge_position w hz hl lo (arg cmd 3)
  have hs₂ := zsetSeekge_position w hz hl hi (arg cmd 5)
  generalize preceding members lo (arg cmd 3) = n₁ at hs₁ ⊢
  generalize preceding members hi (arg cmd 5) = n₂ at hs₂ ⊢
  rw [← inorder_length] at hlen
  cases h₁ : (inorder t)[n₁]? with
  | none =>
    have hge := List.getElem?_eq_none_iff.mp h₁
    rw [inorder_length] at hge
    rw [countOf, if_neg fun h => Nat.not_lt_of_le hge h.1]
    simp [doZcount, hlo, hhi, he, hread, hs₁, hs₂, h₁]
  | some a₁ =>
    cases h₂ : (inorder t)[n₂]? with
    | none =>
      have hge := List.getElem?_eq_none_iff.mp h₂
      rw [inorder_length] at hge
      rw [countOf, if_neg fun h => Nat.not_lt_of_le hge h.2]
      simp [doZcount, hlo, hhi, he, hread, hs₁, hs₂, h₁, h₂]
    | some a₂ =>
      have hlt₁ := (List.getElem?_eq_some_iff.mp h₁).1
      have hlt₂ := (List.getElem?_eq_some_iff.mp h₂).1
      rw [inorder_length] at hlt₁ hlt₂
      rw [h₁] at hs₁
      rw [h₂] at hs₂
      have hclip : ∀ k : ℤ, (if k < 0 then 0 else k) = max 0 k := fun k => by
        split_ifs <;> omega
      rw [countOf, if_pos ⟨hlt₁, hlt₂⟩]
      simp only [doZcount, hlo, hhi, he, hread, hs₁, hs₂, ok_bind, avlRank_position w h₁,
        avlRank_position w h₂, hclip, pure_eq_ok]

/-- What the sizes lose leaves the number of positions between two as it is. -/
def SameLoss (t : BinaryTree Addr) (n₁ n₂ : ℕ) : Prop :=
  if n₁ < n₂ then lost t n₁ = lost t n₂
  else n₂ + 2 ^ 32 * lost t n₁ ≤ n₁ + 2 ^ 32 * lost t n₂

lemma countOf_eq_iff {t : BinaryTree Addr} {n₁ n₂ : ℕ} (h₁ : n₁ ≤ t.numNodes)
    (h₂ : n₂ ≤ t.numNodes) : countOf t n₁ n₂ = (n₂ - n₁ : ℕ) ↔
      n₁ = t.numNodes ∨ n₂ ≠ t.numNodes ∧ SameLoss t n₁ n₂ := by
  unfold countOf SameLoss
  split_ifs <;> omega

lemma countOf_bounds {t : BinaryTree Addr} {n₁ n₂ : ℕ} :
    0 ≤ countOf t n₁ n₂ ∧ countOf t n₁ n₂ ≤ t.numNodes := by
  unfold countOf
  split_ifs with h
  · have := lost_le h.1
    omega
  · omega

lemma i64Bytes_injective {k k' : ℤ} (h : i64Bytes k = i64Bytes k') (h0 : 0 ≤ k) (h1 : k < 2 ^ 63)
    (h0' : 0 ≤ k') (h1' : k' < 2 ^ 63) : k = k' := by
  have hval : ∀ x : ℤ, 0 ≤ x → x < 2 ^ 63 → ofLeBytes (i64Bytes x) = x.toNat := by
    intro x hx hx'
    rw [i64Bytes, ofLeBytes_leBytes]
    omega
  have := congrArg ofLeBytes h
  rw [hval k h0 h1, hval k' h0' h1'] at this
  omega

lemma Does.int_bytes {act : Buffer → Eff (GlobalData × Buffer)} {g : GlobalData} {σ : Store}
    {k k' : ℤ} (hact : ∀ b, act b = .ok (g, outInt b k'))
    (h : Does act fun v σ' => v = .int k ∧ σ' = σ) : i64Bytes k = i64Bytes k' := by
  obtain ⟨g', v, σ', -, ⟨rfl, -⟩, -, hb⟩ := h
  obtain ⟨b', he, hs⟩ := hb _ _ _ shows_empty
  obtain ⟨-, rfl⟩ := Prod.mk.inj (Except.ok.inj ((hact {}).symm.trans he))
  have henc := hs.unread.symm.trans (shows_outInt shows_empty k').unread
  simpa [enc] using henc

/-- **`zcount`** answers the number of members in a range exactly where none is at or after its
lower end, or some one is at or after its upper end and the sizes lose as much on both ways. -/
theorem doZcount_iff (strtod : Bytes → UInt64 × ℕ) {g : GlobalData} {σ : Store} (hg : Good g σ)
    {cmd : List Bytes} {lo hi : Score} (hlo : str2dbl strtod (arg cmd 2) = some lo)
    (hhi : str2dbl strtod (arg cmd 4) = some hi) {m : Bytes → Option Score}
    (hm : Members σ (arg cmd 1) m) {members : List (Score × Bytes)} (hl : Lists m members)
    (hfit : members.length < 2 ^ 63) {g₁ : GlobalData} {ref : ZSetRef} {z : ZSet}
    {t : BinaryTree Addr} (hset : expectZset g (arg cmd 1) = .ok (g₁, some ref))
    (hread : readZset g₁ ref = .ok z) (w : Wf z t) :
    Does (doZcount strtod g cmd) (fun v σ' =>
        v = .int (within members lo (arg cmd 3) hi (arg cmd 5)) ∧ σ' = σ) ↔
      (∀ p ∈ members, Precedes p.1 p.2 lo (arg cmd 3)) ∨
        (∃ p ∈ members, ¬ Precedes p.1 p.2 hi (arg cmd 5)) ∧
          SameLoss t (preceding members lo (arg cmd 3)) (preceding members hi (arg cmd 5)) := by
  obtain ⟨hg₁, hlen, hact⟩ := doZcount_value strtod hg hlo hhi hm hl hset hread w
  have hall : ∀ {score name}, (∀ p ∈ members, Precedes p.1 p.2 score name) ↔
      preceding members score name = t.numNodes := by
    intro score name
    rw [← hlen, preceding, List.countP_eq_length]
    simp only [decide_eq_true_eq]
  have hle : ∀ {score name}, preceding members score name ≤ t.numNodes := by
    intro score name
    rw [← hlen]
    exact List.countP_le_length
  have hsome : (∃ p ∈ members, ¬ Precedes p.1 p.2 hi (arg cmd 5)) ↔
      preceding members hi (arg cmd 5) ≠ t.numNodes := by
    rw [Ne, ← hall]
    push Not
    rfl
  rw [hsome, hall, ← countOf_eq_iff hle hle, ← within_eq]
  have hbounds := @countOf_bounds t (preceding members lo (arg cmd 3))
    (preceding members hi (arg cmd 5))
  constructor
  · intro h
    refine (i64Bytes_injective (Does.int_bytes hact h) (by omega) ?_ hbounds.1 (by omega)).symm
    have := within_eq members lo (arg cmd 3) hi (arg cmd 5)
    have : preceding members hi (arg cmd 5) ≤ t.numNodes := hle
    omega
  · intro h
    rw [h] at hact
    exact .of_eq hact (fun hb => shows_outInt hb _) hg₁ ⟨rfl, rfl⟩

def countBelow : List Bytes := [str "zcount", [122], [48], [], [48], [98]]

lemma countBelow_lo : str2dbl allZero (arg countBelow 2) = some ⟨0, rfl⟩ := rfl

lemma countBelow_hi : str2dbl allZero (arg countBelow 4) = some ⟨0, rfl⟩ := rfl

/-- The one member is in a range beyond it: both sides fail. -/
theorem doZcount_iff_single : ∃ g g₁ ref z t, Good g oneSet ∧
    expectZset g [122] = .ok (g₁, some ref) ∧ readZset g₁ ref = .ok z ∧ Wf z t ∧
    (Does (doZcount allZero g countBelow) (fun v σ' =>
        v = .int (within [(⟨0, rfl⟩, [97])] ⟨0, rfl⟩ [] ⟨0, rfl⟩ [98]) ∧ σ' = oneSet) ↔
      (∀ p ∈ [((⟨0, rfl⟩, [97]) : Score × Bytes)], Precedes p.1 p.2 ⟨0, rfl⟩ []) ∨
        (∃ p ∈ [((⟨0, rfl⟩, [97]) : Score × Bytes)], ¬ Precedes p.1 p.2 ⟨0, rfl⟩ [98]) ∧
          SameLoss t (preceding [(⟨0, rfl⟩, [97])] ⟨0, rfl⟩ [])
            (preceding [(⟨0, rfl⟩, [97])] ⟨0, rfl⟩ [98])) := by
  obtain ⟨g, -, -, hg⟩ := exists_oneSet
  obtain ⟨db, ref, z, t, hset, -, w, -, -, hread⟩ := oneSet_members.expectZset hg
  exact ⟨g, _, ref, z, t, hg, hset, hread, w, doZcount_iff allZero hg countBelow_lo countBelow_hi
    oneSet_members single_lists (by decide) hset hread w⟩

/-- After `zadd z 0 a`, one member is in the range up to `b`, and 0 is answered. -/
theorem doZcount_misses_last :
    within [(⟨0, rfl⟩, [97])] ⟨0, rfl⟩ [] ⟨0, rfl⟩ [98] = 1 ∧
    ∃ g b, doZadd allZero {} [str "zadd", [122], [48], [97]] {} = .ok (g, b) ∧ Good g oneSet ∧
      ¬ Does (doZcount allZero g countBelow) fun v σ' =>
        v = .int (within [(⟨0, rfl⟩, [97])] ⟨0, rfl⟩ [] ⟨0, rfl⟩ [98]) ∧ σ' = oneSet := by
  have hin : within [(⟨0, rfl⟩, [97])] ⟨0, rfl⟩ [] ⟨0, rfl⟩ [98] = 1 := by decide
  obtain ⟨g, b, he, hg⟩ := exists_oneSet
  refine ⟨hin, g, b, he, hg, fun h => ?_⟩
  obtain ⟨db, ref, z, t, hset, -, w, -, -, hread⟩ := oneSet_members.expectZset hg
  obtain ⟨-, hlen, hact⟩ := doZcount_value allZero hg countBelow_lo countBelow_hi oneSet_members
    single_lists hset hread w
  -- no member is at or after the upper end
  have hzero : countOf t (preceding [(⟨0, rfl⟩, [97])] ⟨0, rfl⟩ (arg countBelow 3))
      (preceding [(⟨0, rfl⟩, [97])] ⟨0, rfl⟩ (arg countBelow 5)) = 0 := by
    have hlast : preceding [(⟨0, rfl⟩, [97])] ⟨0, rfl⟩ (arg countBelow 5) = 1 := by decide
    rw [hlast, countOf, if_neg]
    rw [← hlen]
    exact fun h => Nat.lt_irrefl _ h.2
  rw [hzero] at hact
  have hbytes := Does.int_bytes hact h
  rw [hin] at hbytes
  exact absurd hbytes (by decide)

end ByoRedis.RangeCommands
