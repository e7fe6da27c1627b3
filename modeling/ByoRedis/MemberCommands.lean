import ByoRedis.CommandSpec
import ByoRedis.MemberSearch

/-!
What the commands on sorted sets answer, and what they do to the store.

A handler works on the set of an entry, or on the constant empty set where the key is not
there; the searches by name migrate hash nodes of the one, and leave the other alone.
-/

namespace ByoRedis.MemberCommands

open ByoRedis.Basic ByoRedis.HashTable ByoRedis.HashSpec ByoRedis.Avl ByoRedis.AvlTree
open ByoRedis.SortedSet ByoRedis.SortedSetSpec ByoRedis.MemberTree ByoRedis.MemberWalk
open ByoRedis.MemberSearch
open ByoRedis.ByteBuffer ByoRedis.ByteBufferSpec ByoRedis.Proto ByoRedis.Tlv ByoRedis.Database
open ByoRedis.TimerSpec ByoRedis.DatabaseSpec ByoRedis.Commands ByoRedis.KeySpace
open ByoRedis.CommandSpec ByoRedis.Lib.Runs ByoRedis.Lib.Trees ByoRedis.Lib.Positions

/-! ### The set of a key -/

/-- What `expect_zset` found under a key. -/
inductive Found (g : GlobalData) (σ : Store) (key : Bytes) : ZSetRef → ZSet →
    (Bytes → Option Score) → Prop
  | empty (hs : σ key = none) : Found g σ key .empty {} fun _ => none
  | entry {a : Addr} {e : Entry} {m : Bytes → Option Score} {expiry : Option ℕ}
    (hat : At g key a e) (ht : e.type = .zset) (hd : Deadline g.heap a expiry)
    (hs : σ key = some ⟨.zset m, expiry⟩) : Found g σ key (.entry a) e.zset m

/-- **`expect_zset`** finds the set of a key, or a value of another type. -/
theorem expectZset_spec {g : GlobalData} {σ : Store} (hg : Good g σ) (key : Bytes) :
    ∃ db r, expectZset g key = .ok ({ g with db := db }, r) ∧ Good { g with db := db } σ ∧
      match r with
      | none => ∃ s expiry, σ key = some ⟨.str s, expiry⟩
      | some ref => ∃ z t m, Wf z t ∧ Holds z m ∧ Found { g with db := db } σ key ref z m ∧
        readZset { g with db := db } ref = .ok z := by
  obtain ⟨db, r, he, hg', hr⟩ := findEntry_spec hg key
  cases r with
  | none =>
    refine ⟨db, some .empty, by simp [expectZset, he], hg', ?_⟩
    exact ⟨{}, .nil, fun _ => none, wf_empty, holds_empty, .empty hr, rfl⟩
  | some a =>
    obtain ⟨e, hat⟩ := hr
    obtain ⟨c, expiry, hc, hd, hs⟩ := hg'.get hat
    cases hc with
    | str ht =>
      refine ⟨db, none, by simp [expectZset, he, hat.deref, ht], hg', ?_⟩
      exact ⟨e.str, expiry, hs⟩
    | zset ht w hm =>
      refine ⟨db, some (.entry a), by simp [expectZset, he, hat.deref, ht], hg', ?_⟩
      exact ⟨e.zset, _, _, w, hm, .entry hat ht hd hs, by simp [readZset, hat.deref]⟩

lemma write_entry {g : GlobalData} {σ : Store} (hg : Good g σ) {key : Bytes} {a : Addr} {e : Entry}
    (hat : At g key a e) (ht : e.type = .zset) {expiry : Option ℕ} (hd : Deadline g.heap a expiry)
    {z : ZSet} {t : BinaryTree Addr} {m : Bytes → Option Score} (w : Wf z t) (hm : Holds z m) :
    ∃ g', writeZset g (.entry a) z = .ok g' ∧ Good g' (put σ key (.zset m) expiry) := by
  have hnew : Is { e with zset := z } (.zset m) := .zset ht w hm
  exact ⟨_, by simp [writeZset, hat.deref], hg.setEntry hat hnew rfl rfl hd⟩

lemma Found.write_same {g : GlobalData} {σ : Store} (hg : Good g σ) {key : Bytes} {ref : ZSetRef}
    {z z' : ZSet} {m : Bytes → Option Score} (h : Found g σ key ref z m) {t : BinaryTree Addr}
    (w : Wf z' t) (hm : Holds z' m) : ∃ g', writeZset g ref z' = .ok g' ∧ Good g' σ := by
  cases h with
  | empty hs => exact ⟨g, rfl, hg⟩
  | entry hat ht hd hs =>
    obtain ⟨g', he, hg'⟩ := write_entry hg hat ht hd w hm
    rw [put_self hs] at hg'
    exact ⟨g', he, hg'⟩

/-! ### Adding and removing -/

/-- What is told and left when a name gets a score. -/
def Added (σ : Store) (key : Bytes) (m : Bytes → Option Score) (expiry : Option ℕ)
    (name : Bytes) (score : Score) (v : Value) (σ' : Store) : Prop :=
  v = .int (if m name = none then 1 else 0) ∧
    σ' = put σ key (.zset (Function.update m name (some score))) expiry

lemma addTuple_spec {g : GlobalData} {σ : Store} (hg : Good g σ) {key : Bytes} {a : Addr}
    {e : Entry} (hat : At g key a e) (ht : e.type = .zset) {m : Bytes → Option Score}
    {expiry : Option ℕ} (hs : σ key = some ⟨.zset m, expiry⟩) (name : Bytes) (score : Score) :
    Does (addTuple g a name score) (Added σ key m expiry name score) := by
  obtain ⟨c, x, hc, hd, hs'⟩ := hg.get hat
  rw [hs, Option.some.injEq] at hs'
  obtain ⟨rfl, rfl⟩ := Item.mk.inj hs'
  cases hc with
  | zset _ w hm =>
    obtain ⟨z', t', added, hi, ins⟩ := zsetInsert_spec w name score
    have hnew : Is { e with zset := z' } (.zset (Function.update m name (some score))) :=
      .zset ht ins.wf (ins.holds m hm)
    have hcount : (added.toNat : ℤ) = if m name = none then 1 else 0 := by
      have := ins.added_iff.trans (hm.none_iff name).symm
      cases added with
      | false => simp [mt this.mpr]
      | true => simp [this.mp rfl]
    refine .of_eq (fun b => by simp [addTuple, hat.deref, hi])
      (fun h => shows_outInt h (added.toNat : ℤ)) (hg.setEntry hat hnew rfl rfl hd) ?_
    exact ⟨by rw [hcount], rfl⟩

theorem doZadd_spec {strtod : Bytes → UInt64 × ℕ} {g : GlobalData} {σ : Store} (hg : Good g σ)
    (now : ℕ) {cmd : List Bytes} {score : Score}
    (hscore : str2dbl strtod (arg cmd 2) = some score) :
    Does (doZadd strtod g cmd) (Reference now σ (.zadd (arg cmd 1) score (arg cmd 3))) := by
  obtain ⟨db, r, he, hg', hr⟩ := findEntry_spec hg (arg cmd 1)
  cases r with
  | none =>
    obtain ⟨g₁, a, ha, hat, -, hg₁⟩ := addEntry_spec hg' hr .zset []
    have hg₂ := hg₁ _ (.zset rfl wf_empty holds_empty)
    have hadd := addTuple_spec hg₂ hat rfl (Function.update_self ..) (arg cmd 3) score
    refine (hadd.congr fun b => by simp [doZadd, hscore, he, ha]).mono fun v σ' h => ?_
    unfold Added put at h
    rw [Function.update_idem] at h
    simp only [Reference, hr]
    exact h
  | some a =>
    obtain ⟨e, hat⟩ := hr
    obtain ⟨c, expiry, hc, hd, hs⟩ := hg'.get hat
    cases hc with
    | str ht =>
      refine .of_eq (fun b => by simp [doZadd, hscore, he, hat.deref, ht])
        (fun h => shows_outErr h .badTyp "expect zset") hg' ?_
      simp only [Reference, hs, and_true]
    | zset ht w hm =>
      have hadd := addTuple_spec hg' hat ht hs (arg cmd 3) score
      refine (hadd.congr fun b => by simp [doZadd, hscore, he, hat.deref, ht]).mono fun v σ' h => ?_
      simp only [Reference, hs]
      exact h

theorem doZrem_spec {g : GlobalData} {σ : Store} (hg : Good g σ) (now : ℕ) (cmd : List Bytes) :
    Does (doZrem g cmd) (Reference now σ (.zrem (arg cmd 1) (arg cmd 2))) := by
  obtain ⟨db, r, he, hg', hr⟩ := expectZset_spec hg (arg cmd 1)
  cases r with
  | none =>
    obtain ⟨s, expiry, hs⟩ := hr
    refine .of_eq (fun b => by simp [doZrem, he]) (fun h => shows_outErr h .badTyp "expect zset")
      hg' ?_
    simp only [Reference, hs, and_true]
  | some ref =>
    obtain ⟨z, t, m, w, hm, hf, hread⟩ := hr
    obtain ⟨h, found, hl, w', hfound⟩ := zsetLookup_spec w (arg cmd 2)
    have hm' : Holds { z with hmap := h } m := hm
    cases found with
    | none =>
      obtain ⟨g₁, hwrite, hg₁⟩ := hf.write_same hg' w' hm'
      have hno : m (arg cmd 2) = none := (hm'.none_iff _).mpr hfound
      refine .of_eq (fun b => by simp [doZrem, he, hread, hl, hwrite]) (fun h => shows_outInt h 0)
        hg₁ ?_
      cases hf with
      | empty hs => simp only [Reference, hs, and_self]
      | entry hat ht hd hs =>
        have hsame : Function.update m (arg cmd 2) none = m := by
          rw [← hno]
          exact Function.update_eq_self _ m
        simp only [Reference, hs, hno, if_true, hsame, put_self hs, and_self]
    | some a =>
      obtain ⟨d, hd, hname⟩ := hfound
      obtain ⟨z', t', hdel, w₁, -, -, hkeep⟩ := zsetDelete_spec w' hd
      have hsome := hm'.get_eq hd
      have hm₁ := hkeep m hm'
      rw [hname] at hsome hm₁
      cases hf with
      | empty hs => simp at hsome
      | entry hat ht hdl hs =>
        obtain ⟨g₁, hwrite, hg₁⟩ := write_entry hg' hat ht hdl w₁ hm₁
        refine .of_eq (fun b => by simp [doZrem, he, hread, hl, hdel, hwrite])
          (fun h => shows_outInt h 1) hg₁ ?_
        simp [Reference, hs, hsome]

/-! ### Reading -/

theorem doZscore_spec {g : GlobalData} {σ : Store} (hg : Good g σ) (now : ℕ) (cmd : List Bytes) :
    Does (doZscore g cmd) (Reference now σ (.zscore (arg cmd 1) (arg cmd 2))) := by
  obtain ⟨db, r, he, hg', hr⟩ := expectZset_spec hg (arg cmd 1)
  cases r with
  | none =>
    obtain ⟨s, expiry, hs⟩ := hr
    refine .of_eq (fun b => by simp [doZscore, he]) (fun h => shows_outErr h .badTyp "expect zset")
      hg' ?_
    simp only [Reference, hs, true_and]
  | some ref =>
    obtain ⟨z, t, m, w, hm, hf, hread⟩ := hr
    obtain ⟨h, found, hl, w', hfound⟩ := zsetLookup_spec w (arg cmd 2)
    have hm' : Holds { z with hmap := h } m := hm
    obtain ⟨g₁, hwrite, hg₁⟩ := hf.write_same hg' w' hm'
    cases found with
    | none =>
      have hno : m (arg cmd 2) = none := (hm'.none_iff _).mpr hfound
      refine .of_eq (fun b => by simp [doZscore, he, hread, hl, hwrite]) shows_outNil hg₁ ?_
      cases hf with
      | empty hs => simp only [Reference, hs, true_and]
      | entry hat ht hd hs => simp only [Reference, hs, hno, Option.elim_none, true_and]
    | some a =>
      obtain ⟨d, hd, hname⟩ := hfound
      have hsome := hm'.get_eq hd
      rw [hname] at hsome
      refine .of_eq (fun b => by simp [doZscore, he, hread, hl, hwrite, ZSet.deref, hd])
        (fun h => shows_outDbl h d.score.bits) hg₁ ?_
      cases hf with
      | empty hs => simp at hsome
      | entry hat ht hdl hs => simp only [Reference, hs, hsome, Option.elim_some, true_and]

/-- The store is as it was. -/
def Unchanged (σ : Store) (_ : Value) (σ' : Store) : Prop := σ' = σ

lemma wrongType {g : GlobalData} {σ : Store} (hg : Good g σ)
    {act : Buffer → Eff (GlobalData × Buffer)}
    (he : ∀ b, act b = .ok (g, outErr b .badTyp "expect zset")) : Does act (Unchanged σ) :=
  .of_eq he (fun h => shows_outErr h .badTyp "expect zset") hg rfl

theorem doZrank_spec {g : GlobalData} {σ : Store} (hg : Good g σ) (cmd : List Bytes) :
    Does (doZrank g cmd) (Unchanged σ) := by
  obtain ⟨db, r, he, hg', hr⟩ := expectZset_spec hg (arg cmd 1)
  cases r with
  | none => exact wrongType hg' fun b => by simp [doZrank, he]
  | some ref =>
    obtain ⟨z, t, m, w, hm, hf, hread⟩ := hr
    obtain ⟨h, found, hl, w', hfound⟩ := zsetLookup_spec w (arg cmd 2)
    have hm' : Holds { z with hmap := h } m := hm
    obtain ⟨g₁, hwrite, hg₁⟩ := hf.write_same hg' w' hm'
    cases found with
    | none =>
      exact .of_eq (fun b => by simp [doZrank, he, hread, hl, hwrite]) shows_outNil hg₁ rfl
    | some a =>
      obtain ⟨d, hd, -⟩ := hfound
      obtain ⟨k, hk⟩ := avlRank_returns w' (w'.live a d hd).1
      exact .of_eq (fun b => by simp [doZrank, he, hread, hl, hwrite, hk])
        (fun h => shows_outInt h k) hg₁ rfl

theorem doZcount_spec (strtod : Bytes → UInt64 × ℕ) {g : GlobalData} {σ : Store} (hg : Good g σ)
    (cmd : List Bytes) : Does (doZcount strtod g cmd) (Unchanged σ) := by
  have hbad : (∀ b, doZcount strtod g cmd b = .ok (g, outErr b .badArg "expect fp number")) →
      Does (doZcount strtod g cmd) (Unchanged σ) := fun he =>
    .of_eq he (fun h => shows_outErr h .badArg "expect fp number") hg rfl
  cases h1 : str2dbl strtod (arg cmd 2) with
  | none => exact hbad fun b => by simp [doZcount, h1]
  | some score1 =>
    cases h2 : str2dbl strtod (arg cmd 4) with
    | none => exact hbad fun b => by simp [doZcount, h2]
    | some score2 =>
      obtain ⟨db, r, he, hg', hr⟩ := expectZset_spec hg (arg cmd 1)
      cases r with
      | none => exact wrongType hg' fun b => by simp [doZcount, h1, h2, he]
      | some ref =>
        obtain ⟨z, t, m, w, hm, hf, hread⟩ := hr
        have hs1 := zsetSeekge_spec w score1 (arg cmd 3)
        have hs2 := zsetSeekge_spec w score2 (arg cmd 5)
        generalize hn1 : (inorder t).find? _ = znode1 at hs1
        generalize hn2 : (inorder t).find? _ = znode2 at hs2
        cases znode1 with
        | none =>
          exact .of_eq (fun b => by simp [doZcount, h1, h2, he, hread, hs1, hs2])
            (fun h => shows_outInt h 0) hg' rfl
        | some a1 =>
          cases znode2 with
          | none =>
            exact .of_eq (fun b => by simp [doZcount, h1, h2, he, hread, hs1, hs2])
              (fun h => shows_outInt h 0) hg' rfl
          | some a2 =>
            obtain ⟨k1, hk1⟩ := avlRank_returns w (List.mem_of_find?_eq_some hn1)
            obtain ⟨k2, hk2⟩ := avlRank_returns w (List.mem_of_find?_eq_some hn2)
            exact .of_eq
              (fun b => by
                simp only [doZcount, h1, h2, he, hread, hs1, hs2, hk1, hk2, ok_bind]
                rfl)
              (fun h => shows_outInt h (if k2 - k1 < 0 then 0 else k2 - k1)) hg' rfl

/-- A name and a score for every member. -/
def pairValues (members : List (Score × Bytes)) : List Value :=
  members.flatMap fun p => [.str p.2, .dbl p.1.bits]

lemma pairValues_cons (p : Score × Bytes) (members : List (Score × Bytes)) :
    pairValues (p :: members) = .str p.2 :: .dbl p.1.bits :: pairValues members := rfl

lemma pairValues_length (members : List (Score × Bytes)) :
    (pairValues members).length = members.length * 2 := by
  induction members with
  | nil => rfl
  | cons p members ih =>
    rw [pairValues_cons, List.length_cons, List.length_cons, List.length_cons, ih]
    omega

lemma depth_pairValues (members : List (Score × Bytes)) :
    depth (.arr (pairValues members)) ≤ 2 := by
  refine depth_arr_le fun v hv => ?_
  obtain ⟨p, -, hv⟩ := List.mem_flatMap.mp hv
  rcases List.mem_pair.mp hv with rfl | rfl <;> exact le_rfl

/-- The loop of `do_zquery` appends a name and a score for every member it counts: the next ones
in order, where the sizes are not cut. -/
lemma zqueryLoop_spec {z : ZSet} {t : BinaryTree Addr} (w : Wf z t) (left : ℕ)
    {znode : Option Addr} (hn : ∀ a, znode = some a → a ∈ inorder t) (n : ℕ) :
    ∃ ps : List (Score × Bytes), (∀ b u hs, Shows b u hs →
      ∃ b', zqueryLoop z left znode b n = .ok (b', n + ps.length) ∧
        Shows b' (u ++ encAll (pairValues ps)) hs) ∧
      (t.numNodes < 2 ^ 32 → ∀ j : ℕ, znode = (inorder t)[j]? →
        ps = (((inorder t).map (memberOf z)).drop j).take left) := by
  induction left generalizing znode n with
  | zero =>
    refine ⟨[], fun b u hs hb => ⟨b, rfl, ?_⟩, fun _ j _ => rfl⟩
    rwa [pairValues, List.flatMap_nil, encAll_nil, List.append_nil]
  | succ left ih =>
    cases znode with
    | none =>
      refine ⟨[], fun b u hs hb => ⟨b, rfl, ?_⟩, fun _ j hj => ?_⟩
      · rwa [pairValues, List.flatMap_nil, encAll_nil, List.append_nil]
      · have hlen := List.getElem?_eq_none_iff.mp hj.symm
        rw [List.drop_eq_nil_of_le (by rwa [List.length_map]), List.take_nil]
    | some a =>
      have ha := hn a rfl
      obtain ⟨d, hd⟩ := w.allocated a ha
      obtain ⟨r, hr, hmem⟩ := znodeOffset_returns w hn 1
      obtain ⟨ps, hloop, hnext⟩ := ih hmem (n + 1)
      refine ⟨(d.score, d.name) :: ps, fun b u hs hb => ?_, fun hlt j hj => ?_⟩
      · have hb' := shows_outDbl (shows_outStr hb d.name) d.score.bits
        obtain ⟨b', he, hshow⟩ := hloop _ _ _ hb'
        refine ⟨b', ?_, ?_⟩
        · rw [zqueryLoop, ZSet.deref, hd]
          simp only [pure_eq_ok, ok_bind, hr, he]
          congr 2
          rw [List.length_cons]
          omega
        · rw [pairValues_cons, encAll_cons, encAll_cons, ← List.append_assoc, ← List.append_assoc]
          exact hshow
      · -- the successor is at the next position
        have hle := w.toShape.numNodes_le
        have hoff := avlOffset_spec w.repr w.nodup hlt hj.symm
          (by unfold ZSet.rounds; omega : _ ≤ 2 * z.rounds) 1
        rw [znodeOffset, hoff, Except.ok.injEq] at hr
        obtain ⟨hjl, hja⟩ := List.getElem?_eq_some_iff.mp hj.symm
        have hcons : ((inorder t).map (memberOf z)).drop j =
            (d.score, d.name) :: ((inorder t).map (memberOf z)).drop (j + 1) := by
          rw [List.drop_eq_getElem_cons (by rwa [List.length_map]), List.getElem_map, hja,
            memberOf_eq hd]
        rw [hcons, List.take_succ_cons, hnext hlt (j + 1) (by rw [← hr, ← nth_natCast]; rfl)]

theorem doZquery_spec (strtod : Bytes → UInt64 × ℕ) {g : GlobalData} {σ : Store} (hg : Good g σ)
    (cmd : List Bytes) : Does (doZquery strtod g cmd) (Unchanged σ) := by
  have hbad : ∀ msg, (∀ b, doZquery strtod g cmd b = .ok (g, outErr b .badArg msg)) →
      Does (doZquery strtod g cmd) (Unchanged σ) := fun msg he =>
    .of_eq he (fun h => shows_outErr h .badArg msg) hg rfl
  cases h1 : str2dbl strtod (arg cmd 2) with
  | none => exact hbad "expect fp number" fun b => by simp [doZquery, h1]
  | some score =>
    cases h2 : str2int (arg cmd 4) with
    | none => exact hbad "expect int" fun b => by simp [doZquery, h1, h2]
    | some offset =>
      cases h3 : str2int (arg cmd 5) with
      | none => exact hbad "expect int" fun b => by simp [doZquery, h1, h3]
      | some limit =>
        obtain ⟨db, r, he, hg', hr⟩ := expectZset_spec hg (arg cmd 1)
        cases r with
        | none => exact wrongType hg' fun b => by simp [doZquery, h1, h2, h3, he]
        | some ref =>
          obtain ⟨z, t, m, w, hm, hf, hread⟩ := hr
          by_cases hlimit : limit ≤ 0
          · exact .of_eq (fun b => by simp [doZquery, h1, h2, h3, he, hlimit])
              (fun h => shows_outArr h 0) (v := .arr []) hg' rfl
          · have hseek := zsetSeekge_spec w score (arg cmd 3)
            generalize hn : (inorder t).find? _ = znode at hseek
            obtain ⟨r, hoff, hmem⟩ := znodeOffset_returns w
              (fun a ha => List.mem_of_find?_eq_some (hn.trans ha)) offset
            obtain ⟨ps, hloop, -⟩ := zqueryLoop_spec w limit.toNat hmem 0
            refine ⟨_, .arr (pairValues ps), σ, hg', rfl, depth_pairValues ps, fun b u hs hb => ?_⟩
            obtain ⟨b₁, hb₁, hs₁⟩ := hloop _ _ _ (shows_outBeginArr hb)
            obtain ⟨b₂, hb₂, hs₂⟩ := shows_outEndArr hs₁ (ps.length * 2)
            refine ⟨b₂, ?_, ?_⟩
            · rw [Nat.zero_add] at hb₁
              simp only [doZquery, h1, h2, h3, he, ok_bind, if_neg hlimit, hread, hseek, hoff, hb₁,
                hb₂, pure_eq_ok]
            · rw [enc_arr, pairValues_length, ← List.append_assoc]
              exact hs₂

end ByoRedis.MemberCommands
