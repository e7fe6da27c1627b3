import ByoRedis.DatabaseSpec
import ByoRedis.MemberWalk

/-!
What each command answers, and what it does to the store.

A command appends one value to the buffer, whatever the buffer shows, and the database then
stands for the store that the reference gives.
-/

namespace ByoRedis.CommandSpec

open ByoRedis.Basic ByoRedis.HashTable ByoRedis.HashSpec ByoRedis.Heap ByoRedis.SortedSet
open ByoRedis.SortedSetSpec ByoRedis.MemberWalk ByoRedis.ByteBuffer ByoRedis.ByteBufferSpec
open ByoRedis.Proto ByoRedis.Tlv ByoRedis.Database ByoRedis.TimerSpec ByoRedis.DatabaseSpec
open ByoRedis.Commands ByoRedis.KeySpace ByoRedis.Lib.Runs ByoRedis.Lib.Trees

/-- A handler appends a value, the same to any buffer, and leaves a database that stands for a
store. No array is appended in an array. -/
def Does (act : Buffer → Eff (GlobalData × Buffer)) (R : Value → Store → Prop) : Prop :=
  ∃ g' v σ', Good g' σ' ∧ R v σ' ∧ depth v ≤ 2 ∧ ∀ b u hs, Shows b u hs →
    ∃ b', act b = .ok (g', b') ∧ Shows b' (u ++ enc v) hs

variable {act : Buffer → Eff (GlobalData × Buffer)} {R R' : Value → Store → Prop}

lemma Does.of_eq {g' : GlobalData} {v : Value} {σ' : Store} {out : Buffer → Buffer}
    (he : ∀ b, act b = .ok (g', out b))
    (hout : ∀ {b u hs}, Shows b u hs → Shows (out b) (u ++ enc v) hs) (hg' : Good g' σ')
    (hR : R v σ') (hdepth : depth v ≤ 2 := by exact Nat.le_succ 1) : Does act R :=
  ⟨g', v, σ', hg', hR, hdepth, fun b _ _ hb => ⟨out b, he b, hout hb⟩⟩

lemma Does.mono (h : Does act R) (hR : ∀ v σ', R v σ' → R' v σ') : Does act R' := by
  obtain ⟨g', v, σ', hg', hr, hdepth, hb⟩ := h
  exact ⟨g', v, σ', hg', hR v σ' hr, hdepth, hb⟩

lemma Does.congr {act' : Buffer → Eff (GlobalData × Buffer)} (h : Does act' R)
    (he : ∀ b, act b = act' b) : Does act R := by
  rw [funext he]
  exact h

lemma put_self {σ : Store} {key : Bytes} {c : Content} {expiry : Option ℕ}
    (h : σ key = some ⟨c, expiry⟩) : put σ key c expiry = σ := by
  unfold put
  rw [← h]
  exact Function.update_eq_self key σ

/-! ### Strings and keys -/

theorem doGet_spec {g : GlobalData} {σ : Store} (hg : Good g σ) (now : ℕ) (cmd : List Bytes) :
    Does (doGet g cmd) (Reference now σ (.get (arg cmd 1))) := by
  obtain ⟨db, r, he, hg', hr⟩ := findEntry_spec hg (arg cmd 1)
  cases r with
  | none =>
    refine .of_eq (fun b => by simp [doGet, he]) shows_outNil hg' ?_
    simp only [Reference, hr, true_and]
  | some a =>
    obtain ⟨e, hat⟩ := hr
    obtain ⟨c, expiry, hc, -, hs⟩ := hg'.get hat
    by_cases ht : e.type = .str
    · refine .of_eq (fun b => by simp [doGet, he, hat.deref, ht]) (fun h => shows_outStr h e.str)
        hg' ?_
      simp only [Reference, hs, hc.str_eq ht, true_and]
    · refine .of_eq (fun b => by simp [doGet, he, hat.deref, ht])
        (fun h => shows_outErr h .badTyp "not a string value") hg' ?_
      obtain ⟨-, -, m, -, -, rfl⟩ := hc.zset_of_ne ht
      simp only [Reference, hs, true_and]

theorem doSet_spec {g : GlobalData} {σ : Store} (hg : Good g σ) (now : ℕ) (cmd : List Bytes) :
    Does (doSet g cmd) (Reference now σ (.set (arg cmd 1) (arg cmd 2))) := by
  obtain ⟨db, r, he, hg', hr⟩ := findEntry_spec hg (arg cmd 1)
  cases r with
  | none =>
    obtain ⟨g₁, a, ha, -, -, hg₁⟩ := addEntry_spec hg' hr .str (arg cmd 2)
    refine .of_eq (fun b => by simp [doSet, he, ha]) shows_outNil (hg₁ _ (.str rfl)) ?_
    simp only [Reference, hr, true_and]
  | some a =>
    obtain ⟨e, hat⟩ := hr
    obtain ⟨c, expiry, hc, hd, hs⟩ := hg'.get hat
    by_cases ht : e.type = .str
    · have hnew : Is { e with str := arg cmd 2 } (.str (arg cmd 2)) := .str ht
      refine .of_eq (fun b => by simp [doSet, he, hat.deref, ht]) shows_outNil
        (hg'.setEntry hat hnew rfl rfl hd) ?_
      simp only [Reference, hs, hc.str_eq ht, true_and]
    · refine .of_eq (fun b => by simp [doSet, he, hat.deref, ht])
        (fun h => shows_outErr h .badTyp "a non-string value exists") hg' ?_
      obtain ⟨-, -, m, -, -, rfl⟩ := hc.zset_of_ne ht
      simp only [Reference, hs, and_true]

theorem doDel_spec {g : GlobalData} {σ : Store} (hg : Good g σ) (now : ℕ) (clock : Timespec)
    (cmd : List Bytes) : Does (doDel g clock cmd) (Reference now σ (.del (arg cmd 1))) := by
  obtain ⟨db, r, he, w, hr⟩ := hmDelete_spec hg.table (lookupKey (arg cmd 1)) (entryEq g.ents)
  cases r with
  | none =>
    refine .of_eq (fun b => by simp [doDel, he]) (fun h => shows_outInt h 0)
      (hg.rehashed w hr.1) ?_
    have hnone := (hg.none_iff _).mpr (hg.toInv.not_at hr.2)
    simp only [Reference, hnone, true_and]
  | some n =>
    obtain ⟨hp, hm⟩ := hr
    obtain ⟨e, hat⟩ := at_of_matches (hp.mem_iff.mpr List.mem_cons_self) hm
    obtain ⟨g', hdel, hg'⟩ := entryDel_spec hg hat w hp clock
    obtain ⟨c, expiry, -, -, hs⟩ := hg.get hat
    refine .of_eq (fun b => by simp [doDel, he, hdel]) (fun h => shows_outInt h 1) hg' ?_
    simp only [Reference, hs, true_and]

def keyOf (g : GlobalData) (n : HNode Addr) : Bytes := ((g.ents n.ref).map Entry.key).getD []

lemma keyOf_eq {g : GlobalData} {key : Bytes} {n : HNode Addr} {e : Entry} (h : At g key n.ref e) :
    keyOf g n = key := by
  simp [keyOf, h.ent, h.key]

lemma shows_keys {g : GlobalData} {ns : List (HNode Addr)}
    (hns : ∀ n ∈ ns, ∃ e, g.ents n.ref = some e) {b : Buffer} {u : Bytes} {hs : List ℕ}
    (hb : Shows b u hs) :
    Shows (ns.foldl (fun b n => (cbKeys g.ents n b).1) b)
      (u ++ encAll (ns.map fun n => .str (keyOf g n))) hs := by
  induction ns generalizing b u with
  | nil => simpa using hb
  | cons n ns ih =>
    obtain ⟨e, he⟩ := hns n List.mem_cons_self
    have hcb : (cbKeys g.ents n b).1 = outStr b (keyOf g n) := by simp [cbKeys, keyOf, he]
    have := ih (fun k hk => hns k (List.mem_cons_of_mem _ hk)) (shows_outStr hb (keyOf g n))
    rw [List.append_assoc] at this
    rw [List.foldl_cons, hcb]
    exact this

lemma keys_facts {g : GlobalData} {σ : Store} (hg : Good g σ) :
    ((nodes g.db).map (keyOf g)).Nodup ∧
      ∀ k, k ∈ (nodes g.db).map (keyOf g) ↔ σ k ≠ none := by
  have hat : ∀ n ∈ nodes g.db, ∃ e, At g (keyOf g n) n.ref e := by
    intro n hn
    obtain ⟨e, h⟩ := hg.toInv.exists_at (List.mem_map_of_mem hn)
    rw [← keyOf_eq h] at h
    exact ⟨e, h⟩
  constructor
  · refine List.Nodup.map_on (fun n hn k hk heq => ?_) hg.once.of_map
    obtain ⟨e, h⟩ := hat n hn
    obtain ⟨f, h'⟩ := hat k hk
    rw [heq] at h
    exact List.inj_on_of_nodup_map hg.once hn hk (hg.toInv.at_unique h h').1
  · intro k
    constructor
    · intro hk hnone
      obtain ⟨n, hn, rfl⟩ := List.mem_map.mp hk
      obtain ⟨e, h⟩ := hat n hn
      exact (hg.none_iff _).mp hnone _ _ h
    · intro hne
      obtain ⟨item, hi⟩ := Option.ne_none_iff_exists'.mp hne
      obtain ⟨a, e, h, -⟩ := (hg.holds k item).mp hi
      obtain ⟨n, hn, rfl⟩ := List.mem_map.mp h.live
      exact List.mem_map.mpr ⟨n, hn, keyOf_eq h⟩

theorem doKeys_spec {g : GlobalData} {σ : Store} (hg : Good g σ) (now : ℕ) :
    Does (doKeys g) (Reference now σ .keys) := by
  have hcb : Endless (cbKeys g.ents) := by
    intro n buf
    unfold cbKeys
    cases g.ents n.ref <;> rfl
  have hents : ∀ n ∈ nodes g.db, ∃ e, g.ents n.ref = some e := fun n hn => by
    obtain ⟨e, c, he, -⟩ := hg.linked n hn
    exact ⟨e, he⟩
  obtain ⟨hnd, hmem⟩ := keys_facts hg
  have hval : ((nodes g.db).map (keyOf g)).map Value.str =
      (nodes g.db).map fun n => .str (keyOf g n) := by
    rw [List.map_map]
    rfl
  have henc : enc (.arr (((nodes g.db).map (keyOf g)).map .str)) =
      arrHead (hmSize g.db) ++ encAll ((nodes g.db).map fun n => .str (keyOf g n)) := by
    rw [enc_arr, hval, List.length_map, ← hmSize_spec hg.table]
  have hact : ∀ b, doKeys g b = .ok (g, (nodes g.db).foldl (fun b n => (cbKeys g.ents n b).1)
      (outArr b (hmSize g.db))) := by
    intro b
    unfold doKeys
    dsimp only
    rw [hmForeach_spec hcb hg.table]
    rfl
  refine .of_eq hact (fun h => ?_) hg ⟨rfl, _, hnd, hmem, rfl⟩ (depth_arr_le fun w hw => ?_)
  · rw [henc, ← List.append_assoc]
    exact shows_keys hents (shows_outArr h (hmSize g.db))
  · obtain ⟨key, -, rfl⟩ := List.mem_map.mp hw
    exact le_rfl

/-! ### Expiration times -/

/-- What `pexpire` does: the time is kept in 64 bits. -/
def ExpireDone (clock : Timespec) (σ : Store) (key : Bytes) (ttl : ℤ) (v : Value) (σ' : Store) :
    Prop :=
  match σ key with
  | none => v = .int 0 ∧ σ' = σ
  | some ⟨content, _⟩ => v = .int 1 ∧ σ' = put σ key content (expireAt clock ttl)

lemma doExpire_spec {g : GlobalData} {σ : Store} (hg : Good g σ) (clock : Timespec)
    {cmd : List Bytes} {ttl : ℤ} (httl : str2int (arg cmd 2) = some ttl) :
    Does (doExpire g clock cmd) (ExpireDone clock σ (arg cmd 1) ttl) := by
  obtain ⟨db, r, he, hg', hr⟩ := findEntry_spec hg (arg cmd 1)
  cases r with
  | none =>
    refine .of_eq (fun b => by simp [doExpire, httl, he]) (fun h => shows_outInt h 0) hg' ?_
    simp only [ExpireDone, hr, true_and]
  | some a =>
    obtain ⟨e, hat⟩ := hr
    obtain ⟨c, expiry, hc, hd, hs⟩ := hg'.get hat
    obtain ⟨g₁, hset, hg₁⟩ := setTtl_spec hg' hat clock ttl hc
    refine .of_eq (fun b => by simp [doExpire, httl, he, hset]) (fun h => shows_outInt h 1) hg₁ ?_
    simp only [ExpireDone, hs, true_and]

/-- What `pttl` answers: the difference of two times in 64 bits, as a signed number. -/
def TtlTold (clock : Timespec) (σ : Store) (key : Bytes) (v : Value) (σ' : Store) : Prop :=
  σ' = σ ∧
    match σ key with
    | none => v = .int (-2)
    | some ⟨_, none⟩ => v = .int (-1)
    | some ⟨_, some expiry⟩ =>
      v = .int (if getMonotonicMsec clock < expiry then toI64 (expiry - getMonotonicMsec clock)
        else 0)

lemma doTtl_spec {g : GlobalData} {σ : Store} (hg : Good g σ) (clock : Timespec)
    (cmd : List Bytes) : Does (doTtl g clock cmd) (TtlTold clock σ (arg cmd 1)) := by
  obtain ⟨db, r, he, hg', hr⟩ := findEntry_spec hg (arg cmd 1)
  cases r with
  | none =>
    refine .of_eq (fun b => by simp [doTtl, he]) (fun h => shows_outInt h (-2)) hg' ?_
    simp only [TtlTold, hr, true_and]
  | some a =>
    obtain ⟨e, hat⟩ := hr
    obtain ⟨c, expiry, hc, hd, hs⟩ := hg'.get hat
    rcases hg'.timed.deadline hat.live with ⟨hi, hd'⟩ | ⟨i, t, hi, hx, hd'⟩
    · dsimp only at hi
      refine .of_eq (fun b => by simp [doTtl, he, hi]) (fun h => shows_outInt h (-1)) hg' ?_
      rw [hd.unique hd'] at hs
      simp only [TtlTold, hs, true_and]
    · dsimp only at hi hx
      have hact : ∀ b, doTtl g clock cmd b = .ok ({ g with db := db }, outInt b
          (if getMonotonicMsec clock < t then toI64 (t - getMonotonicMsec clock) else 0)) := by
        intro b
        simp only [doTtl, he, hi, hx, ok_bind, pure_eq_ok]
      refine .of_eq hact (fun h => shows_outInt h _) hg' ?_
      rw [hd.unique hd'] at hs
      simp only [TtlTold, hs, true_and]

/-! ### The numbers of a time -/

lemma msec_lt (clock : Timespec) : getMonotonicMsec clock < 2 ^ 63 := by
  have := clock.in_range
  unfold getMonotonicMsec
  omega

lemma strtoll_lt (s : Bytes) : (strtoll s).1 < 2 ^ 63 := by
  unfold strtoll
  dsimp only
  split_ifs
  · omega
  · dsimp only
    omega

lemma str2int_lt {s : Bytes} {n : ℤ} (h : str2int s = some n) : n < 2 ^ 63 := by
  have hlt := strtoll_lt (cStr s)
  unfold str2int at h
  dsimp only at h
  split_ifs at h
  rwa [← Option.some.inj h]

/-- A time that is set does not wrap. -/
lemma expireAt_eq (clock : Timespec) {s : Bytes} {ttl : ℤ} (h : str2int s = some ttl) :
    expireAt clock ttl = if ttl < 0 then none else some (getMonotonicMsec clock + ttl.toNat) := by
  have h1 := msec_lt clock
  have h2 := str2int_lt h
  unfold expireAt
  rw [Nat.mod_eq_of_lt (by omega)]

theorem ExpireDone.reference {clock : Timespec} {σ σ' : Store} {s key : Bytes} {ttl : ℤ} {v : Value}
    (httl : str2int s = some ttl) (h : ExpireDone clock σ key ttl v σ') :
    Reference (getMonotonicMsec clock) σ (.pexpire key ttl) v σ' := by
  unfold ExpireDone at h
  rw [expireAt_eq clock httl] at h
  simp only [Reference]
  exact h

/-- A time that is not further away than any `ttl` is told exactly. -/
theorem TtlTold.reference {clock : Timespec} {σ σ' : Store} {key : Bytes} {v : Value}
    (hnear : ∀ c t, σ key = some ⟨c, some t⟩ → t < getMonotonicMsec clock + 2 ^ 63)
    (h : TtlTold clock σ key v σ') :
    Reference (getMonotonicMsec clock) σ (.pttl key) v σ' := by
  obtain ⟨hσ, hv⟩ := h
  refine ⟨hσ, ?_⟩
  cases hs : σ key with
  | none =>
    rw [hs] at hv
    exact hv
  | some item =>
    obtain ⟨c, expiry⟩ := item
    rw [hs] at hv
    cases expiry with
    | none => exact hv
    | some t =>
      have hlt := hnear c t hs
      refine Eq.trans hv (congrArg Value.int ?_)
      unfold toI64
      split_ifs with hnow
      · rw [Int.bmod_eq_of_le (by omega) (by omega)]
        omega
      · omega

end ByoRedis.CommandSpec
