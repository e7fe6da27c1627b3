import Mathlib.Data.Set.Card
import ByoRedis.IntegerArgs
import ByoRedis.RangeCommands
import ByoRedis.StoreRuns

/-!
What the server answers to any vector of strings.

The commands that ask for ranks and ranges are told from the ordered list of the members, and a
vector that is not a command has its error. With the reference of the other commands this leaves
nothing open but the order in which keys are listed, as long as no set has 2^31 members.
-/

namespace ByoRedis.Replies

open ByoRedis.Basic ByoRedis.SortedSet ByoRedis.SortedSetSpec ByoRedis.MemberTree
open ByoRedis.MemberWalk ByoRedis.MemberSearch ByoRedis.ByteBuffer ByoRedis.ByteBufferSpec
open ByoRedis.Proto ByoRedis.Tlv
open ByoRedis.Database ByoRedis.DatabaseSpec ByoRedis.Commands ByoRedis.KeySpace
open ByoRedis.CommandSpec ByoRedis.ExpireSpec ByoRedis.MemberCommands ByoRedis.RangeCommands
open ByoRedis.Dispatch ByoRedis.Conn ByoRedis.ResponseSpec ByoRedis.StoreRuns
open ByoRedis.Lib.Runs ByoRedis.Lib.Trees
open ByoRedis.IntegerArgs (integer str2int_eq_integer)

/-! ### The reference -/

/-- A vector with its numbers read, or the error where it is not a command. -/
inductive Query
  | command (c : Command)
  | zquery (key : Bytes) (score : Score) (name : Bytes) (offset limit : ℤ)
  | zrank (key name : Bytes)
  | zcount (key : Bytes) (lo : Score) (name₁ : Bytes) (hi : Score) (name₂ : Bytes)
  | bad (v : Value)

def unknown : Query := .bad (errVal .unknown "unknown command")

/-- What a vector asks for. A text is a score where `strtod` takes all of it for a number. -/
noncomputable def queryOf (strtod : Bytes → UInt64 × ℕ) : List Bytes → Query
  | [name] => if name = str "keys" then .command .keys else unknown
  | [name, key] =>
    if name = str "get" then .command (.get key)
    else if name = str "del" then .command (.del key)
    else if name = str "pttl" then .command (.pttl key)
    else unknown
  | [name, key, x] =>
    if name = str "set" then .command (.set key x)
    else if name = str "zrem" then .command (.zrem key x)
    else if name = str "zscore" then .command (.zscore key x)
    else if name = str "zrank" then .zrank key x
    else if name = str "pexpire" then
      match integer x with
      | some ttl => .command (.pexpire key ttl)
      | none => .bad (errVal .badArg "expect int64")
    else unknown
  | [name, key, x, y] =>
    if name = str "zadd" then
      match str2dbl strtod x with
      | some score => .command (.zadd key score y)
      | none => .bad (errVal .badArg "expect float")
    else unknown
  | [name, key, x, y, u, w] =>
    if name = str "zquery" then
      match str2dbl strtod x, integer u, integer w with
      | none, _, _ => .bad (errVal .badArg "expect fp number")
      | some score, some offset, some limit => .zquery key score y offset limit
      | some _, _, _ => .bad (errVal .badArg "expect int")
    else if name = str "zcount" then
      match str2dbl strtod x, str2dbl strtod u with
      | some lo, some hi => .zcount key lo y hi w
      | _, _ => .bad (errVal .badArg "expect fp number")
    else unknown
  | _ => unknown

/-- What is told of the members under a key, listed in their order. -/
def Tells (σ : Store) (key : Bytes) (R : (Bytes → Option Score) → List (Score × Bytes) → Value)
    (v : Value) : Prop :=
  match σ key with
  | some ⟨.str _, _⟩ => v = errVal .badTyp "expect zset"
  | _ => ∃ m members, Members σ key m ∧ Lists m members ∧ v = R m members

/-- What `zcount` tells: the number of members in the range, but none where every member is before
its upper end. -/
def counted (members : List (Score × Bytes)) (lo : Score) (name₁ : Bytes) (hi : Score)
    (name₂ : Bytes) : ℕ :=
  if ∃ p ∈ members, ¬ Precedes p.1 p.2 hi name₂ then within members lo name₁ hi name₂ else 0

/-- The answer to a vector, and the store that it leaves. -/
def Reply (now : ℕ) (σ : Store) : Query → Value → Store → Prop
  | .command c, v, σ' => Reference now σ c v σ'
  | .zquery key score name offset limit, v, σ' => Tells σ key (fun _ members =>
      .arr (pairValues (slice members (preceding members score name) offset limit))) v ∧ σ' = σ
  | .zrank key name, v, σ' => Tells σ key (fun m members =>
      (m name).elim .nil fun s => .int (preceding members s name)) v ∧ σ' = σ
  | .zcount key lo name₁ hi name₂, v, σ' => Tells σ key (fun _ members =>
      .int (counted members lo name₁ hi name₂)) v ∧ σ' = σ
  | .bad e, v, σ' => v = e ∧ σ' = σ

/-! ### The sizes of sets -/

/-- No set has more members. -/
def Sized (n : ℕ) (σ : Store) : Prop :=
  ∀ key m expiry, σ key = some ⟨.zset m, expiry⟩ → {name | m name ≠ none}.encard ≤ n

variable {strtod : Bytes → UInt64 × ℕ} {g : GlobalData} {σ σ' : Store} {m : Bytes → Option Score}
  {members : List (Score × Bytes)} {now n : ℕ} {key : Bytes} {cmd : List Bytes}

lemma encard_of_lists (hl : Lists m members) :
    {name | m name ≠ none}.encard = members.length := by
  have hnodup : (members.map Prod.snd).Nodup := by
    refine List.pairwise_map.mpr (hl.sorted.imp_of_mem ?_)
    rintro ⟨s, name⟩ ⟨s', name'⟩ hp hq hpq rfl
    have hsame : s = s' := by
      have h₁ := (hl.mem s _).mp hp
      have h₂ := (hl.mem s' _).mp hq
      exact Option.some.inj (h₁.symm.trans h₂)
    subst hsame
    exact Precedes.irrefl _ _ hpq
  have hset : {name | m name ≠ none} = ((members.map Prod.snd).toFinset : Set Bytes) := by
    ext name
    rw [Set.mem_ofPred_eq, List.coe_toFinset, Set.mem_ofPred_eq, Option.ne_none_iff_exists',
      List.mem_map]
    constructor
    · rintro ⟨s, hs⟩
      exact ⟨(s, name), (hl.mem s name).mpr hs, rfl⟩
    · rintro ⟨⟨s, _⟩, hp, rfl⟩
      exact ⟨s, (hl.mem s _).mp hp⟩
  rw [hset, Set.encard_coe_eq_coe_finsetCard, List.toFinset_card_of_nodup hnodup, List.length_map]

lemma Sized.length_le (h : Sized n σ) (hm : Members σ key m) (hl : Lists m members) :
    members.length ≤ n := by
  have hcard := encard_of_lists hl
  cases hm with
  | missing _ =>
    simp only [ne_eq, not_true_eq_false, Set.ofPred_false, Set.encard_empty] at hcard
    have : members.length = 0 := by exact_mod_cast hcard.symm
    omega
  | zset hs =>
    have hle := h key m _ hs
    rw [hcard] at hle
    exact_mod_cast hle

lemma Sized.mono {n' : ℕ} (h : Sized n σ) (hle : n ≤ n') : Sized n' σ := fun key m expiry hs =>
  (h key m expiry hs).trans (by exact_mod_cast hle)

lemma Sized.sub (h : Sized n σ) (hsub : ∀ key, σ' key = none ∨ σ' key = σ key) : Sized n σ' := by
  intro key m expiry hs
  rcases hsub key with hk | hk
  · simp [hk] at hs
  · exact h key m expiry (hk ▸ hs)

lemma Sized.put (h : Sized n σ) {content : Content} {expiry : Option ℕ}
    (hc : ∀ m, content = .zset m → {name | m name ≠ none}.encard ≤ n) :
    Sized n (put σ key content expiry) := by
  intro k m x hs
  unfold KeySpace.put at hs
  by_cases hk : k = key
  · rw [hk, Function.update_self, Option.some.injEq] at hs
    exact hc m (Item.mk.inj hs).1
  · rw [Function.update_of_ne hk] at hs
    exact h k m x hs

lemma encard_update_le (m : Bytes → Option Score) (name : Bytes) (s : Option Score) {n : ℕ}
    (h : {name | m name ≠ none}.encard ≤ n) :
    {x | Function.update m name s x ≠ none}.encard ≤ (n + 1 : ℕ) := by
  have hsub : {x | Function.update m name s x ≠ none} ⊆ insert name {name | m name ≠ none} := by
    intro x hx
    by_cases hxn : x = name
    · exact .inl hxn
    · rw [Set.mem_ofPred_eq, Function.update_of_ne hxn] at hx
      exact .inr hx
  calc {x | Function.update m name s x ≠ none}.encard
    _ ≤ (insert name {name | m name ≠ none}).encard := Set.encard_le_encard hsub
    _ ≤ {name | m name ≠ none}.encard + 1 := Set.encard_insert_le ..
    _ ≤ (n : ℕ∞) + 1 := by gcongr
    _ = (n + 1 : ℕ) := by push_cast; rfl

/-- How many members a command adds at most. -/
def adds : Query → ℕ
  | .command (.zadd _ _ _) => 1
  | _ => 0

lemma Sized.reference (h : Sized n σ) {c : Command} {v : Value} (hr : Reference now σ c v σ') :
    Sized (n + adds (.command c)) σ' := by
  cases c with
  | get | keys | zscore | pttl => exact hr.1 ▸ h
  | set key val =>
    simp only [Reference] at hr
    split at hr
    · exact hr.2 ▸ h.put (by simp)
    · exact hr.2 ▸ h.put (by simp)
    · exact hr.2 ▸ h
  | del key =>
    simp only [Reference] at hr
    split at hr
    · exact hr.2 ▸ h
    · rw [hr.2]
      refine h.sub fun k => ?_
      by_cases hk : k = key
      · exact .inl (by rw [hk, drop, Function.update_self])
      · exact .inr (Function.update_of_ne hk ..)
  | zadd key score name =>
    have h' := h.mono (Nat.le_succ n)
    simp only [Reference] at hr
    split at hr
    · rw [hr.2]
      refine h'.put ?_
      rintro m ⟨⟩
      refine encard_update_le _ name _ ?_
      simp
    next m expiry hs =>
      rw [hr.2]
      refine h'.put ?_
      rintro m' ⟨⟩
      exact encard_update_le m name _ (h key m expiry hs)
    · exact hr.2 ▸ h'
  | zrem key name =>
    simp only [Reference] at hr
    split at hr
    · exact hr.2 ▸ h
    next m expiry hs =>
      rw [hr.2]
      refine h.put ?_
      rintro m' ⟨⟩
      refine le_trans (Set.encard_le_encard fun x hx => ?_) (h key m expiry hs)
      by_cases hxn : x = name
      · simp [hxn] at hx
      · rwa [Set.mem_ofPred_eq, Function.update_of_ne hxn] at hx
    · exact hr.2 ▸ h
  | pexpire key ttl =>
    simp only [Reference] at hr
    split at hr
    · exact hr.2 ▸ h
    next content expiry hs =>
      rw [hr.2]
      refine h.put ?_
      rintro m rfl
      exact h key m expiry hs

/-- **A vector** adds one member at most, and none if it is not a `zadd`. -/
lemma Sized.reply (h : Sized n σ) {q : Query} {v : Value} (hr : Reply now σ q v σ') :
    Sized (n + adds q) σ' := by
  cases q with
  | command c => exact h.reference hr
  | zquery | zrank | zcount | bad => exact hr.2 ▸ h

/-! ### The commands -/

lemma Tells.of_members (hm : Members σ key m) (hl : Lists m members)
    (R : (Bytes → Option Score) → List (Score × Bytes) → Value) : Tells σ key R (R m members) := by
  unfold Tells
  cases hm with
  | missing h =>
    rw [h]
    exact ⟨_, members, .missing h, hl, rfl⟩
  | zset h =>
    rw [h]
    exact ⟨m, members, .zset h, hl, rfl⟩

/-- A command that is told of members: of another value there is an error, and otherwise it is
enough to know what it does with the members. -/
lemma does_tells (hg : Good g σ) (hsized : Sized n σ) {act : Buffer → Eff (GlobalData × Buffer)}
    {R : (Bytes → Option Score) → List (Score × Bytes) → Value}
    (hwrong : ∀ g₁, expectZset g key = .ok (g₁, none) →
      ∀ b, act b = .ok (g₁, outErr b .badTyp "expect zset"))
    (hright : ∀ m members, Members σ key m → Lists m members → members.length ≤ n →
      Does act fun v σ' => v = R m members ∧ σ' = σ) :
    Does act fun v σ' => Tells σ key R v ∧ σ' = σ := by
  obtain ⟨db, r, he, hg', hr⟩ := expectZset_spec hg key
  cases r with
  | none =>
    obtain ⟨s, expiry, hs⟩ := hr
    refine .of_eq (hwrong _ he) (fun h => shows_outErr h .badTyp "expect zset") hg' ⟨?_, rfl⟩
    unfold Tells
    rw [hs]
  | some ref =>
    obtain ⟨z, t, m, w, hz, hf, -⟩ := hr
    have hm : Members σ key m := by
      cases hf with
      | empty hs => exact .missing hs
      | entry _ _ _ hs => exact .zset hs
    have hl := Wf.lists w hz
    refine (hright m _ hm hl (hsized.length_le hm hl)).mono ?_
    rintro v σ' ⟨rfl, rfl⟩
    exact ⟨.of_members hm hl R, rfl⟩

lemma doZrank_reply (hg : Good g σ) (hsized : Sized n σ) (hn : n < 2 ^ 32) :
    Does (doZrank g cmd) (Reply now σ (.zrank (arg cmd 1) (arg cmd 2))) := by
  refine does_tells hg hsized (fun g₁ he b => by simp [doZrank, he]) fun m members hm hl hle => ?_
  cases hs : m (arg cmd 2) with
  | some s => exact doZrank_rank hg hm hl (Nat.lt_of_le_of_lt hle hn) hs
  | none =>
    obtain ⟨db, ref, z, t, he, hg', w, hz, hf, hread⟩ := hm.expectZset hg
    obtain ⟨h, found, hlook, w', hfound⟩ := zsetLookup_spec w (arg cmd 2)
    have hz' : Holds { z with hmap := h } m := hz
    obtain ⟨g₁, hwrite, hg₁⟩ := hf.write_same hg' w' hz'
    cases found with
    | none =>
      exact .of_eq (fun b => by simp [doZrank, he, hread, hlook, hwrite]) shows_outNil hg₁
        ⟨rfl, rfl⟩
    | some a =>
      obtain ⟨d, hd, hname⟩ := hfound
      rw [← hname, hz'.get_eq hd] at hs
      cases hs

lemma doZcount_reply (hg : Good g σ) (hsized : Sized n σ) (hn : n < 2 ^ 32) {lo hi : Score}
    (hlo : str2dbl strtod (arg cmd 2) = some lo) (hhi : str2dbl strtod (arg cmd 4) = some hi) :
    Does (doZcount strtod g cmd)
      (Reply now σ (.zcount (arg cmd 1) lo (arg cmd 3) hi (arg cmd 5))) := by
  refine does_tells hg hsized (fun g₁ he b => by simp [doZcount, hlo, hhi, he])
    fun m members hm hl hle => ?_
  obtain ⟨db, ref, z, t, he, -, w, -, -, hread⟩ := hm.expectZset hg
  obtain ⟨hg₁, hlen, hact⟩ := doZcount_value strtod hg hlo hhi hm hl he hread w
  refine .of_eq hact (fun hb => shows_outInt hb _) hg₁ ⟨?_, rfl⟩
  have hfit : t.numNodes < 2 ^ 32 := hlen ▸ Nat.lt_of_le_of_lt hle hn
  have hall : (∃ p ∈ members, ¬ Precedes p.1 p.2 hi (arg cmd 5)) ↔
      preceding members hi (arg cmd 5) ≠ members.length := by
    rw [preceding, Ne, List.countP_eq_length]
    simp
  have hlo' : preceding members lo (arg cmd 3) ≤ members.length := List.countP_le_length
  have hhi' : preceding members hi (arg cmd 5) ≤ members.length := List.countP_le_length
  unfold countOf counted
  rw [lost_eq_zero hfit, lost_eq_zero hfit, ← hlen, within_eq]
  congr 1
  simp only [hall]
  split_ifs <;> omega

lemma zquery_appends {z : ZSet} {t : BinaryTree Addr} (w : Wf z t) (hz : Holds z m)
    (hl : Lists m members) (hfit : members.length < 2 ^ 31) (score : Score) (name : Bytes)
    (offset : ℤ) {limit : ℤ} (hpos : 0 < limit) :
    ∃ start, zsetSeekge z score name >>= (fun znode => znodeOffset z znode offset) = .ok start ∧
      ∀ b u hs, Shows b u hs → ∃ b', zqueryLoop z limit.toNat start b 0 =
        .ok (b', (slice members (preceding members score name) offset limit).length) ∧
        Shows b' (u ++ encAll (pairValues
          (slice members (preceding members score name) offset limit))) hs := by
  obtain ⟨hmem, hlen⟩ := member_at w hz hl
  have hat : preceding members score name ≤ members.length := List.countP_le_length
  obtain ⟨start, hoff, hstart⟩ := znodeOffset_starts w hlen hfit hat offset hpos
  obtain ⟨ps, hloop, hps⟩ := zqueryLoop_spec w limit.toNat (fun a => hstart.mem) 0
  have hslice : slice members (preceding members score name) offset limit = ps := by
    rcases hstart with ⟨rfl, hs⟩ | ⟨j, hj, hs⟩
    · have hend : none = (inorder t)[(inorder t).length]? :=
        (List.getElem?_eq_none (Nat.le_refl _)).symm
      rw [hs, hps (by omega) _ hend, List.drop_eq_nil_of_le (by rw [List.length_map]),
        List.take_nil]
    · rw [hs, hps (by omega) j hj, hmem]
  refine ⟨start, by rw [zsetSeekge_position w hz hl, ok_bind, hoff], fun b u hs hb => ?_⟩
  obtain ⟨b', he, hb'⟩ := hloop b u hs hb
  rw [Nat.zero_add] at he
  exact ⟨b', by rw [hslice, he], by rwa [hslice]⟩

lemma doZquery_reply (hg : Good g σ) (hsized : Sized n σ) (hn : n < 2 ^ 31) {score : Score}
    {offset limit : ℤ} (hscore : str2dbl strtod (arg cmd 2) = some score)
    (hoffset : str2int (arg cmd 4) = some offset) (hlimit : str2int (arg cmd 5) = some limit) :
    Does (doZquery strtod g cmd)
      (Reply now σ (.zquery (arg cmd 1) score (arg cmd 3) offset limit)) := by
  refine does_tells hg hsized (fun g₁ he b => by simp [doZquery, hscore, hoffset, hlimit, he])
    fun m members hm hl hle => ?_
  obtain ⟨db, ref, z, t, he, hg', w, hz, -, hread⟩ := hm.expectZset hg
  by_cases hpos : limit ≤ 0
  · refine .of_eq (fun b => by simp [doZquery, hscore, hoffset, hlimit, he, hpos])
      (fun h => shows_outArr h 0) (v := .arr []) hg' ⟨?_, rfl⟩
    rw [slice, if_pos (.inl hpos)]
    rfl
  obtain ⟨start, hsearch, hloop⟩ := zquery_appends w hz hl (Nat.lt_of_le_of_lt hle hn) score
    (arg cmd 3) offset (Int.not_le.mp hpos)
  obtain ⟨znode, hseek, hoff⟩ := bind_eq_ok.mp hsearch
  refine ⟨_, _, σ, hg', ⟨rfl, rfl⟩, depth_pairValues _, fun b u hs hb => ?_⟩
  obtain ⟨b₁, hb₁, hs₁⟩ := hloop _ _ _ (shows_outBeginArr hb)
  obtain ⟨b₂, hb₂, hs₂⟩ := shows_outEndArr hs₁
    ((slice members (preceding members score (arg cmd 3)) offset limit).length * 2)
  refine ⟨b₂, ?_, ?_⟩
  · simp only [doZquery, hscore, hoffset, hlimit, he, ok_bind, if_neg hpos, hread, hseek, hoff, hb₁,
      hb₂, pure_eq_ok]
  · rw [enc_arr, pairValues_length, ← List.append_assoc]
    exact hs₂

lemma queryOf_eq_command {c : Command} :
    queryOf strtod cmd = .command c ↔ denote strtod cmd = some c := by
  match cmd with
  | [] | [_, _, _, _, _] | _ :: _ :: _ :: _ :: _ :: _ :: _ :: _ => simp [queryOf, denote, unknown]
  | [name] | [name, key] =>
    unfold queryOf denote unknown
    dsimp only
    split_ifs <;> simp
  | [name, key, x] =>
    unfold queryOf denote unknown
    dsimp only
    rw [str2int_eq_integer]
    have hne : str "zrank" ≠ str "pexpire" := by decide
    cases integer x <;> split_ifs <;> simp_all
  | [name, key, x, y] =>
    unfold queryOf denote unknown
    dsimp only
    cases str2dbl strtod x <;> split_ifs <;> simp
  | [name, key, x, y, u, w] =>
    unfold queryOf denote unknown
    dsimp only
    split_ifs
    · split <;> simp
    · split <;> simp
    · simp

/-- A vector with the name and the arity of none of the commands. -/
lemma queryOf_unknown (hd : denote strtod cmd = none)
    (h1 : ¬ (cmd.length = 4 ∧ arg cmd 0 = str "zadd"))
    (h2 : ¬ (cmd.length = 6 ∧ arg cmd 0 = str "zquery"))
    (h3 : ¬ (cmd.length = 3 ∧ arg cmd 0 = str "zrank"))
    (h4 : ¬ (cmd.length = 6 ∧ arg cmd 0 = str "zcount"))
    (h5 : ¬ (cmd.length = 3 ∧ arg cmd 0 = str "pexpire")) : queryOf strtod cmd = unknown := by
  match cmd with
  | [] | [_, _, _, _, _] | _ :: _ :: _ :: _ :: _ :: _ :: _ :: _ => rfl
  | [name] | [name, key] =>
    unfold denote at hd
    unfold queryOf
    dsimp only at hd ⊢
    split_ifs at hd ⊢
    rfl
  | [name, key, x] =>
    simp only [arg, List.length_cons, List.length_nil, List.getD_cons_zero, true_and] at h3 h5
    unfold denote at hd
    unfold queryOf
    dsimp only at hd ⊢
    split_ifs at hd ⊢
    rfl
  | [name, key, x, y] =>
    simp only [arg, List.length_cons, List.length_nil, List.getD_cons_zero, true_and] at h1
    exact if_neg h1
  | [name, key, x, y, u, w] =>
    simp only [arg, List.length_cons, List.length_nil, List.getD_cons_zero, true_and] at h2 h4
    rw [queryOf, if_neg h2, if_neg h4]

lemma does_bad (hg : Good g σ) {act : Buffer → Eff (GlobalData × Buffer)} (code : ErrCode)
    (msg : String) (hq : queryOf strtod cmd = .bad (errVal code msg))
    (he : ∀ b, act b = .ok (g, outErr b code msg)) :
    Does act (Reply now σ (queryOf strtod cmd)) := by
  rw [hq]
  exact .of_eq he (fun h => shows_outErr h code msg) hg ⟨rfl, rfl⟩

lemma zquery_does (hg : Good g σ) (hsized : Sized n σ) (hn : n < 2 ^ 31)
    (hcmd : cmd.length = 6 ∧ arg cmd 0 = str "zquery") :
    Does (doZquery strtod g cmd) (Reply now σ (queryOf strtod cmd)) := by
  have hq : queryOf strtod cmd =
      match str2dbl strtod (arg cmd 2), str2int (arg cmd 4), str2int (arg cmd 5) with
      | none, _, _ => .bad (errVal .badArg "expect fp number")
      | some score, some offset, some limit =>
        .zquery (arg cmd 1) score (arg cmd 3) offset limit
      | some _, _, _ => .bad (errVal .badArg "expect int") := by
    rw [str2int_eq_integer, str2int_eq_integer]
    conv_lhs => rw [vector_eq hcmd]
    rfl
  cases h1 : str2dbl strtod (arg cmd 2) with
  | none =>
    rw [h1] at hq
    exact does_bad hg .badArg "expect fp number" hq fun b => by simp [doZquery, h1]
  | some score =>
    cases h2 : str2int (arg cmd 4) with
    | none =>
      rw [h1, h2] at hq
      exact does_bad hg .badArg "expect int" hq fun b => by simp [doZquery, h1, h2]
    | some offset =>
      cases h3 : str2int (arg cmd 5) with
      | none =>
        rw [h1, h2, h3] at hq
        exact does_bad hg .badArg "expect int" hq fun b => by simp [doZquery, h1, h2, h3]
      | some limit =>
        rw [h1, h2, h3] at hq
        rw [hq]
        exact doZquery_reply hg hsized hn h1 h2 h3

lemma zcount_does (hg : Good g σ) (hsized : Sized n σ) (hn : n < 2 ^ 32)
    (hcmd : cmd.length = 6 ∧ arg cmd 0 = str "zcount") :
    Does (doZcount strtod g cmd) (Reply now σ (queryOf strtod cmd)) := by
  have hq : queryOf strtod cmd =
      match str2dbl strtod (arg cmd 2), str2dbl strtod (arg cmd 4) with
      | some lo, some hi => .zcount (arg cmd 1) lo (arg cmd 3) hi (arg cmd 5)
      | _, _ => .bad (errVal .badArg "expect fp number") := by
    rw [vector_eq hcmd]
    rfl
  cases h1 : str2dbl strtod (arg cmd 2) with
  | none =>
    rw [h1] at hq
    exact does_bad hg .badArg "expect fp number" hq fun b => by simp [doZcount, h1]
  | some lo =>
    cases h2 : str2dbl strtod (arg cmd 4) with
    | none =>
      rw [h1, h2] at hq
      exact does_bad hg .badArg "expect fp number" hq fun b => by simp [doZcount, h1, h2]
    | some hi =>
      rw [h1, h2] at hq
      rw [hq]
      exact doZcount_reply hg hsized hn h1 h2

/-- **Any vector** is answered with its reply. -/
theorem doRequest_reply (hg : Good g σ) (hsized : Sized n σ) (hn : n < 2 ^ 31) {clock : Timespec}
    (hnear : Near (getMonotonicMsec clock) σ) (strtod : Bytes → UInt64 × ℕ) (cmd : List Bytes) :
    Does (doRequestAndMakeResponse strtod g clock cmd)
      (Reply (getMonotonicMsec clock) σ (queryOf strtod cmd)) := by
  cases hd : denote strtod cmd with
  | some c =>
    refine (doRequest_spec hg strtod clock cmd).mono fun v σ' ht => ?_
    have hr := ht.answers hnear
    rw [Answers, hd] at hr
    rw [queryOf_eq_command.mpr hd]
    exact hr
  | none =>
    have hnone : ∀ c, denote strtod cmd ≠ some c := by simp [hd]
    unfold doRequestAndMakeResponse
    refine does_ite (fun h => ?_) fun _ => does_ite (fun h => ?_) fun _ =>
      does_ite (fun h => ?_) fun _ => does_ite (fun h => ?_) fun _ =>
      does_ite (fun h => ?_) fun h1 => does_ite (fun h => ?_) fun _ =>
      does_ite (fun h => ?_) fun _ => does_ite (fun h => ?_) fun h2 =>
      does_ite (fun h => ?_) fun h3 => does_ite (fun h => ?_) fun h4 =>
      does_ite (fun h => ?_) fun h5 => does_ite (fun h => ?_) fun _ => ?_
    · exact absurd (by rw [vector_eq h]; rfl) (hnone (.get (arg cmd 1)))
    · exact absurd (by rw [vector_eq h]; rfl) (hnone (.set (arg cmd 1) (arg cmd 2)))
    · exact absurd (by rw [vector_eq h]; rfl) (hnone (.del (arg cmd 1)))
    · exact absurd (by rw [vector_eq h]; rfl) (hnone .keys)
    · have hz : denote strtod cmd = (str2dbl strtod (arg cmd 2)).map fun score =>
          .zadd (arg cmd 1) score (arg cmd 3) := by
        rw [vector_eq h]
        rfl
      rw [hd, eq_comm, Option.map_eq_none_iff] at hz
      refine does_bad hg .badArg "expect float" ?_ fun b => by simp [doZadd, hz]
      rw [vector_eq h]
      simp [queryOf, List.range_succ, hz]
    · exact absurd (by rw [vector_eq h]; rfl) (hnone (.zrem (arg cmd 1) (arg cmd 2)))
    · exact absurd (by rw [vector_eq h]; rfl) (hnone (.zscore (arg cmd 1) (arg cmd 2)))
    · exact zquery_does hg hsized hn h
    · have hq : queryOf strtod cmd = .zrank (arg cmd 1) (arg cmd 2) := by
        rw [vector_eq h]
        rfl
      rw [hq]
      exact doZrank_reply hg hsized (by omega)
    · exact zcount_does hg hsized (by omega) h
    · have hz : denote strtod cmd = (str2int (arg cmd 2)).map (.pexpire (arg cmd 1)) := by
        rw [vector_eq h]
        rfl
      rw [hd, eq_comm, Option.map_eq_none_iff] at hz
      refine does_bad hg .badArg "expect int64" ?_ fun b => by simp [doExpire, hz]
      rw [str2int_eq_integer] at hz
      have hname : str "pexpire" ∉ [str "set", str "zrem", str "zscore", str "zrank"] := by decide
      simp only [List.mem_cons, not_or] at hname
      rw [vector_eq h]
      simp [queryOf, List.range_succ, hz, hname]
    · exact absurd (by rw [vector_eq h]; rfl) (hnone (.pttl (arg cmd 1)))
    · exact does_bad hg .unknown "unknown command" (queryOf_unknown hd h1 h2 h3 h4 h5) fun b => rfl

/-! ### Runs -/

/-- What a command is answered, and what a round of timers does. -/
def Responds (strtod : Bytes → UInt64 × ℕ) (σ : Store) : Op → Bytes → Store → Prop
  | .command clock cmd, out, σ' =>
    ∃ v, Reply (getMonotonicMsec clock) σ (queryOf strtod cmd) v σ' ∧ out = frame v
  | .timers clock, out, σ' => out = [] ∧ Expires (maxWorks + 1) (getMonotonicMsec clock) σ σ'

/-- One step of the server beside one of the reference of all commands. -/
structure Replied (strtod : Bytes → UInt64 × ℕ) (s : GlobalData × Store) (op : Op) (out : Bytes)
    (s' : GlobalData × Store) : Prop where
  runs : serve strtod s.1 op = .ok (s'.1, out)
  responds : Responds strtod s.2 op out s'.2
  stands : Good s'.1 s'.2

lemma near_reply {clock : Timespec} (h : Near (getMonotonicMsec clock) σ) {v : Value}
    (hr : Reply (getMonotonicMsec clock) σ (queryOf strtod cmd) v σ') :
    Near (getMonotonicMsec clock) σ' := by
  cases hq : queryOf strtod cmd with
  | command c =>
    rw [hq] at hr
    refine h.reference le_rfl hr fun key ttl hc => ?_
    exact denote_pexpire (queryOf_eq_command.mp (hq.trans (congrArg Query.command hc)))
  | zquery | zrank | zcount | bad =>
    rw [hq] at hr
    exact hr.2 ▸ h

lemma respond_does {clock : Timespec} {R : Value → Store → Prop}
    (h : Does (doRequestAndMakeResponse strtod g clock cmd) R) :
    ∃ g' v σ', serve strtod g (.command clock cmd) = .ok (g', frame v) ∧ Good g' σ' ∧ R v σ' := by
  obtain ⟨g', v, σ', hg', hr, -, hact⟩ := h
  obtain ⟨b₁, he₁, hs₁⟩ := hact _ _ _ (shows_responseBegin shows_empty)
  obtain ⟨b₂, he₂, hs₂⟩ := responseEnd_spec hs₁ (by simp)
  refine ⟨g', v, σ', ?_, hg', hr⟩
  unfold serve respond
  simp only [he₁, he₂, ok_bind, pure_eq_ok, hs₂.unread]
  rw [List.nil_append, limited_enc]
  rfl

/-- How many members an operation adds at most. -/
noncomputable def addsOf (strtod : Bytes → UInt64 × ℕ) : Op → ℕ
  | .command _ cmd => Replies.adds (queryOf strtod cmd)
  | .timers _ => 0

lemma serve_replied (hg : Good g σ) (hsized : Sized n σ) (hn : n < 2 ^ 31) (op : Op)
    (hnear : Near (getMonotonicMsec op.clock) σ) :
    ∃ g' out σ', Replied strtod (g, σ) op out (g', σ') ∧ Near (getMonotonicMsec op.clock) σ' ∧
      Sized (n + addsOf strtod op) σ' := by
  cases op with
  | command clock cmd =>
    obtain ⟨g', v, σ', he, hg', hr⟩ := respond_does (doRequest_reply hg hsized hn hnear strtod cmd)
    exact ⟨g', frame v, σ', ⟨he, ⟨v, hr, rfl⟩, hg'⟩, near_reply hnear hr, hsized.reply hr⟩
  | timers clock =>
    obtain ⟨g', σ', he, hg', hx⟩ := processTtlTimers_spec hg clock
    refine ⟨g', [], σ', ⟨by simp [serve, he], ⟨rfl, hx⟩, hg'⟩, hnear.expires hx, ?_⟩
    obtain ⟨ks, -, -, hks, -⟩ := hx
    refine hsized.sub fun key => ?_
    rw [hks]
    split_ifs
    · exact .inl rfl
    · exact .inr rfl

/-- The server and the reference are in step, and no set can get too large. -/
structure Roomy (strtod : Bytes → UInt64 × ℕ) (g : GlobalData) (s : GlobalData × Store)
    (ops : List Op) : Prop where
  inStep : InStep g s ops
  room : ∃ n, Sized n s.2 ∧ n + (ops.map (addsOf strtod)).sum < 2 ^ 31

lemma Roomy.step {s : GlobalData × Store} {op : Op} {ops : List Op}
    (h : Roomy strtod g s (op :: ops)) : ∃ g' out s', serve strtod g op = .ok (g', out) ∧
      Replied strtod s op out s' ∧ Roomy strtod g' s' ops := by
  obtain ⟨⟨rfl, hg, hmono, hnear⟩, n, hsized, hroom⟩ := h
  rw [List.map_cons, List.sum_cons] at hroom
  obtain ⟨hfirst, hrest⟩ := List.pairwise_cons.mp hmono
  obtain ⟨g', out, σ', hr, hnear', hsized'⟩ :=
    serve_replied hg hsized (by omega) op (hnear op List.mem_cons_self)
  exact ⟨g', out, (g', σ'), hr.runs, hr, ⟨rfl, hr.stands, hrest,
    fun op' hop' => hnear'.later (hfirst op' hop')⟩, _, hsized', by omega⟩

/-- **Every vector of strings has its answer.** Over every run from the empty server with less than
2^31 vectors that add a member, each response is that of the reference of all commands, errors
included, and so is each state. -/
theorem every_reply (strtod : Bytes → UInt64 × ℕ) (ops : List Op) (hclock : NonDecreasing ops)
    (hfew : (ops.map (addsOf strtod)).sum < 2 ^ 31) :
    ∃ g outs σ, run (serve strtod) {} ops = .ok (g, outs) ∧
      Trace (Replied strtod) ({}, fun _ => none) ops outs (g, σ) := by
  have hempty : ∀ n, Sized n fun _ => none := fun n key m expiry hs => by simp at hs
  have hstart : Roomy strtod {} ({}, fun _ => none) ops := by
    refine ⟨⟨rfl, good_empty, hclock, fun op _ key c t hs => ?_⟩, 0, hempty 0, by omega⟩
    simp at hs
  obtain ⟨g, outs, ⟨g', σ⟩, he, ht, hend⟩ := run_simulates (R := Replied strtod)
    (fun _ _ _ _ h => h.step) hstart
  obtain rfl := hend.inStep.same
  exact ⟨_, outs, σ, he, ht⟩

/-- Two members are added, a rank and a number of members are asked for, and a vector is sent that
is no command. -/
theorem every_reply_rank :
    let clock : Timespec := ⟨1, 0, by decide, by decide⟩
    let ops : List Op := [.command clock [str "zadd", str "z", str "0", str "b"],
      .command clock [str "zadd", str "z", str "0", str "a"],
      .command clock [str "zrank", str "z", str "b"],
      .command clock [str "zcount", str "z", str "0", str "", str "0", str "b"],
      .command clock [str "zrank", str "z"]]
    ∃ g outs σ, run (serve allZero) {} ops = .ok (g, outs) ∧
      Trace (Replied allZero) ({}, fun _ => none) ops outs (g, σ) := by
  intro clock ops
  have hclock : NonDecreasing ops := by
    simp [ops, NonDecreasing, Op.clock]
  exact every_reply allZero ops hclock (by decide)

end ByoRedis.Replies
