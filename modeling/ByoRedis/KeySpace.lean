import Mathlib.Logic.Function.Basic
import ByoRedis.SortedSet
import ByoRedis.Tlv

/-!
What the store is for: a map from keys to strings and sorted sets, some of which expire.

A sorted set is a map from names to scores here, and a command takes the store to another one
with an answer. Only the order in which keys are listed and which of the expired keys are
removed first within one round of timers are left open.
-/

namespace ByoRedis.KeySpace

open ByoRedis.Basic ByoRedis.SortedSet ByoRedis.Proto ByoRedis.Tlv

inductive Content
  | str (s : Bytes)
  | zset (members : Bytes → Option Score)

structure Item where
  content : Content
  /-- When the key expires, in milliseconds. -/
  expiry : Option ℕ

abbrev Store := Bytes → Option Item

/-- The commands on strings, members and expiration times, with their numbers read. -/
inductive Command
  | get (key : Bytes)
  | set (key val : Bytes)
  | del (key : Bytes)
  | keys
  | zadd (key : Bytes) (score : Score) (name : Bytes)
  | zrem (key name : Bytes)
  | zscore (key name : Bytes)
  | pexpire (key : Bytes) (ttl : ℤ)
  | pttl (key : Bytes)

def put (σ : Store) (key : Bytes) (content : Content) (expiry : Option ℕ) : Store :=
  Function.update σ key (some ⟨content, expiry⟩)

def drop (σ : Store) (key : Bytes) : Store := Function.update σ key none

/-- The answer of a command and the store it leaves. -/
def Reference (now : ℕ) (σ : Store) : Command → Value → Store → Prop
  | .get key, v, σ' => σ' = σ ∧
    match σ key with
    | none => v = .nil
    | some ⟨.str s, _⟩ => v = .str s
    | some ⟨.zset _, _⟩ => v = errVal .badTyp "not a string value"
  | .set key val, v, σ' =>
    match σ key with
    | none => v = .nil ∧ σ' = put σ key (.str val) none
    | some ⟨.str _, expiry⟩ => v = .nil ∧ σ' = put σ key (.str val) expiry
    | some ⟨.zset _, _⟩ => v = errVal .badTyp "a non-string value exists" ∧ σ' = σ
  | .del key, v, σ' =>
    match σ key with
    | none => v = .int 0 ∧ σ' = σ
    | some _ => v = .int 1 ∧ σ' = drop σ key
  | .keys, v, σ' => σ' = σ ∧
    ∃ ks : List Bytes, ks.Nodup ∧ (∀ k, k ∈ ks ↔ σ k ≠ none) ∧ v = .arr (ks.map .str)
  | .zadd key score name, v, σ' =>
    match σ key with
    | none =>
      v = .int 1 ∧ σ' = put σ key (.zset (Function.update (fun _ => none) name (some score))) none
    | some ⟨.zset m, expiry⟩ =>
      v = .int (if m name = none then 1 else 0) ∧
        σ' = put σ key (.zset (Function.update m name (some score))) expiry
    | some ⟨.str _, _⟩ => v = errVal .badTyp "expect zset" ∧ σ' = σ
  | .zrem key name, v, σ' =>
    match σ key with
    | none => v = .int 0 ∧ σ' = σ
    | some ⟨.zset m, expiry⟩ =>
      v = .int (if m name = none then 0 else 1) ∧
        σ' = put σ key (.zset (Function.update m name none)) expiry
    | some ⟨.str _, _⟩ => v = errVal .badTyp "expect zset" ∧ σ' = σ
  | .zscore key name, v, σ' => σ' = σ ∧
    match σ key with
    | none => v = .nil
    | some ⟨.zset m, _⟩ => v = (m name).elim .nil fun score => .dbl score.bits
    | some ⟨.str _, _⟩ => v = errVal .badTyp "expect zset"
  | .pexpire key ttl, v, σ' =>
    match σ key with
    | none => v = .int 0 ∧ σ' = σ
    | some ⟨content, _⟩ =>
      v = .int 1 ∧
        σ' = put σ key content (if ttl < 0 then none else some (now + ttl.toNat))
  | .pttl key, v, σ' => σ' = σ ∧
    match σ key with
    | none => v = .int (-2)
    | some ⟨_, none⟩ => v = .int (-1)
    | some ⟨_, some expiry⟩ => v = .int (max 0 ((expiry : ℤ) - now))

def Due (now : ℕ) (σ : Store) (key : Bytes) (expiry : ℕ) : Prop :=
  expiry < now ∧ ∃ content, σ key = some ⟨content, some expiry⟩

/-- One round of timers removes due keys, the earliest first, and all of them unless it has
removed `most`. -/
def Expires (most now : ℕ) (σ σ' : Store) : Prop :=
  ∃ ks : List Bytes, ks.Nodup ∧ ks.length ≤ most ∧
    (∀ key, σ' key = if key ∈ ks then none else σ key) ∧
    (∀ key ∈ ks, ∃ expiry, Due now σ key expiry ∧
      ∀ key' expiry', Due now σ' key' expiry' → expiry ≤ expiry') ∧
    ((∃ key expiry, Due now σ' key expiry) → ks.length = most)

/-- A due key that expires no later than any other. -/
def Earliest (now : ℕ) (σ : Store) (key : Bytes) (expiry : ℕ) : Prop :=
  Due now σ key expiry ∧
    ∀ key' content' expiry', σ key' = some ⟨content', some expiry'⟩ → expiry ≤ expiry'

/-- Keys removed one after the other, each the earliest of those left. -/
inductive Removes (now : ℕ) : Store → List Bytes → Store → Prop
  | nil (σ : Store) : Removes now σ [] σ
  | cons {σ σ' : Store} {key : Bytes} {expiry : ℕ} {ks : List Bytes} :
    Earliest now σ key expiry → Removes now (drop σ key) ks σ' → Removes now σ (key :: ks) σ'

lemma drop_eq_some {σ : Store} {key key' : Bytes} {item : Item} (h : drop σ key key' = some item) :
    key' ≠ key ∧ σ key' = some item := by
  unfold drop at h
  by_cases hk : key' = key
  · subst hk
    simp at h
  · rw [Function.update_of_ne hk] at h
    exact ⟨hk, h⟩

lemma Removes.eq {now : ℕ} {σ σ' : Store} {ks : List Bytes} (h : Removes now σ ks σ')
    (key : Bytes) : σ' key = if key ∈ ks then none else σ key := by
  induction h with
  | nil σ => simp
  | @cons σ σ' k expiry ks he _ ih =>
    rw [ih, drop]
    by_cases hk : key = k
    · subst hk
      simp
    · simp [hk]

/-- **Removing the earliest keys** is what a round of timers does. -/
theorem Removes.facts {now : ℕ} {σ σ' : Store} {ks : List Bytes} (h : Removes now σ ks σ') :
    ks.Nodup ∧ ∀ key ∈ ks, ∃ expiry, Due now σ key expiry ∧
      ∀ key' expiry', Due now σ' key' expiry' → expiry ≤ expiry' := by
  induction h with
  | nil σ => simp
  | @cons σ σ' k expiry ks he hr ih =>
    obtain ⟨hnd, hks⟩ := ih
    refine ⟨List.nodup_cons.mpr ⟨fun hk => ?_, hnd⟩, fun key hkey => ?_⟩
    · obtain ⟨x, ⟨hlt, content, hd⟩, -⟩ := hks k hk
      exact (drop_eq_some hd).1 rfl
    · rcases List.mem_cons.mp hkey with rfl | hkey
      · refine ⟨expiry, he.1, fun key' expiry' hd => ?_⟩
        obtain ⟨-, content, hs⟩ := hd
        rw [hr.eq] at hs
        split_ifs at hs with hin
        exact he.2 key' content expiry' (drop_eq_some hs).2
      · obtain ⟨x, ⟨hlt, content, hd⟩, hle⟩ := hks key hkey
        exact ⟨x, ⟨hlt, content, (drop_eq_some hd).2⟩, hle⟩

/-- What a command may do to a store: one key is dropped, or is put with no time, the time that it
had, or the time that is set. -/
inductive Changes (now : ℕ) (σ : Store) (c : Command) : Store → Prop
  | dropped (key : Bytes) : Changes now σ c (drop σ key)
  | put {key : Bytes} {content : Content} {expiry : Option ℕ}
    (times : ∀ t, expiry = some t → (∃ content', σ key = some ⟨content', some t⟩) ∨
      ∃ ttl, c = .pexpire key ttl ∧ t = now + ttl.toNat) :
    Changes now σ c (put σ key content expiry)

section Changes

variable {now : ℕ} {σ σ' : Store} {c : Command} {v : Value} {key : Bytes}

lemma Changes.fresh (content : Content) : Changes now σ c (KeySpace.put σ key content none) :=
  .put nofun

lemma Changes.kept {content' : Content} {expiry : Option ℕ} (h : σ key = some ⟨content', expiry⟩)
    (content : Content) : Changes now σ c (KeySpace.put σ key content expiry) := by
  refine .put ?_
  rintro t rfl
  exact .inl ⟨content', h⟩

lemma Reference.changes (h : Reference now σ c v σ') :
    σ' = σ ∨ (v = .nil ∨ ∃ n, v = .int n) ∧ Changes now σ c σ' := by
  cases c with
  | get | keys | zscore | pttl => exact .inl h.1
  | set key val =>
    simp only [Reference] at h
    split at h
    · exact .inr ⟨.inl h.1, h.2 ▸ .fresh _⟩
    next hs => exact .inr ⟨.inl h.1, h.2 ▸ .kept hs _⟩
    · exact .inl h.2
  | del key =>
    simp only [Reference] at h
    split at h
    · exact .inl h.2
    · exact .inr ⟨.inr ⟨_, h.1⟩, h.2 ▸ .dropped key⟩
  | zadd key score name =>
    simp only [Reference] at h
    split at h
    · exact .inr ⟨.inr ⟨_, h.1⟩, h.2 ▸ .fresh _⟩
    next hs => exact .inr ⟨.inr ⟨_, h.1⟩, h.2 ▸ .kept hs _⟩
    · exact .inl h.2
  | zrem key name =>
    simp only [Reference] at h
    split at h
    · exact .inl h.2
    next hs => exact .inr ⟨.inr ⟨_, h.1⟩, h.2 ▸ .kept hs _⟩
    · exact .inl h.2
  | pexpire key ttl =>
    simp only [Reference] at h
    split at h
    · exact .inl h.2
    · refine .inr ⟨.inr ⟨_, h.1⟩, h.2 ▸ .put fun t ht => .inr ⟨ttl, rfl, ?_⟩⟩
      split_ifs at ht
      exact (Option.some.inj ht).symm

lemma Reference.small (h : Reference now σ c v σ') : σ' = σ ∨ v = .nil ∨ ∃ n, v = .int n := by
  rcases h.changes with hsame | ⟨hv, -⟩
  · exact .inl hsame
  · exact .inr hv

end Changes

/-! ### Expiration times -/

/-- The expiration times are no further away than a `ttl` can set them. -/
def Near (now : ℕ) (σ : Store) : Prop :=
  ∀ key c t, σ key = some ⟨c, some t⟩ → t < now + 2 ^ 63

variable {σ σ' : Store} {now : ℕ}

lemma Near.later {now' : ℕ} (h : Near now σ) (hle : now ≤ now') : Near now' σ := by
  intro key c t hs
  have := h key c t hs
  omega

lemma Near.put (h : Near now σ) {key : Bytes} {c : Content} {expiry : Option ℕ}
    (hx : ∀ t, expiry = some t → t < now + 2 ^ 63) : Near now (put σ key c expiry) := by
  intro k c' t hs
  unfold KeySpace.put at hs
  by_cases hk : k = key
  · rw [hk, Function.update_self, Option.some.injEq] at hs
    exact hx t (Item.mk.inj hs).2
  · rw [Function.update_of_ne hk] at hs
    exact h k c' t hs

lemma Near.sub (h : Near now σ) (hsub : ∀ key, σ' key = none ∨ σ' key = σ key) : Near now σ' := by
  intro key c t hs
  rcases hsub key with hk | hk
  · rw [hk] at hs
    simp at hs
  · exact h key c t (hk ▸ hs)

lemma Near.drop (h : Near now σ) (key : Bytes) : Near now (drop σ key) := by
  refine h.sub fun k => ?_
  unfold KeySpace.drop
  by_cases hk : k = key
  · rw [hk]
    exact .inl (Function.update_self ..)
  · exact .inr (Function.update_of_ne hk ..)

lemma Near.expires {most bound : ℕ} (h : Near bound σ) (hx : Expires most now σ σ') :
    Near bound σ' := by
  obtain ⟨ks, -, -, hks, -⟩ := hx
  refine h.sub fun key => ?_
  rw [hks]
  split_ifs
  · exact .inl rfl
  · exact .inr rfl

lemma Near.reference {bound : ℕ} (h : Near bound σ) (hle : now ≤ bound) {c : Command} {v : Value}
    (hr : Reference now σ c v σ') (hc : ∀ key ttl, c = .pexpire key ttl → ttl < 2 ^ 63) :
    Near bound σ' := by
  rcases hr.changes with rfl | ⟨-, hchange⟩
  · exact h
  · cases hchange with
    | dropped key => exact h.drop key
    | @put key content expiry times =>
      refine h.put fun t ht => ?_
      rcases times t ht with ⟨content', hs⟩ | ⟨ttl, rfl, rfl⟩
      · exact h key content' t hs
      · have := hc key ttl rfl
        omega

end ByoRedis.KeySpace
