import ByoRedis.Commands
import ByoRedis.HashSpec
import ByoRedis.KeySpace
import ByoRedis.SortedSetSpec
import ByoRedis.TimerSpec

/-!
The database stands for a store.

`Inv` links the hash map, the entries and the heap of timers. It says nothing of where a hash
node is in its table, how far a migration has come, or where an item is in the heap.
-/

namespace ByoRedis.DatabaseSpec

open ByoRedis.Basic ByoRedis.HashTable ByoRedis.HashSpec ByoRedis.Heap ByoRedis.SortedSet
open ByoRedis.SortedSetSpec ByoRedis.Database ByoRedis.TimerSpec ByoRedis.Commands
open ByoRedis.KeySpace ByoRedis.Lib.Runs

/-- What an entry holds. -/
inductive Is (e : Entry) : Content → Prop
  | str (h : e.type = .str) : Is e (.str e.str)
  | zset {t : BinaryTree Addr} {m : Bytes → Option Score} (h : e.type = .zset)
    (wf : Wf e.zset t) (holds : Holds e.zset m) : Is e (.zset m)

/-- The entries linked in the database. -/
def live (g : GlobalData) : List Addr := (nodes g.db).map HNode.ref

structure Inv (g : GlobalData) : Prop where
  table : WF g.db
  once : (live g).Nodup
  linked : ∀ n ∈ nodes g.db, ∃ e c, g.ents n.ref = some e ∧ n.hcode = e.hcode ∧
    e.hcode = strHash e.key ∧ Is e c
  keys : ∀ a ∈ live g, ∀ b ∈ live g, ∀ e e', g.ents a = some e → g.ents b = some e' →
    e.key = e'.key → a = b
  fresh : ∀ a e, g.ents a = some e → a < g.fresh
  timed : Timed g.heap (live g)

/-- The entry of a key. -/
structure At (g : GlobalData) (key : Bytes) (a : Addr) (e : Entry) : Prop where
  live : a ∈ live g
  ent : g.ents a = some e
  key : e.key = key

lemma At.deref {g : GlobalData} {key : Bytes} {a : Addr} {e : Entry} (h : At g key a e) :
    g.deref a = .ok e := by
  simp [GlobalData.deref, h.ent]

/-- A database that stands for a store. -/
structure Good (g : GlobalData) (σ : Store) : Prop extends Inv g where
  holds : ∀ key item, σ key = some item ↔
    ∃ a e, At g key a e ∧ Is e item.content ∧ Deadline g.heap a item.expiry

lemma good_empty : Good {} fun _ => none := by
  refine ⟨⟨HashSpec.wf_empty, ?_, ?_, ?_, ?_, timed_empty⟩, ?_⟩
  · simp [live]
  · simp
  · simp [live]
  · simp
  · intro key item
    constructor
    · intro h
      simp at h
    · rintro ⟨a, e, hat, -⟩
      have := hat.live
      simp [live] at this

lemma Is.unique {e : Entry} {c c' : Content} (h : Is e c) (h' : Is e c') : c = c' := by
  cases h with
  | str h =>
    cases h' with
    | str h' => rfl
    | zset h' w hm =>
      rw [h] at h'
      simp at h'
  | zset h w hm =>
    cases h' with
    | str h' =>
      rw [h] at h'
      simp at h'
    | zset h' w' hm' => rw [hm.unique hm']

lemma Is.str_eq {e : Entry} {c : Content} (h : Is e c) (ht : e.type = .str) : c = .str e.str :=
  h.unique (.str ht)

/-- An entry of any other type than a string is a sorted set. -/
lemma Is.zset_of_ne {e : Entry} {c : Content} (h : Is e c) (ht : e.type ≠ .str) :
    e.type = .zset ∧ ∃ t m, Wf e.zset t ∧ Holds e.zset m ∧ c = .zset m := by
  cases h with
  | str h => exact absurd h ht
  | zset h w hm => exact ⟨h, _, _, w, hm, rfl⟩

lemma Inv.exists_is {g : GlobalData} (hg : Inv g) {key : Bytes} {a : Addr} {e : Entry}
    (hat : At g key a e) : e.hcode = strHash key ∧ ∃ c, Is e c := by
  obtain ⟨n, hn, rfl⟩ := List.mem_map.mp hat.live
  obtain ⟨e', c, he, -, hcode, hc⟩ := hg.linked n hn
  obtain rfl : e' = e := Option.some.inj (he.symm.trans hat.ent)
  exact ⟨by rw [hcode, hat.key], c, hc⟩

lemma Inv.exists_at {g : GlobalData} (hg : Inv g) {a : Addr} (ha : a ∈ live g) :
    ∃ e, At g e.key a e := by
  obtain ⟨n, hn, rfl⟩ := List.mem_map.mp ha
  obtain ⟨e, c, he, -⟩ := hg.linked n hn
  exact ⟨e, ha, he, rfl⟩

lemma Inv.exists_deadline {g : GlobalData} (hg : Inv g) {a : Addr} (ha : a ∈ live g) :
    ∃ expiry, Deadline g.heap a expiry := by
  rcases hg.timed.deadline ha with ⟨-, hd⟩ | ⟨i, t, -, -, hd⟩
  · exact ⟨_, hd⟩
  · exact ⟨_, hd⟩

lemma Inv.at_unique {g : GlobalData} (hg : Inv g) {key : Bytes} {a b : Addr} {e e' : Entry}
    (h : At g key a e) (h' : At g key b e') : a = b ∧ e = e' := by
  have hab : a = b := hg.keys a h.live b h'.live e e' h.ent h'.ent (h.key.trans h'.key.symm)
  subst hab
  exact ⟨rfl, Option.some.inj (h.ent.symm.trans h'.ent)⟩

lemma Good.get {g : GlobalData} {σ : Store} (hg : Good g σ) {key : Bytes} {a : Addr} {e : Entry}
    (hat : At g key a e) :
    ∃ c expiry, Is e c ∧ Deadline g.heap a expiry ∧ σ key = some ⟨c, expiry⟩ := by
  obtain ⟨-, c, hc⟩ := hg.exists_is hat
  obtain ⟨expiry, hd⟩ := hg.exists_deadline hat.live
  exact ⟨c, expiry, hc, hd, (hg.holds key ⟨c, expiry⟩).mpr ⟨a, e, hat, hc, hd⟩⟩

lemma Good.none_iff {g : GlobalData} {σ : Store} (hg : Good g σ) (key : Bytes) :
    σ key = none ↔ ∀ a e, ¬ At g key a e := by
  constructor
  · intro hn a e hat
    obtain ⟨c, expiry, -, -, hs⟩ := hg.get hat
    rw [hn] at hs
    simp at hs
  · intro hno
    cases hs : σ key with
    | none => rfl
    | some item =>
      obtain ⟨a, e, hat, -⟩ := (hg.holds key item).mp hs
      exact absurd hat (hno a e)

/-- A database stands for one store. -/
lemma Good.unique {g : GlobalData} {σ σ' : Store} (h : Good g σ) (h' : Good g σ') : σ = σ' := by
  funext key
  refine Option.ext fun item => ?_
  rw [h.holds key item, h'.holds key item]

lemma Inv.exists_good {g : GlobalData} (hg : Inv g) : ∃ σ, Good g σ := by
  classical
  refine ⟨fun key => if h : ∃ item : Item, ∃ a e, At g key a e ∧ Is e item.content ∧
    Deadline g.heap a item.expiry then some h.choose else none, hg, fun key item => ?_⟩
  by_cases h : ∃ item : Item, ∃ a e, At g key a e ∧ Is e item.content ∧
      Deadline g.heap a item.expiry
  · rw [dif_pos h, Option.some.injEq]
    have hs := h.choose_spec
    generalize h.choose = item' at hs
    obtain ⟨a, e, hat, hc, hd⟩ := hs
    constructor
    · rintro rfl
      exact ⟨a, e, hat, hc, hd⟩
    · rintro ⟨b, e', hat', hc', hd'⟩
      obtain ⟨rfl, rfl⟩ := hg.at_unique hat hat'
      obtain ⟨c, x⟩ := item
      obtain ⟨c', x'⟩ := item'
      dsimp only at hc hc' hd hd'
      rw [hc.unique hc', hd.unique hd']
  · rw [dif_neg h]
    constructor
    · intro hs
      simp at hs
    · intro hs
      exact absurd ⟨item, hs⟩ h

/-! ### One key -/

lemma Good.change {g g' : GlobalData} {σ : Store} (hg : Good g σ) (hi : Inv g') {key : Bytes}
    {r : Option Item} (hkey : ∀ item, r = some item ↔
      ∃ a e, At g' key a e ∧ Is e item.content ∧ Deadline g'.heap a item.expiry)
    (hothers : ∀ {k b f}, k ≠ key → (At g' k b f ↔ At g k b f))
    (hkeep : ∀ {k b f x}, k ≠ key → At g k b f → Deadline g.heap b x → Deadline g'.heap b x) :
    Good g' (Function.update σ key r) := by
  refine ⟨hi, fun k item => ?_⟩
  by_cases hk : k = key
  · subst hk
    rw [Function.update_self]
    exact hkey item
  · rw [Function.update_of_ne hk, hg.holds k item]
    refine exists_congr fun b => exists_congr fun f => ?_
    rw [hothers hk]
    refine and_congr_right fun h => and_congr_right fun _ => ⟨hkeep hk h, fun hd => ?_⟩
    obtain ⟨x, hx⟩ := hg.toInv.exists_deadline h.live
    rw [hd.unique (hkeep hk h hx)]
    exact hx

lemma Good.change_put {g g' : GlobalData} {σ : Store} (hg : Good g σ) (hi : Inv g') {key : Bytes}
    {a : Addr} {e : Entry} (hat : At g' key a e) {c : Content} (hc : Is e c) {expiry : Option ℕ}
    (hd : Deadline g'.heap a expiry)
    (hothers : ∀ {k b f}, k ≠ key → (At g' k b f ↔ At g k b f))
    (hkeep : ∀ {k b f x}, k ≠ key → At g k b f → Deadline g.heap b x → Deadline g'.heap b x) :
    Good g' (put σ key c expiry) := by
  refine hg.change hi (fun item => ?_) hothers hkeep
  rw [Option.some.injEq]
  constructor
  · rintro rfl
    exact ⟨a, e, hat, hc, hd⟩
  · rintro ⟨b, f, h, hc', hd'⟩
    obtain ⟨rfl, rfl⟩ := hi.at_unique hat h
    obtain ⟨c', x⟩ := item
    dsimp only at hc' hd'
    rw [hc.unique hc', hd.unique hd']

/-! ### Searching -/

lemma entryEq_iff {ents : Addr → Option Entry} {n : HNode Addr} {key : HNode Bytes} :
    entryEq ents n key = true ↔ ∃ e, ents n.ref = some e ∧ e.key = key.ref := by
  unfold entryEq
  cases ents n.ref with
  | none => simp
  | some e => simp

lemma at_of_matches {g : GlobalData} {key : Bytes} {n : HNode Addr} (hn : n ∈ nodes g.db)
    (h : Matches (entryEq g.ents) (lookupKey key) n) : ∃ e, At g key n.ref e := by
  obtain ⟨e, he, hk⟩ := entryEq_iff.mp h.2
  exact ⟨e, List.mem_map_of_mem hn, he, hk⟩

lemma Inv.not_at {g : GlobalData} (hg : Inv g) {key : Bytes}
    (h : ∀ n ∈ nodes g.db, ¬ Matches (entryEq g.ents) (lookupKey key) n) (a : Addr) (e : Entry) :
    ¬ At g key a e := by
  intro hat
  obtain ⟨n, hn, rfl⟩ := List.mem_map.mp hat.live
  obtain ⟨e', c, he, hcode, hhash, -⟩ := hg.linked n hn
  obtain rfl : e' = e := Option.some.inj (he.symm.trans hat.ent)
  refine h n hn ⟨?_, entryEq_iff.mpr ⟨e', he, hat.key⟩⟩
  rw [hcode, hhash, hat.key]
  rfl

lemma Good.rehashed {g : GlobalData} {σ : Store} (hg : Good g σ) {db : HMap Addr} (w : WF db)
    (hp : (nodes db).Perm (nodes g.db)) : Good { g with db := db } σ := by
  have hlive : (live { g with db := db }).Perm (live g) := hp.map _
  have hat : ∀ {key a e}, At { g with db := db } key a e ↔ At g key a e := fun {key a e} =>
    ⟨fun h => ⟨hlive.mem_iff.mp h.live, h.ent, h.key⟩,
      fun h => ⟨hlive.mem_iff.mpr h.live, h.ent, h.key⟩⟩
  refine ⟨⟨w, hlive.nodup_iff.mpr hg.once, fun n hn => hg.linked n (hp.mem_iff.mp hn),
    fun a ha b hb => hg.keys a (hlive.mem_iff.mp ha) b (hlive.mem_iff.mp hb), hg.fresh, ?_⟩, ?_⟩
  · exact ⟨hg.timed.heaped, fun x hx => hlive.mem_iff.mpr (hg.timed.owned x hx),
      fun ent he => hg.timed.idle ent (hlive.mem_iff.mp he)⟩
  · intro key item
    simp only [hat]
    exact hg.holds key item

/-- **Looking a key up** finds its entry, and changes where hash nodes are only. -/
theorem findEntry_spec {g : GlobalData} {σ : Store} (hg : Good g σ) (key : Bytes) :
    ∃ db r, findEntry g key = .ok ({ g with db := db }, r) ∧ Good { g with db := db } σ ∧
      match r with
      | some a => ∃ e, At { g with db := db } key a e
      | none => σ key = none := by
  obtain ⟨db, r, he, w, hp, hr⟩ := hmLookup_spec hg.table (lookupKey key) (entryEq g.ents)
  have hg' := hg.rehashed w hp
  refine ⟨db, r.map HNode.ref, ?_, hg', ?_⟩
  · unfold findEntry
    rw [he]
    rfl
  · cases r with
    | none => exact (hg.none_iff key).mpr (hg.toInv.not_at hr)
    | some n => exact at_of_matches (hp.mem_iff.mpr hr.1) hr.2

/-! ### Changing a value -/

lemma Good.setEntry {g : GlobalData} {σ : Store} (hg : Good g σ) {key : Bytes} {a : Addr}
    {e e' : Entry} (hat : At g key a e) {c : Content} (hc : Is e' c) (hkey : e'.key = e.key)
    (hcode : e'.hcode = e.hcode) {expiry : Option ℕ} (hd : Deadline g.heap a expiry) :
    Good (g.setEntry a e') (put σ key c expiry) := by
  have hself : (g.setEntry a e').ents a = some e' := Function.update_self ..
  have hother : ∀ b, b ≠ a → (g.setEntry a e').ents b = g.ents b := fun b hb =>
    Function.update_of_ne hb ..
  have hold : ∀ b f, (g.setEntry a e').ents b = some f → ∃ f', g.ents b = some f' ∧
      f'.key = f.key := by
    intro b f hf
    by_cases hb : b = a
    · subst hb
      rw [hself, Option.some.injEq] at hf
      exact ⟨e, hat.ent, by rw [← hf, hkey]⟩
    · rw [hother b hb] at hf
      exact ⟨f, hf, rfl⟩
  have hi : Inv (g.setEntry a e') := by
    refine ⟨hg.table, hg.once, fun n hn => ?_, fun b hb b' hb' f f' hf hf' hk => ?_,
      fun b f hf => ?_, hg.timed⟩
    · obtain ⟨f, c', hf, hn', hh, hc'⟩ := hg.linked n hn
      by_cases hb : n.ref = a
      · refine ⟨e', c, by rw [hb, hself], ?_, ?_, hc⟩
        · obtain rfl : f = e := Option.some.inj (hf.symm.trans (hb ▸ hat.ent))
          rw [hn', hcode]
        · rw [hcode, hkey, hat.key]
          exact (hg.toInv.exists_is hat).1
      · exact ⟨f, c', by rw [hother _ hb, hf], hn', hh, hc'⟩
    · obtain ⟨f₁, h₁, k₁⟩ := hold b f hf
      obtain ⟨f₂, h₂, k₂⟩ := hold b' f' hf'
      exact hg.keys b hb b' hb' f₁ f₂ h₁ h₂ (by rw [k₁, k₂, hk])
    · obtain ⟨f', h', -⟩ := hold b f hf
      exact hg.fresh b f' h'
  refine hg.change_put hi ⟨hat.live, hself, by rw [hkey, hat.key]⟩ hc hd (fun {k b f} hk => ?_)
    fun _ _ hd => hd
  constructor
  · intro h
    refine ⟨h.live, ?_, h.key⟩
    rw [← hother b, h.ent]
    rintro rfl
    have hf := Option.some.inj (hself.symm.trans h.ent)
    exact hk (by rw [← h.key, ← hf, hkey, hat.key])
  · intro h
    refine ⟨h.live, ?_, h.key⟩
    rw [hother b, h.ent]
    rintro rfl
    have hf := Option.some.inj (h.ent.symm.trans hat.ent)
    exact hk (by rw [← h.key, hf, hat.key])

/-! ### New entries -/

/-- The database with an entry linked in at an address that was never used. -/
def linkEntry (g : GlobalData) (db : HMap Addr) (e : Entry) : GlobalData :=
  { g with
    db := db
    heap := { g.heap with idx := Function.update g.heap.idx g.fresh none }
    ents := Function.update g.ents g.fresh (some e)
    fresh := g.fresh + 1 }

section Link

variable {g : GlobalData} {db : HMap Addr} {e : Entry}

lemma linkEntry_fresh : (linkEntry g db e).ents g.fresh = some e := Function.update_self ..

lemma linkEntry_ents {b : Addr} (hb : b ≠ g.fresh) : (linkEntry g db e).ents b = g.ents b :=
  Function.update_of_ne hb ..

lemma Inv.fresh_notMem (hg : Inv g) : g.fresh ∉ live g := by
  intro hm
  obtain ⟨e, hat⟩ := hg.exists_at hm
  exact Nat.lt_irrefl _ (hg.fresh _ e hat.ent)

lemma Inv.ne_fresh (hg : Inv g) {b : Addr} (hb : b ∈ live g) : b ≠ g.fresh := by
  rintro rfl
  exact hg.fresh_notMem hb

lemma live_linkEntry (hp : (nodes db).Perm (⟨e.hcode, g.fresh⟩ :: nodes g.db)) :
    (live (linkEntry g db e)).Perm (g.fresh :: live g) := hp.map _

lemma at_linkEntry (hg : Inv g) (hp : (nodes db).Perm (⟨e.hcode, g.fresh⟩ :: nodes g.db))
    {k : Bytes} {b : Addr} {f : Entry} :
    At (linkEntry g db e) k b f ↔ (k = e.key ∧ b = g.fresh ∧ f = e) ∨ At g k b f := by
  have hlive := live_linkEntry hp
  constructor
  · intro h
    have hf := h.ent
    rcases List.mem_cons.mp (hlive.mem_iff.mp h.live) with rfl | hb
    · rw [linkEntry_fresh, Option.some.injEq] at hf
      exact .inl ⟨by rw [hf, h.key], rfl, hf.symm⟩
    · rw [linkEntry_ents (hg.ne_fresh hb)] at hf
      exact .inr ⟨hb, hf, h.key⟩
  · rintro (⟨rfl, rfl, rfl⟩ | h)
    · exact ⟨hlive.mem_iff.mpr List.mem_cons_self, linkEntry_fresh, rfl⟩
    · refine ⟨hlive.mem_iff.mpr (List.mem_cons_of_mem _ h.live), ?_, h.key⟩
      rw [linkEntry_ents (hg.ne_fresh h.live), h.ent]

lemma Inv.linkEntry (hg : Inv g) (w : WF db)
    (hp : (nodes db).Perm (⟨e.hcode, g.fresh⟩ :: nodes g.db)) (hcode : e.hcode = strHash e.key)
    {c : Content} (hc : Is e c) (hno : ∀ b f, ¬ At g e.key b f) : Inv (linkEntry g db e) := by
  have hlive := live_linkEntry hp
  refine ⟨w, ?_, fun n hn => ?_, fun b hb b' hb' f f' hf hf' hk => ?_, fun b f hf => ?_,
    hg.timed.allocate hg.fresh_notMem hlive⟩
  · rw [hlive.nodup_iff]
    exact List.nodup_cons.mpr ⟨hg.fresh_notMem, hg.once⟩
  · rcases List.mem_cons.mp (hp.mem_iff.mp hn) with rfl | hn
    · exact ⟨e, c, linkEntry_fresh, rfl, hcode, hc⟩
    · obtain ⟨f, c', hf, hlinked⟩ := hg.linked n hn
      refine ⟨f, c', ?_, hlinked⟩
      rw [linkEntry_ents (hg.ne_fresh (List.mem_map_of_mem hn)), hf]
  · rcases (at_linkEntry hg hp).mp ⟨hb, hf, rfl⟩ with ⟨h1, rfl, rfl⟩ | h1
    · rcases (at_linkEntry hg hp).mp ⟨hb', hf', rfl⟩ with ⟨h2, rfl, rfl⟩ | h2
      · rfl
      · exact absurd ⟨h2.live, h2.ent, hk.symm⟩ (hno b' f')
    · rcases (at_linkEntry hg hp).mp ⟨hb', hf', rfl⟩ with ⟨h2, rfl, rfl⟩ | h2
      · exact absurd ⟨h1.live, h1.ent, hk⟩ (hno b f)
      · exact (hg.at_unique h1 ⟨h2.live, h2.ent, hk.symm⟩).1
  · by_cases hb : b = g.fresh
    · rw [hb]
      exact Nat.lt_succ_self _
    · rw [linkEntry_ents hb] at hf
      exact Nat.lt_succ_of_lt (hg.fresh b f hf)

end Link

/-- **A new entry** under a key that has none. -/
theorem addEntry_spec {g : GlobalData} {σ : Store} (hg : Good g σ) {key : Bytes}
    (hno : σ key = none) (type : EntryType) (val : Bytes) :
    ∃ g' a, addEntry g type key val = .ok (g', a) ∧
      At g' key a ⟨strHash key, key, type, val, {}⟩ ∧ Deadline g'.heap a none ∧
      ∀ c, Is ⟨strHash key, key, type, val, {}⟩ c → Good g' (put σ key c none) := by
  obtain ⟨db, he, w, hp⟩ := hmInsert_spec hg.table ⟨strHash key, g.fresh⟩
  obtain ⟨e, hdef⟩ : ∃ e : Entry, e = ⟨strHash key, key, type, val, {}⟩ := ⟨_, rfl⟩
  have hkey : e.key = key := by rw [hdef]
  have hcode : e.hcode = strHash key := by rw [hdef]
  rw [← hcode] at hp
  have hadd : addEntry g type key val = .ok (linkEntry g db e, g.fresh) := by
    unfold addEntry entryNew GlobalData.deref GlobalData.setEntry
    simp only [Function.update_self, pure_eq_ok, ok_bind, he, Function.update_idem, linkEntry, hdef]
  have hat : At (linkEntry g db e) key g.fresh e :=
    (at_linkEntry hg.toInv hp).mpr (.inl ⟨hkey.symm, rfl, rfl⟩)
  have hnone : Deadline g.heap g.fresh none := fun t =>
    ⟨fun h => by simp at h, fun h => absurd (hg.timed.owned _ h) hg.toInv.fresh_notMem⟩
  rw [← hdef]
  refine ⟨_, _, hadd, hat, hnone, fun c hc => ?_⟩
  have hi : Inv (linkEntry g db e) := by
    refine hg.toInv.linkEntry w hp (by rw [hcode, hkey]) hc ?_
    rw [hkey]
    exact (hg.none_iff key).mp hno
  refine hg.change_put hi hat hc hnone (fun {k b f} hk => ?_) fun _ _ hd => hd
  rw [at_linkEntry hg.toInv hp, hkey]
  simp [hk]

/-! ### Expiration times -/

/-- **`entry_set_ttl`** changes when one key expires. -/
theorem setTtl_spec {g : GlobalData} {σ : Store} (hg : Good g σ) {key : Bytes} {a : Addr}
    {e : Entry} (hat : At g key a e) (clock : Timespec) (ttl : ℤ) {c : Content} (hc : Is e c) :
    ∃ g', entrySetTtl g clock a ttl = .ok g' ∧ Good g' (put σ key c (expireAt clock ttl)) := by
  obtain ⟨heap, he, ht, hd, hkeep⟩ := entrySetTtl_spec hg.timed hat.live clock ttl
  have hat' : ∀ {k b f}, At { g with heap := heap } k b f ↔ At g k b f := fun {k b f} =>
    ⟨fun h => ⟨h.live, h.ent, h.key⟩, fun h => ⟨h.live, h.ent, h.key⟩⟩
  have hi : Inv { g with heap := heap } :=
    ⟨hg.table, hg.once, hg.linked, hg.keys, hg.fresh, ht⟩
  refine ⟨_, he, hg.change_put hi (hat'.mpr hat) hc hd (fun _ => hat') ?_⟩
  intro k b f x hk h hx
  refine hkeep b x ?_ hx
  rintro rfl
  have hf := Option.some.inj (h.ent.symm.trans hat.ent)
  exact hk (by rw [← h.key, hf, hat.key])

/-! ### Deletion -/

lemma Good.remove {g g' : GlobalData} {σ : Store} (hg : Good g σ) {key : Bytes} {e : Entry}
    {n : HNode Addr} (hat : At g key n.ref e) (w : WF g'.db)
    (hp : (nodes g.db).Perm (n :: nodes g'.db)) (hents : ∀ b, b ≠ n.ref → g'.ents b = g.ents b)
    (hsub : ∀ b f, g'.ents b = some f → g.ents b = some f) (hfresh : g'.fresh = g.fresh)
    (ht : Timed g'.heap (live g'))
    (hkeep : ∀ r x, r ≠ n.ref → Deadline g.heap r x → Deadline g'.heap r x) :
    Good g' (drop σ key) := by
  have hlive : (live g).Perm (n.ref :: live g') := hp.map _
  obtain ⟨hnot, honce⟩ := List.nodup_cons.mp (hlive.nodup_iff.mp hg.once)
  have hne : ∀ b ∈ live g', b ≠ n.ref := by
    rintro b hb rfl
    exact hnot hb
  have hcases : ∀ {k b f}, At g' k b f ↔ k ≠ key ∧ At g k b f := by
    intro k b f
    constructor
    · intro h
      have h' : At g k b f :=
        ⟨hlive.mem_iff.mpr (List.mem_cons_of_mem _ h.live), hsub b f h.ent, h.key⟩
      refine ⟨?_, h'⟩
      rintro rfl
      exact hne b h.live (hg.toInv.at_unique h' hat).1
    · rintro ⟨hk, h⟩
      rcases List.mem_cons.mp (hlive.mem_iff.mp h.live) with rfl | hb
      · have := Option.some.inj (h.ent.symm.trans hat.ent)
        exact absurd (by rw [← h.key, this, hat.key]) hk
      · exact ⟨hb, by rw [hents b (hne b hb), h.ent], h.key⟩
  have hi : Inv g' := by
    refine ⟨w, honce, fun k hk => ?_, fun b hb b' hb' f f' hf hf' => ?_, fun b f hf => ?_, ht⟩
    · obtain ⟨f, c, hf, h1⟩ := hg.linked k (hp.mem_iff.mpr (List.mem_cons_of_mem _ hk))
      exact ⟨f, c, by rw [hents _ (hne _ (List.mem_map_of_mem hk)), hf], h1⟩
    · exact hg.keys b (hlive.mem_iff.mpr (List.mem_cons_of_mem _ hb)) b'
        (hlive.mem_iff.mpr (List.mem_cons_of_mem _ hb')) f f' (hsub b f hf) (hsub b' f' hf')
    · rw [hfresh]
      exact hg.fresh b f (hsub b f hf)
  refine hg.change hi (fun item => ?_) (fun hk => ?_) fun {k b f x} hk h hd => ?_
  · constructor
    · intro h
      simp at h
    · rintro ⟨b, f, h, -⟩
      exact absurd rfl (hcases.mp h).1
  · rw [hcases]
    exact and_iff_right hk
  · exact hkeep b x (hne b (hcases.mpr ⟨hk, h⟩).live) hd

lemma entryDelSync_spec {g : GlobalData} {a : Addr} {e : Entry} {c : Content}
    (he : g.ents a = some e) (hc : Is e c) :
    entryDelSync g a = .ok { g with ents := Function.update g.ents a none } := by
  unfold entryDelSync GlobalData.deref
  rw [he]
  cases hc with
  | str h => simp [h]
  | zset h w _ =>
    obtain ⟨z', hz, -⟩ := zsetClear_spec w
    simp [h, hz]

/-- **`entry_del`** of an entry unlinked from the hash map. -/
theorem entryDel_spec {g : GlobalData} {σ : Store} (hg : Good g σ) {key : Bytes} {e : Entry}
    {n : HNode Addr} (hat : At g key n.ref e) {db : HMap Addr} (w : WF db)
    (hp : (nodes g.db).Perm (n :: nodes db)) (clock : Timespec) :
    ∃ g', entryDel { g with db := db } clock n.ref = .ok g' ∧ Good g' (drop σ key) := by
  have ht : Timed { g with db := db }.heap (live g) := hg.timed
  obtain ⟨heap, he, hh, hperm, hidx, hf⟩ := clear_spec ht hat.live clock (by omega : (-1 : ℤ) < 0)
  obtain ⟨-, c, hc⟩ := hg.toInv.exists_is hat
  have hlive : (live g).Perm (n.ref :: (nodes db).map HNode.ref) := hp.map _
  have hperm' : heap.a.Perm ([] ++ HeapSpec.others g.heap.a n.ref) := hperm
  have hkeep : ∀ r x, r ≠ n.ref → Deadline g.heap r x → Deadline heap r x := fun r x hne hd =>
    hd.perm hperm' hne (by simp)
  have ht' : Timed heap ((nodes db).map HNode.ref) := by
    refine hg.timed.change hh hperm' (by simp) (fun r hr => ?_) (fun r hr hne => ?_)
      (fun _ => hidx) hf
    · exact hlive.mem_iff.mpr (List.mem_cons_of_mem _ hr)
    · exact (List.mem_cons.mp (hlive.mem_iff.mp hr)).resolve_left hne
  have hremove : ∀ {g' : GlobalData}, g'.db = db → g'.heap = heap → g'.fresh = g.fresh →
      (∀ b, b ≠ n.ref → g'.ents b = g.ents b) →
      (∀ b f, g'.ents b = some f → g.ents b = some f) → Good g' (drop σ key) := by
    intro g' hdb hheap hfresh hents hsub
    refine hg.remove hat (by rw [hdb]; exact w) (by rw [hdb]; exact hp) hents hsub hfresh ?_ ?_
    · unfold live
      rw [hheap, hdb]
      exact ht'
    · rw [hheap]
      exact hkeep
  obtain ⟨g₁, hg₁⟩ : ∃ g₁ : GlobalData, g₁ = { { g with db := db } with heap := heap } := ⟨_, rfl⟩
  have hents : g₁.ents = g.ents := by rw [hg₁]
  have hent : g₁.ents n.ref = some e := by rw [hents, hat.ent]
  have hdel : entryDel { g with db := db } clock n.ref =
      if largeContainerSize < (if e.type = .zset then hmSize e.zset.hmap else 0) then
        .ok { g₁ with queue := g₁.queue ++ [n.ref] }
      else entryDelSync g₁ n.ref := by
    unfold entryDel GlobalData.deref
    rw [he, ok_bind, ← hg₁, hent]
    rfl
  generalize (if e.type = .zset then hmSize e.zset.hmap else 0) = setSize at hdel
  rw [hdel]
  split_ifs with hlarge
  · refine ⟨_, rfl, hremove (by rw [hg₁]) (by rw [hg₁]) (by rw [hg₁])
      (fun b _ => congrFun hents b) fun b f hb => ?_⟩
    rw [← hents]
    exact hb
  · refine ⟨_, entryDelSync_spec hent hc, hremove (by rw [hg₁]) (by rw [hg₁]) (by rw [hg₁])
      (fun b hb => ?_) fun b f hb => ?_⟩
    · rw [← hents]
      exact Function.update_of_ne hb ..
    · rw [← hents]
      dsimp only at hb
      by_cases hbn : b = n.ref
      · subst hbn
        simp at hb
      · rwa [Function.update_of_ne hbn] at hb

end ByoRedis.DatabaseSpec
