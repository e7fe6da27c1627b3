import Mathlib.Data.Set.Card
import ByoRedis.MainLoop

/-!
Keys that are due are removed soon.

One round of timers removes no more than `k_max_works + 1` keys, the earliest first. Of the keys
that expire no later than a key that is due there are never more, whatever the clients do: a time
that is set is not in the past. And the loop does not sleep as long as there is such a key.
-/

namespace ByoRedis.Punctual

open ByoRedis.Basic ByoRedis.Heap ByoRedis.Database ByoRedis.DatabaseSpec ByoRedis.KeySpace
open ByoRedis.Dispatch ByoRedis.Commands ByoRedis.CommandSpec ByoRedis.ExpireSpec ByoRedis.Conn
open ByoRedis.ConnSpec ByoRedis.StoreRuns
open ByoRedis.EventLoop ByoRedis.Registry ByoRedis.LoopRuns ByoRedis.Timeout ByoRedis.MainLoop
open ByoRedis.Proto ByoRedis.Tlv ByoRedis.RequestSpec ByoRedis.Lib.Frames ByoRedis.Lib.Runs

/-- The keys that expire at this time or before. -/
def ahead (σ : Store) (x : ℕ) : Set Bytes := {k | ∃ c t, σ k = some ⟨c, some t⟩ ∧ t ≤ x}

def ExpiresAt (σ : Store) (key : Bytes) (x : ℕ) : Prop := ∃ c, σ key = some ⟨c, some x⟩

variable {strtod : Bytes → UInt64 × ℕ} {g g' : GlobalData} {σ σ' : Store} {key : Bytes}
  {x now now' : ℕ} {c : Command} {v : Value}

/-! ### One step -/

/-- A key that a command puts keeps its time, or has none, or one that is not in the past. -/
lemma ahead_reference (hr : Reference now σ c v σ') (hx : x < now) : ahead σ' x ⊆ ahead σ x := by
  rcases hr.changes with rfl | ⟨-, hchange⟩
  · exact subset_rfl
  rintro k ⟨content, t, hk, ht⟩
  cases hchange with
  | dropped key =>
    obtain ⟨-, hk⟩ := drop_eq_some hk
    exact ⟨content, t, hk, ht⟩
  | @put key content' expiry times =>
    unfold KeySpace.put at hk
    by_cases hkey : k = key
    · rw [hkey, Function.update_self, Option.some.injEq] at hk
      rcases times t (Item.mk.inj hk).2 with ⟨content'', hs⟩ | ⟨ttl, -, rfl⟩
      · exact ⟨content'', t, hkey ▸ hs, ht⟩
      · omega
    · rw [Function.update_of_ne hkey] at hk
      exact ⟨content, t, hk, ht⟩

lemma expiresAt_reference (hr : Reference now σ c v σ') (hdel : c ≠ .del key)
    (hexp : ∀ ttl, c ≠ .pexpire key ttl) (h : ExpiresAt σ key x) : ExpiresAt σ' key x := by
  obtain ⟨content, hk⟩ := h
  have hput : ∀ {k content' content'' expiry}, σ k = some ⟨content', expiry⟩ →
      ExpiresAt (put σ k content'' expiry) key x := by
    intro k content' content'' expiry hs
    unfold ExpiresAt put
    by_cases hkey : key = k
    · rw [← hkey, hk, Option.some.injEq] at hs
      obtain ⟨-, rfl⟩ := Item.mk.inj hs
      rw [hkey, Function.update_self]
      exact ⟨content'', rfl⟩
    · rw [Function.update_of_ne hkey]
      exact ⟨content, hk⟩
  have hother : ∀ {k} item, key ≠ k → ExpiresAt (Function.update σ k item) key x := by
    intro k item hne
    exact ⟨content, by rw [Function.update_of_ne hne, hk]⟩
  have hnone : ∀ {k}, σ k = none → key ≠ k := by
    rintro k hs rfl
    simp [hk] at hs
  cases c with
  | get | keys | zscore | pttl => exact hr.1 ▸ ⟨content, hk⟩
  | set k val | zadd k _ _ =>
    simp only [Reference] at hr
    split at hr
    next hs => exact hr.2 ▸ hother _ (hnone hs)
    next hs => exact hr.2 ▸ hput hs
    · exact hr.2 ▸ ⟨content, hk⟩
  | zrem k _ =>
    simp only [Reference] at hr
    split at hr
    · exact hr.2 ▸ ⟨content, hk⟩
    next hs => exact hr.2 ▸ hput hs
    · exact hr.2 ▸ ⟨content, hk⟩
  | del k =>
    simp only [Reference] at hr
    split at hr
    · exact hr.2 ▸ ⟨content, hk⟩
    · exact hr.2 ▸ hother _ fun h => hdel (by rw [h])
  | pexpire k ttl =>
    simp only [Reference] at hr
    split at hr
    · exact hr.2 ▸ ⟨content, hk⟩
    · exact hr.2 ▸ hother _ fun h => hexp ttl (by rw [h])

/-- **A round of timers** removes the key, or as many of those ahead of it as it can. -/
lemma ahead_expires {most : ℕ} (he : Expires most now σ σ') (hx : x < now)
    (h : ExpiresAt σ key x) : σ' key = none ∨
      ExpiresAt σ' key x ∧ (ahead σ' x).encard + most ≤ (ahead σ x).encard := by
  obtain ⟨ks, hnodup, -, hks, hdue, hmost⟩ := he
  by_cases hkey : key ∈ ks
  · exact .inl (by rw [hks, if_pos hkey])
  obtain ⟨content, hk⟩ := h
  have hk' : σ' key = some ⟨content, some x⟩ := by rw [hks, if_neg hkey, hk]
  refine .inr ⟨⟨content, hk'⟩, ?_⟩
  have hleft : Due now σ' key x := ⟨hx, content, hk'⟩
  have hgone : ∀ k ∈ ks, k ∈ ahead σ x ∧ k ∉ ahead σ' x := by
    intro k hmem
    obtain ⟨t, ⟨-, c, hs⟩, hle⟩ := hdue k hmem
    refine ⟨⟨c, t, hs, hle key x hleft⟩, ?_⟩
    rintro ⟨c', t', hs', -⟩
    rw [hks, if_pos hmem] at hs'
    cases hs'
  have hstay : ahead σ' x ⊆ ahead σ x := by
    rintro k ⟨c, t, hs, ht⟩
    rw [hks] at hs
    split_ifs at hs
    exact ⟨c, t, hs, ht⟩
  have hdisjoint : Disjoint (ahead σ' x) {k | k ∈ ks} :=
    Set.disjoint_right.mpr fun k hmem => (hgone k hmem).2
  have hcard : ({k | k ∈ ks} : Set Bytes).encard = most := by
    rw [← List.coe_toFinset, Set.encard_coe_eq_coe_finsetCard, List.toFinset_card_of_nodup hnodup,
      hmost ⟨key, x, hleft⟩]
  calc (ahead σ' x).encard + most
    _ = (ahead σ' x ∪ {k | k ∈ ks}).encard := by rw [Set.encard_union_eq hdisjoint, hcard]
    _ ≤ (ahead σ x).encard :=
      Set.encard_le_encard (Set.union_subset hstay fun k hmem => (hgone k hmem).1)

/-- The command deletes the key, or sets its time. -/
def Touches (strtod : Bytes → UInt64 × ℕ) (key : Bytes) (cmd : List Bytes) : Prop :=
  denote strtod cmd = some (.del key) ∨ ∃ ttl, denote strtod cmd = some (.pexpire key ttl)

/-- **A command** leaves the key as it is, and puts no other ahead of it. -/
lemma ahead_command (hg : Good g σ) {clock : Timespec} {cmd : List Bytes} {out : Bytes}
    (he : serve strtod g (.command clock cmd) = .ok (g', out)) (hx : x < getMonotonicMsec clock)
    (hnot : ¬ Touches strtod key cmd) (h : ExpiresAt σ key x) :
    ∃ σ', Good g' σ' ∧ ExpiresAt σ' key x ∧ ahead σ' x ⊆ ahead σ x := by
  obtain ⟨g₁, v, σ', he', hg', ht, -⟩ := serve_command hg strtod clock cmd
  obtain ⟨rfl, -⟩ := Prod.mk.inj (Except.ok.inj (he'.symm.trans he))
  have hr : σ' = σ ∨ ∃ c, denote strtod cmd = some c ∧
      Reference (getMonotonicMsec clock) σ c v σ' := by
    unfold Told at ht
    cases hd : denote strtod cmd with
    | none =>
      rw [hd] at ht
      exact .inl ht
    | some c =>
      rw [hd] at ht
      cases c with
      | pttl k => exact .inl ht.1
      | get | set | del | keys | zadd | zrem | zscore | pexpire => exact .inr ⟨_, rfl, ht⟩
  rcases hr with rfl | ⟨c, hd, hr⟩
  · exact ⟨σ', hg', h, subset_rfl⟩
  · refine ⟨σ', hg', expiresAt_reference hr ?_ ?_ h, ahead_reference hr hx⟩
    · rintro rfl
      exact hnot (.inl hd)
    · rintro ttl rfl
      exact hnot (.inr ⟨ttl, hd⟩)

lemma ahead_commands (hg : Good g σ) {log : List Executed} {outs : List Bytes}
    (he : run (serve strtod) g (opsOf log) = .ok (g', outs))
    (hx : ∀ e ∈ log, x < getMonotonicMsec e.clock) (hnot : ∀ e ∈ log, ¬ Touches strtod key e.cmd)
    (h : ExpiresAt σ key x) :
    ∃ σ', Good g' σ' ∧ ExpiresAt σ' key x ∧ ahead σ' x ⊆ ahead σ x := by
  induction log generalizing g σ outs with
  | nil =>
    obtain ⟨rfl, -⟩ := Prod.mk.inj (Except.ok.inj he)
    exact ⟨σ, hg, h, subset_rfl⟩
  | cons e log ih =>
    rw [List.forall_mem_cons] at hx hnot
    obtain ⟨g₁, out, outs₁, hserve, hrest, -⟩ := run_cons_eq_ok he
    obtain ⟨σ₁, hg₁, h₁, hsub⟩ := ahead_command hg hserve hx.1 hnot.1 h
    obtain ⟨σ', hg', h', hsub'⟩ := ih hg₁ hrest hx.2 hnot.2 h₁
    exact ⟨σ', hg', h', hsub'.trans hsub⟩

/-! ### Rounds -/

/-- A round of the loop, with what it read, what it was given, and what it did. -/
structure Round where
  clock : Timespec
  clock' : Timespec
  waited : Waited
  timeoutMs : ℤ
  outs : List (Option Addr × Seen)

inductive Rounds (strtod : Bytes → UInt64 × ℕ) : State → List Round → State → Prop
  | nil (s : State) : Rounds strtod s [] s
  | cons {s s' s'' : State} {r : Round} {rs : List Round} (hw : Waits strtod s r.clock' r.waited)
    (he : loopRound strtod s r.clock r.clock' r.waited = .ok (s', r.timeoutMs, r.outs))
    (h : Rounds strtod s' rs s'') : Rounds strtod s (r :: rs) s''

/-- By the clocks of a round this time has passed. -/
structure Round.Past (r : Round) (x : ℕ) : Prop where
  waiting : x < getMonotonicMsec r.clock
  timers : x < getMonotonicMsec r.clock'
  commands : ∀ e ∈ executed r.outs, x < getMonotonicMsec e.clock

/-- How many keys a round removes where so many are due. -/
def Round.works (r : Round) : ℕ :=
  match r.waited with
  | .ready _ => maxWorks + 1
  | _ => 0

variable {s s' : State} {a : Addr} {e : Database.Entry} {rs : List Round} {r : Round}

/-- The loop does not wait where a key is due. -/
lemma timeout_of_due (h : EventLoop.Reachable strtod s) (hg : Good s.g σ)
    (hkey : ExpiresAt σ key x) {clock : Timespec} (hx : x < getMonotonicMsec clock) :
    nextTimerMs s clock = .ok 0 := by
  obtain ⟨m, hm, he⟩ := nextTimerMs_spec h clock
  obtain ⟨c, hs⟩ := hkey
  obtain ⟨a, e, -, -, hd⟩ := (hg.holds key _).mp hs
  have hmem : x ∈ deadlines s := .inr ⟨⟨x, a⟩, (hd x).mp rfl, rfl⟩
  rw [he]
  cases hm with
  | never hempty => exact absurd hmem (Set.eq_empty_iff_forall_notMem.mp hempty x)
  | due hleast hlt =>
    have hle := hleast.2 hmem
    rw [if_neg hlt.ne, if_pos (hle.trans hx.le)]

/-- **A round** removes the key, or leaves less keys ahead of it; and it does not wait. -/
lemma ahead_round (h : EventLoop.Reachable strtod s) (hg : Good s.g σ) (hkey : ExpiresAt σ key x)
    (hw : Waits strtod s r.clock' r.waited)
    (he : loopRound strtod s r.clock r.clock' r.waited = .ok (s', r.timeoutMs, r.outs))
    (hpast : r.Past x) (hnot : ∀ e ∈ executed r.outs, ¬ Touches strtod key e.cmd) :
    r.timeoutMs = 0 ∧ EventLoop.Reachable strtod s' ∧ ∃ σ', Good s'.g σ' ∧ (σ' key = none ∨
      ExpiresAt σ' key x ∧ (ahead σ' x).encard + r.works ≤ (ahead σ x).encard) := by
  obtain ⟨clock, clock', waited, timeoutMs, outs⟩ := r
  dsimp only at hw he hnot ⊢
  rcases loopRound_spec h clock hw with ⟨_, -, hend⟩ | ⟨s₁, t, outs₁, hok, ht, hs₁, hdone⟩
  · simp [hend] at he
  obtain ⟨rfl, hrest⟩ := Prod.mk.inj (Except.ok.inj (hok.symm.trans he))
  obtain ⟨rfl, rfl⟩ := Prod.mk.inj hrest
  have htimeout := timeout_of_due h hg hkey hpast.waiting
  refine ⟨Except.ok.inj (ht.symm.trans htimeout), hs₁, ?_⟩
  unfold Round.works
  cases hdone with
  | eintr =>
    refine ⟨σ, hg, .inr ⟨hkey, ?_⟩⟩
    simp
  | ready _ hserve hkeys _ =>
    obtain ⟨σ₁, hg₁, hkey₁, hsub⟩ := ahead_commands hg hserve hpast.commands hnot hkey
    obtain ⟨g₂, σ₂, he₂, hg₂, hexp⟩ := processTtlTimers_spec hg₁ clock'
    obtain rfl := Except.ok.inj (he₂.symm.trans hkeys)
    refine ⟨σ₂, hg₂, (ahead_expires hexp hpast.timers hkey₁).imp id ?_⟩
    rintro ⟨hkey₂, hle⟩
    exact ⟨hkey₂, hle.trans (Set.encard_le_encard hsub)⟩

lemma gone_after (h : EventLoop.Reachable strtod s) (hg : Good s.g σ) (hkey : ExpiresAt σ key x)
    (hr : Rounds strtod s rs s') (hpast : ∀ r ∈ rs, r.Past x)
    (hnot : ∀ r ∈ rs, ∀ y ∈ executed r.outs, ¬ Touches strtod key y.cmd)
    (hmany : (ahead σ x).encard ≤ (rs.map Round.works).sum) :
    ∃ rs₁ rs₂ s₁ σ₁, rs = rs₁ ++ rs₂ ∧ Rounds strtod s rs₁ s₁ ∧ Good s₁.g σ₁ ∧ σ₁ key = none ∧
      ∀ r ∈ rs₁, r.timeoutMs = 0 := by
  induction hr generalizing σ with
  | nil s =>
    -- the key itself is ahead
    obtain ⟨c, hs⟩ := hkey
    have hempty : ahead σ x = ∅ := by simpa using hmany
    exact absurd ⟨c, x, hs, le_rfl⟩ (Set.eq_empty_iff_forall_notMem.mp hempty key)
  | @cons s s' s'' r rs hw he hrs ih =>
    rw [List.forall_mem_cons] at hpast hnot
    obtain ⟨htimeout, hs', σ', hg', hnone | ⟨hkey', hless⟩⟩ :=
      ahead_round h hg hkey hw he hpast.1 hnot.1
    · exact ⟨[r], rs, s', σ', rfl, .cons hw he (.nil s'), hg', hnone, by simpa using htimeout⟩
    · have hmany' : (ahead σ' x).encard ≤ (rs.map Round.works).sum := by
        rw [List.map_cons, List.sum_cons, add_comm, Nat.cast_add] at hmany
        exact (ENat.add_le_add_iff_right (ENat.natCast_ne_top _)).mp (hless.trans hmany)
      obtain ⟨rs₁, rs₂, s₁, σ₁, rfl, hrs₁, hg₁, hnone, htimeouts⟩ :=
        ih hs' hg' hkey' hpast.2 hnot.2 hmany'
      exact ⟨r :: rs₁, rs₂, s₁, σ₁, rfl, .cons hw he hrs₁, hg₁, hnone,
        List.forall_mem_cons.mpr ⟨htimeout, htimeouts⟩⟩

/-- There are no more keys ahead than items in the heap. -/
lemma ahead_le_items (hg : Good g σ) (x : ℕ) :
    (ahead σ x).encard ≤ (g.heap.a.filter fun item => item.val ≤ x).length := by
  have hsub : ahead σ x ⊆ (fun item => ((g.ents item.ref).map Entry.key).getD []) ''
      ((g.heap.a.filter fun item => item.val ≤ x).toFinset : Set (HeapItem Addr)) := by
    rintro k ⟨c, t, hs, ht⟩
    obtain ⟨a, e, hat, -, hd⟩ := (hg.holds k _).mp hs
    refine ⟨⟨t, a⟩, ?_, ?_⟩
    · simpa using ⟨(hd t).mp rfl, ht⟩
    · simp [hat.ent, hat.key]
  calc (ahead σ x).encard
    _ ≤ ((g.heap.a.filter fun item => item.val ≤ x).toFinset : Set (HeapItem Addr)).encard :=
      (Set.encard_le_encard hsub).trans (Set.encard_image_le ..)
    _ = (g.heap.a.filter fun item => item.val ≤ x).toFinset.card :=
      Set.encard_coe_eq_coe_finsetCard _
    _ ≤ (g.heap.a.filter fun item => item.val ≤ x).length := by
      exact_mod_cast List.toFinset_card_le _

/-- **A key that is due is removed soon.** From any state between rounds, when its time has passed,
it is removed after as many rounds as it takes for the items of the heap with that time or an
earlier one, if `k_max_works + 1` of them are removed in each, whatever the clients do but delete
the key or set its time; and until then the loop does not wait. -/
theorem due_key_removed (h : Running strtod s) (he : s.g.ents a = some e)
    (hitem : ⟨x, a⟩ ∈ s.g.heap.a) (hr : Rounds strtod s rs s') (hpast : ∀ r ∈ rs, r.Past x)
    (hnot : ∀ r ∈ rs, ∀ y ∈ executed r.outs, ¬ Touches strtod e.key y.cmd)
    (hmany : (s.g.heap.a.filter fun item => item.val ≤ x).length ≤ (rs.map Round.works).sum) :
    ∃ rs₁ rs₂ s₁ g₁, rs = rs₁ ++ rs₂ ∧ Rounds strtod s rs₁ s₁ ∧
      findEntry s₁.g e.key = .ok (g₁, none) ∧ ∀ r ∈ rs₁, r.timeoutMs = 0 := by
  have hreach := reachable_of_running h
  obtain ⟨σ, hg⟩ := (sound_of_reachable hreach).stands
  have hkey : ExpiresAt σ e.key x := by
    obtain ⟨f, hat⟩ := hg.toInv.exists_at (hg.timed.owned _ hitem)
    obtain rfl := Option.some.inj (hat.ent.symm.trans he)
    obtain ⟨c, expiry, -, hd, hs⟩ := hg.get hat
    exact ⟨c, by rw [hs, (hd x).mpr hitem]⟩
  have hfew : (ahead σ x).encard ≤ (rs.map Round.works).sum := by
    refine (ahead_le_items hg x).trans ?_
    exact_mod_cast hmany
  obtain ⟨rs₁, rs₂, s₁, σ₁, hrs, hrs₁, hg₁, hnone, htimeouts⟩ :=
    gone_after hreach hg hkey hr hpast hnot hfew
  obtain ⟨db, r, hfind, hg₂, hfound⟩ := findEntry_spec hg₁ e.key
  cases r with
  | none => exact ⟨rs₁, rs₂, s₁, _, hrs, hrs₁, hfind, htimeouts⟩
  | some b =>
    obtain ⟨f, hat⟩ := hfound
    obtain ⟨c, expiry, -, -, hs⟩ := hg₂.get hat
    simp [hnone] at hs

lemma twoSeconds_in_range : 2 * 10 ^ 9 + 0 < 2 ^ 63 := by decide

def twoSeconds : Timespec := ⟨2, 0, Timespec.nsec_zero, twoSeconds_in_range⟩

/-- A client sets a key and has it expire at once. -/
def fleeting : List MainLoop.Entry :=
  [.socket 5 ⟨true, false, false⟩ oneSecond (fun _ => oneSecond)
    (.got (pack (payload [str "set", str "k", str "v"]) ++
      pack (payload [str "pexpire", str "k", str "0"])))
    (WriteResult.wrote 1000) WriteResult.eagain]

set_option synthInstance.maxSize 400 in
lemma fleeting_runs : ∃ s₀ s₁ o₁ s₂ t₂ o₂ s₃ o₃ s t o s', start = .ok s₀ ∧
    run (handleEntry fun _ => (0, 0)) s₀ joining = .ok (s₁, o₁) ∧
    loopRound (fun _ => (0, 0)) s₀ oneSecond oneSecond (.ready joining) = .ok (s₂, t₂, o₂) ∧
    run (handleEntry fun _ => (0, 0)) s₂ fleeting = .ok (s₃, o₃) ∧
    loopRound (fun _ => (0, 0)) s₂ oneSecond oneSecond (.ready fleeting) = .ok (s, t, o) ∧
    loopRound (fun _ => (0, 0)) s twoSeconds twoSeconds (.ready []) = .ok (s', 0, []) ∧
    ([s₀.now, s₁.now, s₂.now, s₃.now, s.now], s₀.opened,
      (s₂.conns 0).map fun (c : EventLoop.Conn) => (c.fd, c.io.interest)) =
      ([0, 1000, 1000, 1000, 1000], [], some (5, ⟨true, false⟩)) ∧
    s.g.heap.a = [⟨1000, 0⟩] ∧ (s.g.ents 0).map Database.Entry.key = some (str "k") := by
  have hrun : (do
      let s₀ ← start
      let r₁ ← run (handleEntry fun _ => (0, 0)) s₀ joining
      let r₂ ← loopRound (fun _ => (0, 0)) s₀ oneSecond oneSecond (.ready joining)
      let r₃ ← run (handleEntry fun _ => (0, 0)) r₂.1 fleeting
      let r ← loopRound (fun _ => (0, 0)) r₂.1 oneSecond oneSecond (.ready fleeting)
      let r' ← loopRound (fun _ => (0, 0)) r.1 twoSeconds twoSeconds (.ready [])
      pure ((r'.2.1, r'.2.2.length), ([s₀.now, r₁.1.now, r₂.1.now, r₃.1.now, r.1.now], s₀.opened,
        (r₂.1.conns 0).map fun (c : EventLoop.Conn) => (c.fd, c.io.interest)),
        r.1.g.heap.a, (r.1.g.ents 0).map Database.Entry.key)) =
      .ok ((0, 0), ([0, 1000, 1000, 1000, 1000], [], some (5, ⟨true, false⟩)), [⟨1000, 0⟩],
        some (str "k")) := by
    decide +kernel
  obtain ⟨s₀, h₀, hrun⟩ := bind_eq_ok.mp hrun
  obtain ⟨⟨s₁, o₁⟩, h₁, hrun⟩ := bind_eq_ok.mp hrun
  obtain ⟨⟨s₂, t₂, o₂⟩, h₂, hrun⟩ := bind_eq_ok.mp hrun
  obtain ⟨⟨s₃, o₃⟩, h₃, hrun⟩ := bind_eq_ok.mp hrun
  obtain ⟨⟨s, t, o⟩, hs, hrun⟩ := bind_eq_ok.mp hrun
  obtain ⟨⟨s', t', o'⟩, hs', hrun⟩ := bind_eq_ok.mp hrun
  obtain ⟨hlast, hrest⟩ := Prod.mk.inj (Except.ok.inj hrun)
  obtain ⟨rfl, ho⟩ := Prod.mk.inj hlast
  obtain rfl := List.length_eq_zero_iff.mp ho
  obtain ⟨hfacts, hrest⟩ := Prod.mk.inj hrest
  obtain ⟨hheap, hkey⟩ := Prod.mk.inj hrest
  exact ⟨s₀, s₁, o₁, s₂, t₂, o₂, s₃, o₃, s, t, o, s', h₀, h₁, h₂, h₃, hs, hs', hfacts, hheap, hkey⟩

/-- A second later nothing happens, and the key is removed. -/
theorem due_key_removed_fleeting : ∃ s s', Running (fun _ => (0, 0)) s ∧
    Rounds (fun _ => (0, 0)) s [⟨twoSeconds, twoSeconds, .ready [], 0, []⟩] s' ∧
    ∃ rs₁ rs₂ s₁ g₁, [⟨twoSeconds, twoSeconds, .ready [], 0, []⟩] = rs₁ ++ rs₂ ∧
      Rounds (fun _ => (0, 0)) s rs₁ s₁ ∧ findEntry s₁.g (str "k") = .ok (g₁, none) ∧
      ∀ r ∈ rs₁, r.timeoutMs = 0 := by
  obtain ⟨s₀, s₁, o₁, s₂, t₂, o₂, s₃, o₃, s, t, o, s', h₀, h₁, h₂, h₃, hs, hs', hfacts, hheap,
    hkey⟩ := fleeting_runs
  simp only [Prod.mk.injEq, List.cons.injEq, and_true] at hfacts
  obtain ⟨⟨hnow₀, hnow₁, hnow₂, hnow₃, hnow⟩, hopened, hconn⟩ := hfacts
  have hr : Running (fun _ => (0, 0)) s :=
    .round (.round (.start h₀) (waits_joining h₁ hopened hnow₀ hnow₁) h₂)
      (waits_client h₃ hconn hnow₂ hnow₃) hs
  have hw : Waits (fun _ => (0, 0)) s twoSeconds (.ready []) := by
    refine ⟨⟨nofun, List.nodup_nil⟩, trivial, fun s₁ outs he => ?_⟩
    obtain ⟨rfl, -⟩ := Prod.mk.inj (Except.ok.inj he)
    rw [hnow]
    decide
  have hrs : Rounds (fun _ => (0, 0)) s [⟨twoSeconds, twoSeconds, .ready [], 0, []⟩] s' :=
    .cons hw hs' (.nil s')
  obtain ⟨e, he, hkey⟩ := Option.map_eq_some_iff.mp hkey
  have hlate : 1000 < getMonotonicMsec twoSeconds := by decide
  have hgone := due_key_removed (a := 0) (x := 1000) hr he (by simp [hheap]) hrs
    (by simpa using ⟨hlate, hlate, by simp [executed]⟩) (by simp [executed])
    (by simp [hheap, Round.works])
  rw [hkey] at hgone
  exact ⟨s, s', hr, hrs, hgone⟩

end ByoRedis.Punctual
