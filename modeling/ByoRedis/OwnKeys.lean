import ByoRedis.History
import ByoRedis.Replies
import ByoRedis.Served

/-!
A client with keys of its own.

A command is about one key: its answer is told from what is under this key, and it changes nothing
under another one. So a client whose keys no other client names is answered as if the others were
not there.
-/

namespace ByoRedis.OwnKeys

open ByoRedis.Basic ByoRedis.Proto ByoRedis.Tlv ByoRedis.Database ByoRedis.DatabaseSpec
open ByoRedis.Commands ByoRedis.SortedSet ByoRedis.KeySpace ByoRedis.MemberSearch
open ByoRedis.RangeCommands ByoRedis.Conn ByoRedis.ResponseSpec ByoRedis.StoreRuns
open ByoRedis.EventLoop ByoRedis.Registry ByoRedis.LoopRuns ByoRedis.History ByoRedis.Replies
open ByoRedis.Lib.Runs ByoRedis.Lib.Labels

/-! ### What a command is about -/

def commandKey : Command → Option Bytes
  | .get key | .set key _ | .del key | .zadd key _ _ | .zrem key _ | .zscore key _ | .pexpire key _
  | .pttl key => some key
  | .keys => none

def subject : Query → Option Bytes
  | .command c => commandKey c
  | .zquery key _ _ _ _ | .zrank key _ | .zcount key _ _ _ _ => some key
  | .bad _ => none

/-- The part of a store under some keys. -/
def part (K : Set Bytes) [DecidablePred (· ∈ K)] (σ : Store) : Store :=
  fun key => if key ∈ K then σ key else none

/-- A query about these keys only. The list of all keys is about the others too. -/
def About (K : Set Bytes) (q : Query) : Prop :=
  q ≠ .command .keys ∧ ∀ key, subject q = some key → key ∈ K

/-- A query about other keys. -/
def Apart (K : Set Bytes) (q : Query) : Prop := ∀ key, subject q = some key → key ∉ K

variable {strtod : Bytes → UInt64 × ℕ} {now : ℕ} {σ σ' τ : Store} {c : Command} {q : Query}
  {v : Tlv.Value} {key : Bytes} {K : Set Bytes} [DecidablePred (· ∈ K)]

@[simp] lemma part_mem (h : key ∈ K) : part K σ key = σ key := if_pos h

lemma part_update (h : key ∈ K) (item : Option Item) :
    part K (Function.update σ key item) = Function.update (part K σ) key item := by
  ext1 k
  by_cases hk : k = key
  · subst hk
    simp [h]
  · simp [part, hk]

lemma part_update_not (h : key ∉ K) (item : Option Item) :
    part K (Function.update σ key item) = part K σ := by
  ext1 k
  by_cases hk : k = key
  · subst hk
    simp [part, h]
  · simp [part, hk]

/-- **A command is about one key**: what is under the others is not asked for, and stays. -/
lemma reference_local (h : Reference now σ c v σ') (hc : commandKey c = some key)
    (hτ : τ key = σ key) :
    σ' = Function.update σ key (σ' key) ∧
      Reference now τ c v (Function.update τ key (σ' key)) := by
  cases c
  case keys => cases hc
  all_goals
    obtain rfl := (Option.some.inj hc).symm
    rcases hs : σ key with _ | ⟨_ | _, _⟩
    all_goals simp_all [Reference, put, drop]

lemma members_unique {m m' : Bytes → Option Score} (h : Members σ key m) (h' : Members σ key m') :
    m = m' := by
  cases h with
  | missing h =>
    cases h' with
    | missing _ => rfl
    | zset h' =>
      rw [h] at h'
      cases h'
  | zset h =>
    cases h' with
    | missing h' =>
      rw [h] at h'
      cases h'
    | zset h' =>
      rw [h] at h'
      exact Content.zset.inj (Item.mk.inj (Option.some.inj h')).1

lemma tells_unique {R : (Bytes → Option Score) → List (Score × Bytes) → Tlv.Value} {v' : Tlv.Value}
    (h : Tells σ key R v) (h' : Tells σ key R v') : v = v' := by
  unfold Tells at h h'
  split at h
  next hs =>
    rw [hs] at h'
    exact h.trans h'.symm
  next hother =>
    split at h'
    next hs => exact absurd hs (hother _ _)
    · obtain ⟨m, xs, hm, hl, rfl⟩ := h
      obtain ⟨m', xs', hm', hl', rfl⟩ := h'
      obtain rfl := members_unique hm hm'
      rw [hl.unique hl']

lemma reply_unique {v' : Tlv.Value} {σ₁ σ₂ : Store} (hq : q ≠ .command .keys)
    (h : Reply now σ q v σ₁) (h' : Reply now σ q v' σ₂) : v = v' ∧ σ₁ = σ₂ := by
  cases q with
  | command c =>
    cases c
    case keys => exact absurd rfl hq
    all_goals
      simp only [Reply, Reference] at h h'
      split at h <;> simp_all
  | zquery | zrank | zcount => exact ⟨tells_unique h.1 h'.1, h.2.trans h'.2.symm⟩
  | bad => exact ⟨h.1.trans h'.1.symm, h.2.trans h'.2.symm⟩

lemma members_part (hk : key ∈ K) {m : Bytes → Option Score} :
    Members (part K σ) key m ↔ Members σ key m := by
  constructor
  · intro h
    cases h with
    | missing h => exact .missing ((part_mem hk).symm.trans h)
    | zset h => exact .zset ((part_mem hk).symm.trans h)
  · intro h
    cases h with
    | missing h => exact .missing ((part_mem hk).trans h)
    | zset h => exact .zset ((part_mem hk).trans h)

lemma tells_part {R : (Bytes → Option Score) → List (Score × Bytes) → Tlv.Value} (hk : key ∈ K)
    (h : Tells σ key R v) : Tells (part K σ) key R v := by
  unfold Tells at h ⊢
  rw [part_mem hk]
  simpa only [members_part hk] using h

/-- **A query about some keys** is answered by the part of the store under them. -/
lemma Reply.about (h : Reply now σ q v σ') (hq : About K q) :
    Reply now (part K σ) q v (part K σ') := by
  obtain ⟨hkeys, hK⟩ := hq
  cases q with
  | command c =>
    cases hc : commandKey c with
    | none =>
      cases c
      case keys => exact absurd rfl hkeys
      all_goals cases hc
    | some key =>
      have hk := hK key hc
      obtain ⟨hσ', hr⟩ := reference_local h hc (part_mem hk)
      rw [hσ', part_update hk]
      exact hr
  | zquery | zrank | zcount =>
    obtain ⟨ht, rfl⟩ := h
    exact ⟨tells_part (hK _ rfl) ht, rfl⟩
  | bad =>
    obtain ⟨hv, rfl⟩ := h
    exact ⟨hv, rfl⟩

/-- **A query about other keys** leaves this part as it is. -/
lemma Reply.apart (h : Reply now σ q v σ') (hq : Apart K q) : part K σ' = part K σ := by
  cases q with
  | command c =>
    cases hc : commandKey c with
    | none =>
      cases c
      case keys => rw [h.1]
      all_goals cases hc
    | some key =>
      obtain ⟨hσ', -⟩ := reference_local h hc rfl
      rw [hσ', part_update_not (hq key hc)]
  | zquery | zrank | zcount | bad => rw [h.2]

/-! ### Rounds of timers -/

/-- Some keys that are due are gone. -/
def Lapses (now : ℕ) (σ σ' : Store) : Prop :=
  ∀ key, σ' key = σ key ∨ σ' key = none ∧ ∃ t, Due now σ key t

/-- No key has a time. -/
def Timeless (σ : Store) : Prop := ∀ key item, σ key = some item → item.expiry = none

/-- **A round of timers** lets some of the keys lapse: which ones depends on the other keys. -/
lemma lapses_part {most : ℕ} (h : Expires most now σ σ') : Lapses now (part K σ) (part K σ') := by
  obtain ⟨ks, -, -, hks, hdue, -⟩ := h
  intro key
  by_cases hk : key ∈ K
  · unfold Due
    rw [part_mem hk, part_mem hk, hks]
    split_ifs with hin
    · obtain ⟨t, ht, -⟩ := hdue key hin
      exact .inr ⟨rfl, t, ht⟩
    · exact .inl rfl
  · exact .inl (by simp [part, hk])

lemma Lapses.eq (h : Lapses now σ σ') (ht : Timeless σ) : σ' = σ := by
  ext1 key
  refine (h key).resolve_right ?_
  rintro ⟨-, t, -, content, hs⟩
  cases ht key _ hs

lemma Timeless.reply (h : Timeless σ) (hr : Reply now σ q v σ')
    (hq : ∀ key ttl, q ≠ .command (.pexpire key ttl)) : Timeless σ' := by
  cases q with
  | command c =>
    rcases hr.changes with rfl | ⟨-, hchange⟩
    · exact h
    · cases hchange with
      | dropped key => exact fun k item hs => h k item (drop_eq_some hs).2
      | @put key content expiry times =>
        intro k item hs
        unfold put at hs
        by_cases hk : k = key
        · rw [hk, Function.update_self] at hs
          rw [← Option.some.inj hs, Option.eq_none_iff_forall_ne_some]
          intro t ht
          rcases times t ht with ⟨content', hold⟩ | ⟨ttl, rfl, -⟩
          · cases h key _ hold
          · exact hq key ttl rfl
        · rw [Function.update_of_ne hk] at hs
          exact h k item hs
  | zquery | zrank | zcount | bad => exact hr.2 ▸ h

/-! ### Runs -/

/-- What a client is answered that has the server for itself, where the keys that are due are gone
sooner or later. -/
def Alone (strtod : Bytes → UInt64 × ℕ) (σ : Store) : Op → Bytes → Store → Prop
  | .command clock cmd, out, σ' =>
    ∃ v, Reply (getMonotonicMsec clock) σ (queryOf strtod cmd) v σ' ∧ out = frame v
  | .timers clock, out, σ' => out = [] ∧ Lapses (getMonotonicMsec clock) σ σ'

/-- The keys are those of a connection: it asks about no others, and nobody else about them. -/
def Owns (strtod : Bytes → UInt64 × ℕ) (K : Set Bytes) (a : Addr) (log : List (Option Addr × Op)) :
    Prop :=
  ∀ peer clock cmd, (peer, .command clock cmd) ∈ log →
    (peer = some a → About K (queryOf strtod cmd)) ∧ (peer ≠ some a → Apart K (queryOf strtod cmd))

/-- The rounds of timers, and what the connection asks for. -/
def Concerns (a : Addr) (peer : Option Addr) : Prop := peer = none ∨ peer = some a

instance (a : Addr) : DecidablePred (Concerns a) := fun _ => inferInstanceAs (Decidable (_ ∨ _))

/-- Nobody asks for the rounds of timers, and somebody for the rest. -/
def Asked (log : List (Option Addr × Op)) : Prop :=
  ∀ peer op, (peer, op) ∈ log → (peer = none ↔ ∃ clock, op = .timers clock)

/-- The step of a run, from a store that is neither too large nor too far ahead. -/
structure Roomed (strtod : Bytes → UInt64 × ℕ) (s : GlobalData × Store) (op : Op) (out : Bytes)
    (s' : GlobalData × Store) : Prop extends Replied strtod s op out s' where
  sized : Sized (2 ^ 31 - 1) s.2
  near : Near (getMonotonicMsec op.clock) s.2

variable {s : State} {h : Past} {a : Addr} {outs : List Bytes}

lemma asked_of_recorded (hr : Recorded strtod s h) : Asked h.log := by
  induction hr with
  | start _ => exact fun _ _ hm => by simp at hm
  | @step s s' h event seen hr ha he ih =>
    have hcommands : ∀ a, Asked (h.see a seen).log := by
      intro a peer op hm
      rcases List.mem_append.mp hm with hm | hm
      · exact ih peer op hm
      · obtain ⟨op', hop, hpair⟩ := List.mem_map.mp hm
        obtain ⟨rfl, rfl⟩ := Prod.mk.inj hpair
        obtain ⟨x, -, rfl⟩ := List.mem_map.mp hop
        exact ⟨nofun, nofun⟩
    cases event with
    | accept _ => exact ih
    | ready fd _ _ _ _ _ _ =>
      unfold Past.record
      dsimp only
      split
      · exact ih
      · exact hcommands _
    | timers clock =>
      intro peer op hm
      rcases List.mem_append.mp hm with hm | hm
      · exact ih peer op hm
      · obtain ⟨rfl, rfl⟩ := Prod.mk.inj (List.mem_singleton.mp hm)
        exact ⟨fun _ => ⟨clock, rfl⟩, fun _ => rfl⟩

lemma roomed_of_run {ops : List Op} {g : GlobalData} (hclock : NonDecreasing ops)
    (hfew : (ops.map (addsOf strtod)).sum < 2 ^ 31)
    (hrun : run (serve strtod) {} ops = .ok (g, outs)) :
    ∃ σ, Trace (Roomed strtod) ({}, fun _ => none) ops outs (g, σ) ∧ Good g σ := by
  have hempty : Sized 0 fun _ => none := fun key m expiry hs => by simp at hs
  have hstart : Roomy strtod {} ({}, fun _ => none) ops := by
    refine ⟨⟨rfl, good_empty, hclock, fun op _ key c t hs => ?_⟩, 0, hempty, by omega⟩
    simp at hs
  obtain ⟨g', outs', ⟨g'', σ⟩, he, ht, hend⟩ := run_simulates (R := Roomed strtod)
    (fun g s op ops h => by
      obtain ⟨g', out, s', he, hr, h'⟩ := h.step
      obtain ⟨n, hsized, hroom⟩ := h.room
      have hnear := h.inStep.near op List.mem_cons_self
      exact ⟨g', out, s', he, ⟨hr, hsized.mono (by omega), hnear⟩, h'⟩)
    hstart
  obtain ⟨rfl, rfl⟩ := Prod.mk.inj (Except.ok.inj (hrun.symm.trans he))
  obtain rfl := hend.inStep.same
  exact ⟨σ, ht, hend.inStep.stands⟩

lemma Sized.part {n : ℕ} (h : Sized n σ) : Sized n (OwnKeys.part K σ) := by
  refine h.sub fun key => ?_
  unfold OwnKeys.part
  split_ifs
  · exact .inr rfl
  · exact .inl rfl

lemma Near.part (h : Near now σ) : Near now (OwnKeys.part K σ) := by
  refine h.sub fun key => ?_
  unfold OwnKeys.part
  split_ifs
  · exact .inr rfl
  · exact .inl rfl

lemma part_empty : part K (fun _ => none) = fun _ => none := by
  ext1 key
  simp [part]

lemma trace_alone {log : List (Option Addr × Op)} (howns : Owns strtod K a log)
    (hasked : Asked log) {g : GlobalData}
    (h : Trace (Roomed strtod) ({}, fun _ => none) (log.map Prod.snd) outs (g, σ)) :
    Trace (Alone strtod) (fun _ => none) (among (Concerns a) log)
      (among (Concerns a) (results log outs)) (part K σ) := by
  have hown : ∀ peer op, (peer, op) ∈ log → Concerns a peer → ∀ s τ out s', τ = part K s.2 →
      Roomed strtod s op out s' → ∃ τ', Alone strtod τ op out τ' ∧ τ' = part K s'.2 := by
    rintro peer op hm hpeer s τ out s' rfl hR
    cases op with
    | command clock cmd =>
      have hsome : peer = some a := by
        refine hpeer.resolve_left fun hn => ?_
        obtain ⟨_, hx⟩ := (hasked peer _ hm).mp hn
        cases hx
      obtain ⟨v, hr, hout⟩ := hR.responds
      exact ⟨_, ⟨v, Reply.about hr ((howns peer clock cmd hm).1 hsome), hout⟩, rfl⟩
    | timers clock =>
      obtain ⟨hout, hx⟩ := hR.responds
      exact ⟨_, ⟨hout, lapses_part hx⟩, rfl⟩
  have hother : ∀ peer op, (peer, op) ∈ log → ¬ Concerns a peer → ∀ s τ out s', τ = part K s.2 →
      Roomed strtod s op out s' → τ = part K s'.2 := by
    rintro peer op hm hpeer s τ out s' rfl hR
    obtain ⟨hnone, hne⟩ := not_or.mp hpeer
    cases op with
    | command clock cmd =>
      obtain ⟨v, hr, -⟩ := hR.responds
      exact (Reply.apart hr ((howns peer clock cmd hm).2 hne)).symm
    | timers clock => exact absurd ((hasked peer _ hm).mpr ⟨clock, rfl⟩) hnone
  obtain ⟨σ', ht, rfl⟩ := trace_among hown hother h part_empty.symm
  exact ht

/-- Where no times are set for the keys of a connection, the server does the same for it alone. -/
lemma run_alone {log : List (Option Addr × Op)} (howns : Owns strtod K a log) (hasked : Asked log)
    (htimes : ∀ clock cmd, (some a, .command clock cmd) ∈ log →
      ∀ key ttl, queryOf strtod cmd ≠ .command (.pexpire key ttl))
    {g : GlobalData}
    (h : Trace (Roomed strtod) ({}, fun _ => none) (log.map Prod.snd) outs (g, σ)) :
    ∃ g', run (serve strtod) {} (own (some a) log) = .ok (g', own (some a) (results log outs)) := by
  -- the server that is alone stands for the part of the store
  let S : GlobalData × Store → GlobalData × Store → Prop := fun s t =>
    t.2 = part K s.2 ∧ Good t.1 t.2 ∧ Timeless t.2
  have hown : ∀ peer op, (peer, op) ∈ log → peer = some a → ∀ s t out s', S s t →
      Roomed strtod s op out s' → ∃ t', Replied strtod t op out t' ∧ S s' t' := by
    rintro peer op hm rfl s ⟨g₁, σ₁⟩ out s' ⟨rfl, hg, htimeless⟩ hR
    cases op with
    | timers clock =>
      have := (hasked _ _ hm).mpr ⟨clock, rfl⟩
      cases this
    | command clock cmd =>
      have habout := (howns _ clock cmd hm).1 rfl
      obtain ⟨v, hr, rfl⟩ := hR.responds
      have hr := Reply.about hr habout
      obtain ⟨g₂, out₂, σ₂, hreplied, -, -⟩ := serve_replied hg (Sized.part hR.sized) (by omega)
        (.command clock cmd) (Near.part hR.near)
      obtain ⟨v₂, hr₂, rfl⟩ := hreplied.responds
      obtain ⟨rfl, rfl⟩ := reply_unique habout.1 hr hr₂
      exact ⟨_, hreplied, rfl, hreplied.stands, htimeless.reply hr (htimes clock cmd hm)⟩
  have hother : ∀ peer op, (peer, op) ∈ log → peer ≠ some a → ∀ s t out s', S s t →
      Roomed strtod s op out s' → S s' t := by
    rintro peer op hm hne s ⟨g₁, σ₁⟩ out s' ⟨rfl, hg, htimeless⟩ hR
    refine ⟨?_, hg, htimeless⟩
    cases op with
    | command clock cmd =>
      obtain ⟨v, hr, -⟩ := hR.responds
      exact (Reply.apart hr ((howns peer clock cmd hm).2 hne)).symm
    | timers clock =>
      obtain ⟨-, hx⟩ := hR.responds
      exact ((lapses_part hx).eq htimeless).symm
  have hempty : S ({}, fun _ => none) ({}, fun _ => none) :=
    ⟨part_empty.symm, good_empty, fun _ _ hs => by simp at hs⟩
  obtain ⟨⟨g', σ'⟩, ht, -⟩ := trace_among hown hother h hempty
  rw [own_eq_among, own_eq_among]
  exact ⟨g', run_of_trace (f := Prod.fst) (fun t op out t' hR => hR.runs) ht⟩

/-- **A client with keys of its own.** Whatever the order of events, a connection whose keys no
other connection asks about is answered as by a store with its keys only, which lapse when they are
due, sooner or later. If it sets no times, it is sent what the server sends to a client that is
alone. -/
theorem own_keys (hr : Recorded strtod s h) (hclock : NonDecreasing (h.log.map Prod.snd))
    (hfew : ((h.log.map Prod.snd).map (addsOf strtod)).sum < 2 ^ 31)
    (howns : Owns strtod K a h.log) : ∃ outs, Serial strtod s h outs ∧
      (∃ σ, Good s.g σ ∧ Trace (Alone strtod) (fun _ => none) (among (Concerns a) h.log)
        (among (Concerns a) (results h.log outs)) (part K σ)) ∧
      ((∀ clock cmd, (some a, .command clock cmd) ∈ h.log →
          ∀ key ttl, queryOf strtod cmd ≠ .command (.pexpire key ttl)) →
        ∃ g, run (serve strtod) {} (own (some a) h.log) =
          .ok (g, own (some a) (results h.log outs))) := by
  obtain ⟨outs, hs⟩ := serial_of_recorded hr
  have hasked := asked_of_recorded hr
  obtain ⟨σ, ht, hg⟩ := roomed_of_run hclock hfew hs.runs
  exact ⟨outs, hs, ⟨σ, hg, trace_alone howns hasked ht⟩, fun htimes =>
    run_alone howns hasked htimes ht⟩

/-! ### Two clients -/

/-- The responses that the first client is sent are those to a client that is alone. -/
theorem own_keys_pair : ∃ s h outs g, Serial allZero s h outs ∧ told h = pair ∧
    run (serve allZero) {} (own (some 0) h.log) = .ok (g, own (some 0) (results h.log outs)) := by
  obtain ⟨s, h, hr, htold⟩ := recorded_pair
  have hmem : ∀ peer op, (peer, op) ∈ h.log →
      (peer, vector op, getMonotonicMsec op.clock) ∈ pair := fun peer op hm =>
    htold ▸ List.mem_map_of_mem hm
  have hfew : ((h.log.map Prod.snd).map (addsOf allZero)).sum < 2 ^ 31 := by
    have hnone : ∀ x ∈ pair, addsOf allZero (.command (second 1) x.2.1) = 0 := by decide
    rw [List.sum_eq_zero]
    · decide
    · simp only [List.mem_map]
      rintro _ ⟨_, ⟨⟨peer, op⟩, hm, rfl⟩, rfl⟩
      cases op with
      | command clock cmd => exact hnone _ (hmem peer _ hm)
      | timers clock => rfl
  have howns : Owns allZero {key | key = str "a"} 0 h.log := by
    intro peer clock cmd hm
    have hpair := hmem peer _ hm
    simp only [pair, vector, List.mem_cons, Prod.mk.injEq, List.not_mem_nil, or_false] at hpair
    rcases hpair with ⟨rfl, rfl, -⟩ | ⟨rfl, rfl, -⟩ | ⟨rfl, rfl, -⟩
    · exact ⟨fun _ => ⟨nofun, fun key hk => (Option.some.inj hk).symm⟩, fun hne => absurd rfl hne⟩
    · refine ⟨nofun, fun _ key hk => ?_⟩
      rw [← Option.some.inj hk]
      decide
    · exact ⟨fun _ => ⟨nofun, fun key hk => (Option.some.inj hk).symm⟩, fun hne => absurd rfl hne⟩
  obtain ⟨outs, hs, -, halone⟩ := own_keys hr (nonDecreasing_told htold) hfew howns
  obtain ⟨g, hrun⟩ := halone fun clock cmd hm => by
    have hpair := hmem _ _ hm
    simp only [pair, vector, List.mem_cons, Prod.mk.injEq, List.not_mem_nil, or_false] at hpair
    rcases hpair with ⟨-, rfl, -⟩ | ⟨-, rfl, -⟩ | ⟨-, rfl, -⟩
    all_goals nofun
  exact ⟨s, h, outs, g, hs, htold, hrun⟩

end ByoRedis.OwnKeys
