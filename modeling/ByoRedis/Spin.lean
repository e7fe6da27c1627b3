import ByoRedis.Expiry

/-!
Whether a timer that keeps the event loop awake is one that fires.

`next_timer_ms` counts a deadline as missed from the very millisecond on, `process_timers` from the
next one. And a deadline that is a multiple of `2 ^ 32` milliseconds away looks like one that is
now.
-/

namespace ByoRedis.Spin

open ByoRedis.Basic ByoRedis.Heap ByoRedis.Database ByoRedis.DatabaseSpec ByoRedis.KeySpace
open ByoRedis.Conn ByoRedis.EventLoop ByoRedis.Registry ByoRedis.Timeout ByoRedis.Expiry
open ByoRedis.Lib.Runs

variable {strtod : Bytes → UInt64 × ℕ} {s s' : State} {σ σ' : Store} {now most d : ℕ}

/-- A connection was destroyed, or a key was removed. -/
def Fired (s s' : State) (σ σ' : Store) : Prop :=
  (∃ a, (s.conns a).isSome ∧ s'.conns a = none) ∨ (removed σ σ').Nonempty

lemma dueKeys_nonempty (hg : Good s.g σ) :
    (dueKeys now σ).Nonempty ↔ ∃ d ∈ ttlDeadlines s, d < now := by
  constructor
  · rintro ⟨key, expiry, hlt, content, hs⟩
    obtain ⟨a, e, -, -, hd⟩ := (hg.holds key _).mp hs
    exact ⟨expiry, ⟨_, (hd expiry).mp rfl, rfl⟩, hlt⟩
  · rintro ⟨d, ⟨item, hmem, rfl⟩, hlt⟩
    obtain ⟨e, hat⟩ := hg.toInv.exists_at (hg.timed.owned item hmem)
    obtain ⟨content, expiry, -, hd, hs⟩ := hg.get hat
    have hexpiry : expiry = some item.val := (hd item.val).mpr hmem
    exact ⟨e.key, item.val, hlt, content, by rw [hs, hexpiry]⟩

lemma removed_nonempty (h : Expires (most + 1) now σ σ') :
    (removed σ σ').Nonempty ↔ (dueKeys now σ).Nonempty := by
  obtain ⟨ks, hs, -, hrest⟩ := Expires.sweeps h
  refine ⟨fun hne => hne.mono hs.removed_sub, fun hne => ?_⟩
  by_contra hempty
  rw [Set.not_nonempty_iff_eq_empty] at hempty
  have hks : ks = [] := by
    apply List.eq_nil_iff_forall_not_mem.mpr
    intro key hk
    have hmem : key ∈ removed σ σ' := by
      rw [hs.removed_eq]
      exact hk
    rw [hempty] at hmem
    exact hmem
  obtain ⟨key, hk⟩ := hne
  have hdue := hs.due_sub hk
  rw [hempty, Set.empty_union] at hdue
  obtain ⟨expiry, hdue⟩ := hdue
  have hlen := hrest ⟨key, expiry, hdue⟩
  rw [hks] at hlen
  exact Nat.succ_ne_zero most hlen.symm

lemma destroyed_iff {clock : Timespec}
    (h : ∀ a, s'.conns a = (s.conns a).filter fun c => ¬ Expired clock c) :
    (∃ a, (s.conns a).isSome ∧ s'.conns a = none) ↔
      ∃ d ∈ idleDeadlines s, d < getMonotonicMsec clock := by
  constructor
  · rintro ⟨a, hsome, hnone⟩
    obtain ⟨c, hc⟩ := Option.isSome_iff_exists.mp hsome
    rw [h, hc, Option.filter_some] at hnone
    refine ⟨_, ⟨a, c, hc, rfl⟩, ?_⟩
    by_contra hlt
    have hkeep : ¬ Expired clock c := hlt
    rw [if_pos (by simpa using hkeep)] at hnone
    cases hnone
  · rintro ⟨d, ⟨a, c, hc, rfl⟩, hlt⟩
    have hexp : Expired clock c := hlt
    refine ⟨a, by rw [hc]; rfl, ?_⟩
    rw [h, hc, Option.filter_some, if_neg (by simpa using hexp)]

/-- **`process_timers` fires** where a deadline has passed. -/
lemma processTimers_fired (h : Reachable strtod s) (clock : Timespec) :
    ∃ s' σ σ', processTimers s clock = .ok s' ∧ Good s.g σ ∧ Good s'.g σ' ∧
      (Fired s s' σ σ' ↔ ∃ d ∈ deadlines s, d < getMonotonicMsec clock) := by
  obtain ⟨xs, hk⟩ := (sound_of_reachable h).kept
  obtain ⟨σ, hg⟩ := (sound_of_reachable h).stands
  obtain ⟨s', σ', -, he, -, hg', hx, hfilter, -⟩ := processTimers_any hk hg clock
  refine ⟨s', σ, σ', he, hg, hg', ?_⟩
  unfold Fired deadlines
  rw [destroyed_iff hfilter, removed_nonempty hx, dueKeys_nonempty hg]
  constructor
  · rintro (⟨d, hd, hlt⟩ | ⟨d, hd, hlt⟩)
    · exact ⟨d, .inl hd, hlt⟩
    · exact ⟨d, .inr hd, hlt⟩
  · rintro ⟨d, hd | hd, hlt⟩
    · exact .inl ⟨d, hd, hlt⟩
    · exact .inr ⟨d, hd, hlt⟩

/-- The first deadline has passed, or is not told from now by its low 32 bits. -/
def Apart (s : State) (now : ℕ) : Prop :=
  ∀ d, IsLeast (deadlines s) d → now ≤ d → (d - now) % 2 ^ 32 ≠ 0

/-- A difference is cast to zero where its low 32 bits are. -/
lemma castI32_eq_zero {n : ℕ} : castI32 n = 0 ↔ n % 2 ^ 32 = 0 := by
  rcases castI32_cases n with ⟨-, hcast⟩ | ⟨hge, hneg⟩
  · rw [hcast]
    exact Int.natCast_eq_zero
  · omega

/-- **The two timer functions agree** on what is due, in every state that is reached and whatever
the clock says, if and only if the first deadline is neither now nor a multiple of `2 ^ 32`
milliseconds away. -/
theorem timers_agree_iff (h : Reachable strtod s) (clock : Timespec) :
    ∃ t s' σ σ', nextTimerMs s clock = .ok t ∧ processTimers s clock = .ok s' ∧ Good s.g σ ∧
      Good s'.g σ' ∧ ((t = 0 → Fired s s' σ σ') ↔ Apart s (getMonotonicMsec clock)) := by
  obtain ⟨m, hm, ht⟩ := nextTimerMs_spec h clock
  obtain ⟨s', σ, σ', he, hg, hg', hfired⟩ := processTimers_fired h clock
  refine ⟨_, s', σ, σ', ht, he, hg, hg', ?_⟩
  rw [hfired]
  generalize getMonotonicMsec clock = now
  cases hm with
  | never hempty =>
    rw [if_pos rfl, hempty]
    refine ⟨fun _ d hd => ?_, fun _ h0 => by omega⟩
    rw [hempty] at hd
    exact absurd hd.1 (Set.notMem_empty d)
  | due hd hlt =>
    have hapart : Apart s now ↔ (now ≤ m → (m - now) % 2 ^ 32 ≠ 0) := by
      refine ⟨fun ha => ha m hd, fun ha d hd' => ?_⟩
      rw [hd'.unique hd]
      exact ha
    have hpast : (∃ d ∈ deadlines s, d < now) ↔ m < now := by
      refine ⟨?_, fun hlt => ⟨m, hd.1, hlt⟩⟩
      rintro ⟨d, hmem, hlt⟩
      exact Nat.lt_of_le_of_lt (hd.2 hmem) hlt
    rw [if_neg hlt.ne, hapart, hpast]
    rcases lt_trichotomy m now with hbefore | hnow | hafter
    · exact ⟨fun _ hle => absurd hbefore (Nat.not_lt_of_le hle), fun _ _ => hbefore⟩
    · -- the deadline is now: `next_timer_ms` counts it as missed, and nothing fires
      rw [hnow, if_pos le_rfl, Nat.sub_self]
      exact ⟨fun h => absurd (h rfl) (lt_irrefl now), fun h => absurd rfl (h le_rfl)⟩
    · rw [if_neg (Nat.not_le_of_lt hafter), castI32_eq_zero]
      constructor
      · exact fun h _ h0 => absurd (h h0) (Nat.not_lt_of_lt hafter)
      · exact fun h h0 => absurd h0 (h hafter.le)

/-! ### A connection whose deadline is now -/

def sixSeconds : Timespec := ⟨6, 0, Timespec.nsec_zero, by decide⟩

lemma reachable_deadline : ∃ s, Reachable (fun _ => (0, 0)) s ∧ IsLeast (deadlines s) 6000 := by
  obtain ⟨s₀, h₀⟩ : ∃ s, start = .ok s := ⟨_, rfl⟩
  have ha : Admissible s₀ joins := by
    obtain rfl := Except.ok.inj h₀
    exact ⟨by simp, Nat.zero_le _, fun _ _ => trivial⟩
  obtain ⟨s, hs, ⟨c, hc, hlast⟩, hall, hheap⟩ : ∃ s, step (fun _ => (0, 0)) s₀ joins = .ok (s, {}) ∧
      (∃ c, s.conns 0 = some c ∧ c.lastActiveMs = 1000) ∧
      (∀ a c, s.conns a = some c → c.lastActiveMs = 1000) ∧ s.g.heap.a = [] := by
    obtain rfl := Except.ok.inj h₀
    refine ⟨_, rfl, ⟨_, rfl, rfl⟩, fun a c ha => ?_, rfl⟩
    rcases conns_put.mp ha with ⟨-, rfl⟩ | ⟨-, ha⟩
    · rfl
    · rcases conns_put.mp ha with ⟨-, rfl⟩ | ⟨-, ha⟩
      · rfl
      · cases ha
  refine ⟨s, .step (.start h₀) ha hs, .inl ⟨0, c, hc, by rw [hlast]; rfl⟩, ?_⟩
  rintro d (⟨a, c', hc', rfl⟩ | ⟨item, hmem, -⟩)
  · rw [hall a c' hc']
    exact le_rfl
  · rw [hheap] at hmem
    exact absurd hmem List.not_mem_nil

/-- The event loop does not sleep, and nothing fires. -/
theorem not_fired_at_deadline : ∃ s s' σ σ', Reachable (fun _ => (0, 0)) s ∧
    nextTimerMs s sixSeconds = .ok 0 ∧ processTimers s sixSeconds = .ok s' ∧ Good s.g σ ∧
      Good s'.g σ' ∧ ¬ Fired s s' σ σ' := by
  obtain ⟨s, hr, hd⟩ := reachable_deadline
  obtain ⟨m, hm, ht⟩ := nextTimerMs_spec hr sixSeconds
  obtain ⟨s', σ, σ', he, hg, hg', hfired⟩ := processTimers_fired hr sixSeconds
  refine ⟨s, s', σ, σ', hr, ?_, he, hg, hg', ?_⟩
  · rw [ht]
    cases hm with
    | never hempty =>
      rw [hempty] at hd
      exact absurd hd.1 (Set.notMem_empty _)
    | due hm _ =>
      rw [hm.unique hd, if_neg (by decide), if_pos (by decide)]
  · rw [hfired]
    rintro ⟨d, hmem, hlt⟩
    exact absurd (hd.2 hmem) (Nat.not_le_of_lt hlt)

/-- Four seconds before its deadline the connection is waited for. -/
theorem timers_agree_iff_early : ∃ s t s' σ σ', IsLeast (deadlines s) 6000 ∧
    nextTimerMs s twoSeconds = .ok t ∧ processTimers s twoSeconds = .ok s' ∧ Good s.g σ ∧
      Good s'.g σ' ∧ ((t = 0 → Fired s s' σ σ') ↔ Apart s 2000) := by
  obtain ⟨s, hr, hd⟩ := reachable_deadline
  obtain ⟨t, s', σ, σ', ht, he, hg, hg', h⟩ := timers_agree_iff hr twoSeconds
  exact ⟨s, t, s', σ, σ', hd, ht, he, hg, hg', h⟩

end ByoRedis.Spin
