import Mathlib.Data.Set.Card
import ByoRedis.Served
import ByoRedis.Timeout

/-!
What one call of `process_timers` does to the keys.

It removes keys that are due, the earliest first. It stops at the first that is not due, or when it
has removed one key more than `k_max_works`: the count is compared after a key is removed, with the
keys before it.
-/

namespace ByoRedis.Expiry

open ByoRedis.Basic ByoRedis.HeapSpec ByoRedis.Proto ByoRedis.Database ByoRedis.DatabaseSpec
open ByoRedis.KeySpace ByoRedis.Dispatch ByoRedis.Conn ByoRedis.StoreRuns
open ByoRedis.EventLoop ByoRedis.Registry ByoRedis.LoopRuns ByoRedis.RequestSpec ByoRedis.Served
open ByoRedis.Lib.Runs

variable {strtod : Bytes → UInt64 × ℕ} {s : State} {g : GlobalData} {σ σ' : Store} {now most : ℕ}

def dueKeys (now : ℕ) (σ : Store) : Set Bytes := {key | ∃ expiry, Due now σ key expiry}

def removed (σ σ' : Store) : Set Bytes := {key | σ key ≠ none ∧ σ' key = none}

/-! ### Which keys -/

/-- A round of timers, with the keys it removes. -/
structure Sweeps (now : ℕ) (σ : Store) (ks : List Bytes) (σ' : Store) : Prop where
  once : ks.Nodup
  /-- Only keys that are due are removed, and those before the ones that are left. -/
  due : ∀ key ∈ ks, ∃ expiry, Due now σ key expiry ∧
    ∀ key' expiry', Due now σ' key' expiry' → expiry ≤ expiry'
  gone : ∀ key ∈ ks, σ' key = none
  /-- Every other key has its value and its expiration time. -/
  kept : ∀ key, key ∉ ks → σ' key = σ key

lemma Expires.sweeps (h : Expires most now σ σ') : ∃ ks, Sweeps now σ ks σ' ∧ ks.length ≤ most ∧
    ((∃ key expiry, Due now σ' key expiry) → ks.length = most) := by
  obtain ⟨ks, hnd, hlen, hσ', hdue, hrest⟩ := h
  refine ⟨ks, ⟨hnd, hdue, fun key hk => ?_, fun key hk => ?_⟩, hlen, hrest⟩
  · rw [hσ', if_pos hk]
  · rw [hσ', if_neg hk]

lemma Sweeps.removed_eq {ks : List Bytes} (h : Sweeps now σ ks σ') :
    removed σ σ' = {key | key ∈ ks} := by
  ext key
  constructor
  · rintro ⟨hsome, hnone⟩
    by_contra hk
    rw [h.kept key hk] at hnone
    exact hsome hnone
  · intro hk
    obtain ⟨expiry, ⟨-, content, hs⟩, -⟩ := h.due key hk
    refine ⟨?_, h.gone key hk⟩
    rw [hs]
    exact Option.some_ne_none _

lemma Sweeps.removed_sub {ks : List Bytes} (h : Sweeps now σ ks σ') :
    removed σ σ' ⊆ dueKeys now σ := by
  rw [h.removed_eq]
  intro key hk
  obtain ⟨expiry, hdue, -⟩ := h.due key hk
  exact ⟨expiry, hdue⟩

lemma Sweeps.due_sub {ks : List Bytes} (h : Sweeps now σ ks σ') :
    dueKeys now σ ⊆ removed σ σ' ∪ dueKeys now σ' := by
  rintro key ⟨expiry, hlt, content, hs⟩
  by_cases hk : key ∈ ks
  · left
    rw [h.removed_eq]
    exact hk
  · right
    exact ⟨expiry, hlt, content, by rw [h.kept key hk, hs]⟩

lemma encard_list {ks : List Bytes} (h : ks.Nodup) :
    Set.encard {key | key ∈ ks} = ks.length := by
  rw [← List.coe_toFinset, Set.encard_coe_eq_coe_finsetCard, List.toFinset_card_of_nodup h]

/-- **The cap of a round** is exceeded where more keys are due than it allows. -/
lemma Expires.removed_le_iff (h : Expires (most + 1) now σ σ') :
    (removed σ σ').encard ≤ most ↔ (dueKeys now σ).encard ≤ most := by
  obtain ⟨ks, hs, -, hrest⟩ := Expires.sweeps h
  constructor
  · intro hle
    refine (Set.encard_le_encard ?_).trans hle
    intro key hk
    refine (hs.due_sub hk).resolve_right ?_
    rintro ⟨expiry, hdue⟩
    rw [hs.removed_eq, encard_list hs.once, hrest ⟨key, expiry, hdue⟩] at hle
    exact Nat.not_succ_le_self most (by exact_mod_cast hle)
  · exact fun hle => (Set.encard_le_encard hs.removed_sub).trans hle

/-! ### In every state -/

lemma exists_good (h : Reachable strtod s) : ∃ σ, Good s.g σ := (sound_of_reachable h).stands

/-- **Only what is due is removed, and the earliest first.** In every state that is reached, and
whatever the clock says: the keys removed are due, they expire no later than those that are still
due, and there are at least `k_max_works` of them if some are. Every other key has its value and
its expiration time, and the heap is in order, with its items those of the other keys. -/
theorem process_timers_expires (h : Reachable strtod s) (clock : Timespec) :
    ∃ s' σ σ' ks, processTimers s clock = .ok s' ∧ Good s.g σ ∧ Good s'.g σ' ∧
      Sweeps (getMonotonicMsec clock) σ ks σ' ∧
      ((∃ key expiry, Due (getMonotonicMsec clock) σ' key expiry) → maxWorks ≤ ks.length) ∧
      Heaped s'.g.heap ∧ ∀ item ∈ s'.g.heap.a, ∃ key ∉ ks, ∃ e, At s'.g key item.ref e := by
  obtain ⟨xs, hk⟩ := (sound_of_reachable h).kept
  obtain ⟨σ, hg⟩ := exists_good h
  obtain ⟨s', σ', -, he, -, hg', hx, -⟩ := processTimers_any hk hg clock
  obtain ⟨ks, hs, -, hrest⟩ := Expires.sweeps hx
  refine ⟨s', σ, σ', ks, he, hg, hg', hs, fun hdue => ?_, hg'.timed.heaped, fun item hmem => ?_⟩
  · rw [hrest hdue]
    exact Nat.le_succ maxWorks
  · obtain ⟨e, hat⟩ := hg'.toInv.exists_at (hg'.timed.owned item hmem)
    refine ⟨e.key, fun hmem' => ?_, e, hat⟩
    exact (hg'.none_iff e.key).mp (hs.gone _ hmem') _ _ hat

/-- **When the cap holds.** In every state that is reached, and whatever the clock says,
`process_timers` removes at most `k_max_works` keys if and only if no more than that are due. -/
theorem process_timers_capped_iff (h : Reachable strtod s) (clock : Timespec) :
    ∃ s' σ σ', processTimers s clock = .ok s' ∧ Good s.g σ ∧ Good s'.g σ' ∧
      ((removed σ σ').encard ≤ maxWorks ↔
        (dueKeys (getMonotonicMsec clock) σ).encard ≤ maxWorks) := by
  obtain ⟨xs, hk⟩ := (sound_of_reachable h).kept
  obtain ⟨σ, hg⟩ := exists_good h
  obtain ⟨s', σ', -, he, -, hg', hx, -⟩ := processTimers_any hk hg clock
  exact ⟨s', σ, σ', he, hg, hg', Expires.removed_le_iff hx⟩

/-! ### More keys than the cap -/

def keyOf (n : ℕ) : Bytes := List.replicate n 97

lemma keyOf_injective : Function.Injective keyOf := by
  intro m n h
  have := congrArg List.length h
  rwa [keyOf, keyOf, List.length_replicate, List.length_replicate] at this

/-- The first keys, which expire one millisecond after the first second. -/
def filled : ℕ → Store
  | 0 => fun _ => none
  | n + 1 => put (filled n) (keyOf n) (.str []) (some 1001)

def fills (n : ℕ) : List (Timespec × List Bytes) :=
  [(Timeout.oneSecond, [str "set", keyOf n, []]),
    (Timeout.oneSecond, [str "pexpire", keyOf n, str "1"])]

lemma filled_eq {n i : ℕ} :
    filled n (keyOf i) = if i < n then some ⟨.str [], some 1001⟩ else none := by
  induction n with
  | zero => rfl
  | succ n ih =>
    unfold filled put
    by_cases hi : i = n
    · rw [hi, Function.update_self, if_pos (Nat.lt_succ_self n)]
    · rw [Function.update_of_ne fun h => hi (keyOf_injective h), ih]
      simp only [Nat.lt_succ_iff_lt_or_eq, hi, or_false]

lemma fills_spec {n : ℕ} (hg : Good g (filled n)) (strtod : Bytes → UInt64 × ℕ) :
    ∃ g' outs, run (serve strtod) g ((fills n).map fun x => .command x.1 x.2) = .ok (g', outs) ∧
      Good g' (filled (n + 1)) := by
  have hnone : filled n (keyOf n) = none := by rw [filled_eq, if_neg (lt_irrefl n)]
  obtain ⟨g₁, v₁, σ₁, he₁, hg₁, ht₁, -⟩ :=
    serve_command hg strtod Timeout.oneSecond [str "set", keyOf n, []]
  obtain rfl : σ₁ = put (filled n) (keyOf n) (.str []) none := by
    have h : Reference (getMonotonicMsec Timeout.oneSecond) (filled n) (.set (keyOf n) []) v₁ σ₁ :=
      ht₁
    simp only [Reference, hnone] at h
    exact h.2
  obtain ⟨g₂, v₂, σ₂, he₂, hg₂, ht₂, -⟩ :=
    serve_command hg₁ strtod Timeout.oneSecond [str "pexpire", keyOf n, str "1"]
  obtain rfl : σ₂ = filled (n + 1) := by
    have h : Reference (getMonotonicMsec Timeout.oneSecond)
        (put (filled n) (keyOf n) (.str []) none) (.pexpire (keyOf n) 1) v₂ σ₂ := ht₂
    have hput : put (filled n) (keyOf n) (.str []) none (keyOf n) = some ⟨.str [], none⟩ :=
      Function.update_self ..
    simp only [Reference, hput] at h
    rw [h.2, filled, put, put, Function.update_idem]
    rfl
  exact ⟨g₂, _, run_append (run_singleton he₁) (run_singleton he₂), hg₂⟩

def fillsAll (n : ℕ) : List (Timespec × List Bytes) := (List.range n).flatMap fills

lemma fillsAll_spec (strtod : Bytes → UInt64 × ℕ) (n : ℕ) : ∃ g outs,
    run (serve strtod) {} ((fillsAll n).map fun x => .command x.1 x.2) = .ok (g, outs) ∧
      Good g (filled n) := by
  induction n with
  | zero => exact ⟨{}, [], rfl, good_empty⟩
  | succ n ih =>
    obtain ⟨g, outs, hrun, hg⟩ := ih
    obtain ⟨g', outs', hrun', hg'⟩ := fills_spec hg strtod
    have hall : fillsAll (n + 1) = fillsAll n ++ fills n := by
      unfold fillsAll
      rw [List.range_succ, List.flatMap_append, List.flatMap_singleton]
    refine ⟨g', outs ++ outs', ?_, hg'⟩
    rw [hall, List.map_append]
    exact run_append hrun hrun'

lemma fills_within {n : ℕ} (hn : n ≤ maxWorks) {x : Timespec × List Bytes} (hx : x ∈ fills n) :
    x.1 = Timeout.oneSecond ∧ Within x.2 := by
  have hmax : maxMsg = 33554432 := rfl
  have hworks : maxWorks = 2000 := rfl
  have hargs : 3 ≤ maxArgs := by decide
  have hlen : (keyOf n).length = n := List.length_replicate
  rcases List.mem_cons.mp hx with rfl | hx
  · refine ⟨rfl, ?_, hargs⟩
    simp only [trueSize, List.map_cons, List.map_nil, List.sum_cons, List.sum_nil, hlen]
    have hname : (str "set").length = 3 := rfl
    rw [List.length_nil]
    omega
  · rw [List.mem_singleton.mp hx]
    refine ⟨rfl, ?_, hargs⟩
    simp only [trueSize, List.map_cons, List.map_nil, List.sum_cons, List.sum_nil, hlen]
    have hname : (str "pexpire").length = 7 := rfl
    have httl : (str "1").length = 1 := rfl
    omega

lemma reachable_filled {n : ℕ} (hn : n ≤ maxWorks + 1) :
    ∃ s, Reachable (fun _ => (0, 0)) s ∧ Good s.g (filled n) := by
  have hmem : ∀ x ∈ fillsAll n, x.1 = Timeout.oneSecond ∧ Within x.2 := by
    intro x hx
    obtain ⟨i, hi, hx⟩ := List.mem_flatMap.mp hx
    have := List.mem_range.mp hi
    exact fills_within (by omega) hx
  have hclock : (fillsAll n).Pairwise fun x y => getMonotonicMsec x.1 ≤ getMonotonicMsec y.1 :=
    List.pairwise_of_forall_mem_list fun x hx y hy => by rw [(hmem x hx).1, (hmem y hy).1]
  obtain ⟨s, outs, hr, hrun⟩ :=
    commands_reachable (fun _ => (0, 0)) hclock fun x hx => (hmem x hx).2
  obtain ⟨g, outs', hrun', hg⟩ := fillsAll_spec (fun _ => (0, 0)) n
  obtain ⟨rfl, -⟩ := Prod.mk.inj (Except.ok.inj (hrun.symm.trans hrun'))
  exact ⟨s, hr, hg⟩

def twoSeconds : Timespec := ⟨2, 0, Timespec.nsec_zero, by decide⟩

lemma filled_due (n : ℕ) : n ≤ (dueKeys (getMonotonicMsec twoSeconds) (filled n)).encard := by
  have hnd : ((List.range n).map keyOf).Nodup := List.nodup_range.map keyOf_injective
  have hcard := encard_list hnd
  rw [List.length_map, List.length_range] at hcard
  rw [← hcard]
  refine Set.encard_le_encard fun key hk => ?_
  obtain ⟨i, hi, rfl⟩ := List.mem_map.mp hk
  refine ⟨1001, by decide, .str [], ?_⟩
  rw [filled_eq, if_pos (List.mem_range.mp hi)]

theorem process_timers_expires_three : ∃ s s' σ' ks, Good s.g (filled 3) ∧
    processTimers s twoSeconds = .ok s' ∧ Good s'.g σ' ∧ Sweeps 2000 (filled 3) ks σ' ∧
      ((∃ key expiry, Due 2000 σ' key expiry) → maxWorks ≤ ks.length) := by
  obtain ⟨s, hr, hg⟩ := reachable_filled (n := 3) (by decide)
  obtain ⟨s', σ, σ', ks, he, hg₁, hg', hs, hrest, -⟩ := process_timers_expires hr twoSeconds
  rw [← hg.unique hg₁] at hs
  exact ⟨s, s', σ', ks, hg, he, hg', hs, hrest⟩

/-- One key more than `k_max_works` is due, and all of them are removed. -/
theorem process_timers_over_cap : ∃ s s' σ', Reachable (fun _ => (0, 0)) s ∧
    Good s.g (filled (maxWorks + 1)) ∧ processTimers s twoSeconds = .ok s' ∧ Good s'.g σ' ∧
      ¬ (removed (filled (maxWorks + 1)) σ').encard ≤ maxWorks := by
  obtain ⟨s, hr, hg⟩ := reachable_filled le_rfl
  obtain ⟨xs, hk⟩ := (sound_of_reachable hr).kept
  obtain ⟨s', σ', -, he, -, hg', hx, -⟩ := processTimers_any hk hg twoSeconds
  refine ⟨s, s', σ', hr, hg, he, hg', fun hle => ?_⟩
  have hmany := (filled_due (maxWorks + 1)).trans ((Expires.removed_le_iff hx).mp hle)
  exact Nat.not_succ_le_self maxWorks (by exact_mod_cast hmany)

/-- Three keys are due, which is within the cap. -/
theorem process_timers_capped_three : ∃ s s' σ', Good s.g (filled 3) ∧
    processTimers s twoSeconds = .ok s' ∧ Good s'.g σ' ∧
      ((removed (filled 3) σ').encard ≤ maxWorks ↔
        (dueKeys 2000 (filled 3)).encard ≤ maxWorks) := by
  obtain ⟨s, hr, hg⟩ := reachable_filled (n := 3) (by decide)
  obtain ⟨s', σ, σ', he, hg₁, hg', h⟩ := process_timers_capped_iff hr twoSeconds
  rw [← hg.unique hg₁] at h
  exact ⟨s, s', σ', hg, he, hg', h⟩

end ByoRedis.Expiry
