import Mathlib.Order.Bounds.Basic
import ByoRedis.LoopRuns
import ByoRedis.RequestSpec

/-!
The timeout of `epoll_wait`: how long until the first deadline.

The front of the idle list and the root of the heap are the first of their deadlines, and every
deadline is less than the value that stands for none. What is left of the difference in 32 bits is
where the timeout can go wrong.
-/

namespace ByoRedis.Timeout

open ByoRedis.Basic ByoRedis.Proto ByoRedis.Tlv ByoRedis.Database ByoRedis.DatabaseSpec
open ByoRedis.ExpireSpec ByoRedis.Conn ByoRedis.CommandSpec ByoRedis.KeySpace ByoRedis.StoreRuns
open ByoRedis.IdleList ByoRedis.EventLoop ByoRedis.Registry ByoRedis.LoopRuns ByoRedis.Lib.Runs
open ByoRedis.Lib.Frames ByoRedis.RequestSpec

def idleDeadlines (s : State) : Set ℕ :=
  {d | ∃ a c, s.conns a = some c ∧ d = c.lastActiveMs + idleTimeoutMs}

def ttlDeadlines (s : State) : Set ℕ := {d | ∃ item ∈ s.g.heap.a, d = item.val}

def deadlines (s : State) : Set ℕ := idleDeadlines s ∪ ttlDeadlines s

/-- The timeout is right: it is for ever where no timer is pending, and otherwise it ends at the
first deadline or before. -/
structure Right (s : State) (now : ℕ) (t : ℤ) : Prop where
  forever : t = -1 ↔ IsList s.idle .head [] ∧ s.g.heap.a = []
  within : ∀ d : ℕ, IsLeast (deadlines s) d → 0 ≤ t ∧ t ≤ max 0 ((d : ℤ) - now)

variable {strtod : Bytes → UInt64 × ℕ} {s : State} {xs : List Addr} {S T : Set ℕ} {m n : ℕ}

/-! ### The first deadline -/

/-- The first deadline of a set, or the value that stands for none. -/
inductive Next (S : Set ℕ) : ℕ → Prop
  | never (h : S = ∅) : Next S (2 ^ 64 - 1)
  | due {d : ℕ} (h : IsLeast S d) (hlt : d < 2 ^ 64 - 1) : Next S d

lemma Next.le (h : Next S m) : m ≤ 2 ^ 64 - 1 := by
  cases h with
  | never => exact le_refl _
  | due _ hlt => exact hlt.le

lemma Next.union (hS : Next S m) (hT : Next T n) : Next (S ∪ T) (if n < m then n else m) := by
  have hle := hS.le
  cases hS with
  | never hS =>
    rw [hS, Set.empty_union]
    cases hT with
    | never hT => exact .never hT
    | due hT hlt =>
      rw [if_pos hlt]
      exact .due hT hlt
  | due hS hlt =>
    cases hT with
    | never hT =>
      rw [hT, Set.union_empty, if_neg (Nat.not_lt_of_le hle)]
      exact .due hS hlt
    | due hT hlt' =>
      have hmin : (if n < m then n else m) = min m n := by
        split_ifs <;> omega
      rw [hmin]
      exact .due (hS.union hT) (Nat.lt_of_le_of_lt (min_le_left ..) hlt)

lemma firstIdle_next (h : Kept s xs) : ∃ r, firstIdle s = .ok r ∧
    Next (idleDeadlines s) ((r.map fun x => x.2.deadline).getD (2 ^ 64 - 1)) := by
  cases xs with
  | nil =>
    refine ⟨none, firstIdle_nil h, .never ?_⟩
    apply Set.eq_empty_of_forall_notMem
    rintro d ⟨a, c, hc, -⟩
    exact List.not_mem_nil ((h.alive a).mpr (by rw [hc]; rfl))
  | cons a xs =>
    obtain ⟨conn, hc⟩ := h.exists_conn (a := a) List.mem_cons_self
    refine ⟨_, firstIdle_cons h hc, ?_⟩
    change Next (idleDeadlines s) conn.deadline
    rw [h.deadline hc]
    refine .due ⟨⟨a, conn, hc, rfl⟩, ?_⟩ ?_
    · rintro d ⟨b, c, hb, rfl⟩
      apply Nat.add_le_add_right
      rcases List.mem_cons.mp ((h.alive b).mpr (by rw [hb]; rfl)) with rfl | hmem
      · rw [Option.some.inj (hc.symm.trans hb)]
      · exact (List.pairwise_cons.mp h.sorted).1 b hmem conn c hc hb
    · have h₁ := h.past a conn hc
      have h₂ := h.bounded
      unfold idleTimeoutMs
      omega

/-- Whatever the clock said when they were set, keys expire before the end of time. -/
lemma near_of_reachable (h : Reachable strtod s) : ∃ σ, Good s.g σ ∧ Near (2 ^ 63 - 1) σ := by
  have hstep : ∀ g op, (∃ σ, Good g σ ∧ Near (2 ^ 63 - 1) σ) →
      ∃ g' out, serve strtod g op = .ok (g', out) ∧ ∃ σ, Good g' σ ∧ Near (2 ^ 63 - 1) σ := by
    rintro g op ⟨σ, hg, hnear⟩
    obtain ⟨g', out, σ', he, hg', hnear'⟩ :=
      serve_near hg strtod op (Nat.le_sub_one_of_lt (msec_lt op.clock)) hnear
    exact ⟨g', out, he, σ', hg', hnear'⟩
  obtain ⟨ops, outs, hrun⟩ := reachable_runs h
  obtain ⟨g, outs', hrun', hg⟩ := run_total hstep
    ⟨fun _ => none, good_empty, fun key c t hs => by simp at hs⟩ ops
  obtain ⟨rfl, -⟩ := Prod.mk.inj (Except.ok.inj (hrun.symm.trans hrun'))
  exact hg

lemma root_next (h : Reachable strtod s) :
    Next (ttlDeadlines s) ((s.g.heap.a[0]?.map fun item => item.val).getD (2 ^ 64 - 1)) := by
  obtain ⟨σ, hg, hnear⟩ := near_of_reachable h
  cases hx : s.g.heap.a[0]? with
  | none =>
    refine .never (Set.eq_empty_of_forall_notMem ?_)
    rintro d ⟨item, hmem, -⟩
    have := List.length_pos_of_mem hmem
    have := List.getElem?_eq_none_iff.mp hx
    omega
  | some item =>
    obtain ⟨e, -, ⟨content, hs⟩, -⟩ := root_earliest hg hx
    have hlt := hnear _ _ _ hs
    refine .due ⟨⟨item, List.mem_of_getElem? hx, rfl⟩, ?_⟩ ?_
    · rintro d ⟨item', hmem, rfl⟩
      exact hg.timed.heaped.root_le hx hmem
    · change item.val < _
      omega

/-! ### The timeout -/

/-- **`next_timer_ms`** takes the first of all deadlines. -/
lemma nextTimerMs_spec (h : Reachable strtod s) (clock : Timespec) :
    ∃ m, Next (deadlines s) m ∧ nextTimerMs s clock = .ok (if m = 2 ^ 64 - 1 then -1
      else if m ≤ getMonotonicMsec clock then 0 else castI32 (m - getMonotonicMsec clock)) := by
  obtain ⟨xs, hk⟩ := (sound_of_reachable h).kept
  obtain ⟨r, hr, hidle⟩ := firstIdle_next hk
  have hroot := root_next h
  refine ⟨_, hidle.union hroot, ?_⟩
  have hle := hidle.le
  unfold nextTimerMs
  rw [hr, ok_bind]
  dsimp only
  generalize (r.map fun x => x.2.deadline).getD (2 ^ 64 - 1) = m at hle ⊢
  generalize 2 ^ 64 - 1 = never at hle ⊢
  have hlast : ∀ d : ℕ, (if d = never then pure (-1) else if d ≤ getMonotonicMsec clock then pure 0
      else pure (castI32 (d - getMonotonicMsec clock)) : Eff ℤ) = .ok (if d = never then -1
      else if d ≤ getMonotonicMsec clock then 0 else castI32 (d - getMonotonicMsec clock)) := by
    intro d
    split_ifs <;> rfl
  cases s.g.heap.a[0]? with
  | none =>
    rw [Option.map_none, Option.getD_none, if_neg (Nat.not_lt_of_le hle)]
    exact hlast m
  | some item =>
    rw [Option.map_some, Option.getD_some]
    exact hlast _

/-- The cast keeps a difference that is not negative in 32 bits, and makes any other negative. -/
lemma castI32_cases (n : ℕ) : (n % 2 ^ 32 < 2 ^ 31 ∧ castI32 n = (n % 2 ^ 32 : ℕ)) ∨
    (2 ^ 31 ≤ n % 2 ^ 32 ∧ castI32 n < 0) := by
  unfold castI32
  rw [Int.bmod_def]
  omega

lemma deadlines_eq_empty (h : Kept s xs) :
    deadlines s = ∅ ↔ IsList s.idle .head [] ∧ s.g.heap.a = [] := by
  unfold deadlines
  rw [Set.union_empty_iff]
  refine and_congr ⟨fun hempty => ?_, fun hempty => ?_⟩ ⟨fun hempty => ?_, fun hempty => ?_⟩
  · cases xs with
    | nil => exact h.ring
    | cons a xs =>
      obtain ⟨conn, hc⟩ := h.exists_conn (a := a) List.mem_cons_self
      exact absurd ⟨a, conn, hc, rfl⟩ (Set.eq_empty_iff_forall_notMem.mp hempty _)
  · have hsame := (dlistEmpty_spec hempty).symm.trans (dlistEmpty_spec h.ring)
    have hxs : xs = [] := by simpa using (Except.ok.inj hsame).symm
    apply Set.eq_empty_of_forall_notMem
    rintro d ⟨a, c, hc, -⟩
    have hmem := (h.alive a).mpr (by rw [hc]; rfl)
    rw [hxs] at hmem
    exact List.not_mem_nil hmem
  · apply List.eq_nil_iff_forall_not_mem.mpr
    intro item hmem
    exact Set.eq_empty_iff_forall_notMem.mp hempty _ ⟨item, hmem, rfl⟩
  · apply Set.eq_empty_of_forall_notMem
    rintro d ⟨item, hmem, -⟩
    rw [hempty] at hmem
    exact List.not_mem_nil hmem

/-- The first deadline has passed, or the time until it is not negative in its low 32 bits. -/
def Fits (s : State) (now : ℕ) : Prop :=
  ∀ d, IsLeast (deadlines s) d → d ≤ now ∨ (d - now) % 2 ^ 32 < 2 ^ 31

/-- A timeout for a first deadline is right where it is not negative. -/
lemma right_iff_of_due (h : Kept s xs) {d now : ℕ} (hd : IsLeast (deadlines s) d) :
    Right s now (if d ≤ now then 0 else castI32 (d - now)) ↔
      d ≤ now ∨ (d - now) % 2 ^ 32 < 2 ^ 31 := by
  have hne : ¬ (IsList s.idle .head [] ∧ s.g.heap.a = []) := by
    rw [← deadlines_eq_empty h]
    exact hd.nonempty.ne_empty
  have hmod := Nat.mod_le (d - now) (2 ^ 32)
  have hright : ∀ t : ℤ, 0 ≤ t → t ≤ max 0 ((d : ℤ) - now) → Right s now t := by
    intro t h₀ h₁
    refine ⟨⟨fun ht => by omega, fun hempty => absurd hempty hne⟩, fun d' hd' => ?_⟩
    rw [hd'.unique hd]
    exact ⟨h₀, h₁⟩
  by_cases hle : d ≤ now
  · rw [if_pos hle]
    exact ⟨fun _ => .inl hle, fun _ => hright 0 le_rfl (le_max_left ..)⟩
  · rw [if_neg hle]
    rcases castI32_cases (d - now) with ⟨hlt, hcast⟩ | ⟨hge, hneg⟩
    · refine ⟨fun _ => .inr hlt, fun _ => ?_⟩
      rw [hcast]
      exact hright _ (Int.natCast_nonneg _) (le_max_of_le_right (by omega))
    · constructor
      · intro hr
        have := (hr.within d hd).1
        omega
      · omega

/-- **The timeout of the event loop.** In every state that is reached, whatever the clock says, the
timeout is right if and only if the difference to the first deadline is not negative as a 32-bit
number. -/
theorem nextTimerMs_right_iff (h : Reachable strtod s) (clock : Timespec) :
    ∃ t, nextTimerMs s clock = .ok t ∧
      (Right s (getMonotonicMsec clock) t ↔ Fits s (getMonotonicMsec clock)) := by
  obtain ⟨xs, hk⟩ := (sound_of_reachable h).kept
  obtain ⟨m, hm, he⟩ := nextTimerMs_spec h clock
  refine ⟨_, he, ?_⟩
  cases hm with
  | never hempty =>
    rw [if_pos rfl]
    constructor
    · intro _ d hd
      exact absurd hempty hd.nonempty.ne_empty
    · intro _
      refine ⟨⟨fun _ => (deadlines_eq_empty hk).mp hempty, fun _ => rfl⟩, fun d hd => ?_⟩
      exact absurd hempty hd.nonempty.ne_empty
  | due hd hlt =>
    rw [if_neg hlt.ne, right_iff_of_due hk hd]
    constructor
    · intro hfits d' hd'
      rw [hd'.unique hd]
      exact hfits
    · intro hfits
      exact hfits _ hd

def oneSecond : Timespec := ⟨1, 0, by decide, by decide⟩

theorem nextTimerMs_right_iff_accept : ∃ s t, s.opened = [5] ∧
    nextTimerMs s oneSecond = .ok t ∧ (Right s 1000 t ↔ Fits s 1000) := by
  obtain ⟨s, hs, hopened⟩ := reachable_accept
  obtain ⟨t, he, ht⟩ := nextTimerMs_right_iff hs oneSecond
  exact ⟨s, t, hopened, he, ht⟩

/-! ### A key that expires in `2 ^ 31` milliseconds -/

def joins : Event := .accept [.conn 5 oneSecond true]

/-- A client sets the key. -/
def sends : Event :=
  .ready 5 oneSecond ⟨true, false, false⟩ (fun _ => oneSecond)
    (.got (pack (payload [str "set", str "k", str "v"]) ++
      pack (payload [str "pexpire", str "k", str "2147483648"]))) (.wrote 1000) .eagain

def leaves : Event :=
  .ready 5 oneSecond ⟨true, false, true⟩ (fun _ => oneSecond) (.got []) .eagain .eagain

/-- When the client is gone, the timeout is negative, for ever. -/
theorem not_right_of_far_ttl : ∃ s, Reachable (fun _ => (0, 0)) s ∧
    nextTimerMs s oneSecond = .ok (-2 ^ 31) ∧ ¬ Right s 1000 (-2 ^ 31) := by
  have hrun : (do
      let s₀ ← start
      let (s₁, _) ← step (fun _ => (0, 0)) s₀ joins
      let (s₂, _) ← step (fun _ => (0, 0)) s₁ sends
      let (s₃, _) ← step (fun _ => (0, 0)) s₂ leaves
      let t ← nextTimerMs s₃ oneSecond
      pure (s₀.opened, s₀.now, s₁.now, s₂.now, t)) = .ok ([], 0, 1000, 1000, -2 ^ 31) := by
    decide +kernel
  obtain ⟨s₀, h₀, hrun⟩ := bind_eq_ok.mp hrun
  obtain ⟨⟨s₁, _⟩, h₁, hrun⟩ := bind_eq_ok.mp hrun
  obtain ⟨⟨s₂, _⟩, h₂, hrun⟩ := bind_eq_ok.mp hrun
  obtain ⟨⟨s₃, _⟩, h₃, hrun⟩ := bind_eq_ok.mp hrun
  obtain ⟨t, ht, hrun⟩ := bind_eq_ok.mp hrun
  simp only [pure_eq_ok, Except.ok.injEq, Prod.mk.injEq] at hrun
  obtain ⟨hopened, hnow₀, hnow₁, hnow₂, rfl⟩ := hrun
  have hjoins : Admissible s₀ joins := by
    refine ⟨?_, ?_, fun _ _ => trivial⟩
    · rw [hopened]
      exact List.not_mem_nil
    · rw [hnow₀]
      exact Nat.zero_le _
  have hsends : Admissible s₁ sends := hnow₁.le
  have hleaves : Admissible s₂ leaves := hnow₂.le
  have hr₃ := Reachable.step (.step (.step (.start h₀) hjoins h₁) hsends h₂) hleaves h₃
  refine ⟨s₃, hr₃, ht, fun hright => ?_⟩
  obtain ⟨m, hm, he⟩ := nextTimerMs_spec hr₃ oneSecond
  rw [ht, Except.ok.injEq] at he
  cases hm with
  | never _ =>
    rw [if_pos rfl] at he
    omega
  | due hd _ =>
    have := (hright.within _ hd).1
    omega

end ByoRedis.Timeout
