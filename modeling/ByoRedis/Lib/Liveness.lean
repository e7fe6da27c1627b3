import Mathlib.Logic.Relation
import Mathlib.Order.Monotone.Basic
import Mathlib.Order.WellFounded

/-!
Measures that lead a machine to its goal.

Where every state short of the goal has a step that lowers a measure, the goal can be reached. Where
moreover no step raises it, a run that does not put off for ever what it could do comes to the goal
by itself.
-/

namespace ByoRedis.Lib.Liveness

variable {σ κ β : Type*} [PartialOrder β] [WellFoundedLT β]

/-- **The goal can be reached**, by steps that keep a property. -/
theorem exists_reaches (Step : σ → σ → Prop) (P goal : σ → Prop) (μ : σ → β)
    (hstep : ∀ s, P s → ¬ goal s → ∃ s', Step s s' ∧ P s' ∧ μ s' < μ s) {s : σ} (hs : P s) :
    ∃ s', Relation.ReflTransGen Step s s' ∧ P s' ∧ goal s' := by
  induction hμ : μ s using WellFoundedLT.induction generalizing s with
  | ind m ih =>
    by_cases hg : goal s
    · exact ⟨s, .refl, hs, hg⟩
    · obtain ⟨s₁, h₁, hs₁, hlt⟩ := hstep s hs hg
      obtain ⟨s₂, h₂, hs₂, hg₂⟩ := ih (μ s₁) (hμ ▸ hlt) hs₁ rfl
      exact ⟨s₂, .head h₁ h₂, hs₂, hg₂⟩

/-- No turn is offered from some time on and never taken. -/
def Fair (Offered : σ → κ → Prop) (Taken : σ → κ → σ → Prop) (run : ℕ → σ) : Prop :=
  ∀ k i, (∀ j, i ≤ j → Offered (run j) k) → ∃ j, i ≤ j ∧ Taken (run j) k (run (j + 1))

lemma Fair.mono {Offered Offered' : σ → κ → Prop} {Taken : σ → κ → σ → Prop} {run : ℕ → σ}
    (h : Fair Offered Taken run) (hsub : ∀ s k, Offered' s k → Offered s k) :
    Fair Offered' Taken run :=
  fun k i hk => h k i fun j hj => hsub _ _ (hk j hj)

/-- A run is fair from any time on. -/
lemma Fair.shift {Offered : σ → κ → Prop} {Taken : σ → κ → σ → Prop} {run : ℕ → σ}
    (h : Fair Offered Taken run) (n : ℕ) : Fair Offered Taken fun i => run (n + i) := by
  intro k i hk
  obtain ⟨j, hj, ht⟩ := h k (n + i) fun j hj => by
    obtain ⟨m, rfl⟩ := Nat.exists_eq_add_of_le hj
    rw [Nat.add_assoc]
    exact hk (i + m) (Nat.le_add_right i m)
  obtain ⟨m, rfl⟩ := Nat.exists_eq_add_of_le hj
  refine ⟨i + m, Nat.le_add_right i m, ?_⟩
  simpa only [Nat.add_assoc] using ht

/-- A measure that is not raised is the same from some time on. -/
lemma exists_constant {m : ℕ → β} (h : ∀ i, m (i + 1) ≤ m i) : ∃ n, ∀ j, n ≤ j → m j = m n := by
  obtain ⟨-, ⟨n, rfl⟩, hmin⟩ := wellFounded_lt.has_min (Set.range m) ⟨m 0, 0, rfl⟩
  refine ⟨n, fun j hj => ?_⟩
  have hle : m j ≤ m n := antitone_nat_of_succ_le h hj
  exact hle.eq_of_not_lt (hmin (m j) ⟨j, rfl⟩)

/-- **A fair run comes to its goal**: a turn that is offered is offered until the measure is lower,
and some turn is offered short of the goal. -/
theorem Fair.reaches {Offered : σ → κ → Prop} {Taken : σ → κ → σ → Prop} {run : ℕ → σ}
    (h : Fair Offered Taken run) (goal : σ → Prop) (μ : σ → β)
    (hle : ∀ i, μ (run (i + 1)) ≤ μ (run i))
    (hkeep : ∀ i k, Offered (run i) k → μ (run (i + 1)) = μ (run i) → Offered (run (i + 1)) k)
    (htaken : ∀ i k, Offered (run i) k → Taken (run i) k (run (i + 1)) →
      μ (run (i + 1)) < μ (run i))
    (hsome : ∀ i, ¬ goal (run i) → ∃ k, Offered (run i) k) : ∃ i, goal (run i) := by
  obtain ⟨n, hn⟩ := exists_constant (m := fun i => μ (run i)) hle
  refine ⟨n, by_contra fun hgoal => ?_⟩
  obtain ⟨k, hk⟩ := hsome n hgoal
  have hoffered : ∀ j, n ≤ j → Offered (run j) k := fun j hj => by
    induction j, hj using Nat.le_induction with
    | base => exact hk
    | succ j hj ih => exact hkeep j k ih ((hn (j + 1) (Nat.le_succ_of_le hj)).trans (hn j hj).symm)
  obtain ⟨j, hj, ht⟩ := h k n hoffered
  have hlt := htaken j k (hoffered j hj) ht
  rw [hn j hj, hn (j + 1) (Nat.le_succ_of_le hj)] at hlt
  exact lt_irrefl _ hlt

end ByoRedis.Lib.Liveness
