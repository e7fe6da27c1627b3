import Mathlib.Data.List.Basic

/-!
Computations that can fail, and runs of a machine made of them.

A machine takes a state and an input to a new state and an output, or fails. Its runs are
compared with those of a relation on simpler states: where every step from related states
succeeds and is matched by the relation, every run does.
-/

namespace ByoRedis.Lib.Runs

variable {ε α β σ τ : Type*}

@[simp] lemma ok_bind {α β : Type _} (a : α) (f : α → Except ε β) :
    ((Except.ok a : Except ε α) >>= f) = f a := rfl

@[simp] lemma error_bind {α β : Type _} (e : ε) (f : α → Except ε β) :
    ((Except.error e : Except ε α) >>= f) = Except.error e := rfl

@[simp] lemma pure_eq_ok {α : Type _} (a : α) : (pure a : Except ε α) = Except.ok a := rfl

@[simp] lemma throw_eq_error {α : Type _} (e : ε) :
    (throw e : Except ε α) = Except.error e := rfl

lemma bind_eq_ok {α β : Type _} {x : Except ε α} {f : α → Except ε β} {b : β} :
    (x >>= f) = Except.ok b ↔ ∃ a, x = Except.ok a ∧ f a = Except.ok b := by
  cases x with
  | error e => simp
  | ok a => simp

/-- A loop that is given more rounds than it needs returns what it returned before. -/
def Settled (f : ℕ → Except ε α) : Prop := ∀ n a, f n = .ok a → f (n + 1) = .ok a

/-- A loop returns within so many rounds. -/
def Within (f : ℕ → Except ε α) (n : ℕ) : Prop := ∃ a, ∀ k, n ≤ k → f k = .ok a

lemma Settled.within {f : ℕ → Except ε α} (hf : Settled f) {n : ℕ} (h : ∃ a, f n = .ok a) :
    Within f n := by
  obtain ⟨a, ha⟩ := h
  refine ⟨a, fun k hk => ?_⟩
  induction hk with
  | refl => exact ha
  | step _ ih => exact hf _ a ih

lemma Within.mono {f : ℕ → Except ε α} {n m : ℕ} (h : Within f n) (hnm : n ≤ m) : Within f m := by
  obtain ⟨a, ha⟩ := h
  exact ⟨a, fun k hk => ha k (Nat.le_trans hnm hk)⟩

lemma Settled.bind {α β : Type _} {f : ℕ → Except ε α} {g : ℕ → α → Except ε β} (hf : Settled f)
    (hg : ∀ a, Settled fun n => g n a) : Settled fun n => f n >>= g n := by
  intro n b h
  obtain ⟨a, ha, hb⟩ := bind_eq_ok.mp h
  exact bind_eq_ok.mpr ⟨a, hf n a ha, hg a n b hb⟩

lemma settled_const (x : Except ε α) : Settled fun _ => x := fun _ _ h => h

/-- Run a machine over a list of inputs, collecting its outputs. -/
def run (step : σ → α → Except ε (σ × β)) : σ → List α → Except ε (σ × List β)
  | s, [] => .ok (s, [])
  | s, a :: as =>
    match step s a with
    | .error e => .error e
    | .ok (s, b) =>
      match run step s as with
      | .error e => .error e
      | .ok (s, bs) => .ok (s, b :: bs)

/-- A run of a relation between states, labelled with inputs and outputs. -/
inductive Trace (R : τ → α → β → τ → Prop) : τ → List α → List β → τ → Prop
  | nil (t : τ) : Trace R t [] [] t
  | cons {t t' t'' : τ} {a : α} {b : β} {as : List α} {bs : List β} :
    R t a b t' → Trace R t' as bs t'' → Trace R t (a :: as) (b :: bs) t''

variable {step : σ → α → Except ε (σ × β)}

@[simp] lemma run_nil (s : σ) : run step s [] = .ok (s, []) := rfl

lemma run_cons {s s' : σ} {a : α} {b : β} (h : step s a = .ok (s', b)) (as : List α) :
    run step s (a :: as) =
      match run step s' as with
      | .error e => .error e
      | .ok (s'', bs) => .ok (s'', b :: bs) := by
  simp [run, h]

lemma run_cons_eq_ok {s s' : σ} {a : α} {as : List α} {bs : List β}
    (h : run step s (a :: as) = .ok (s', bs)) : ∃ s₁ b bs₁, step s a = .ok (s₁, b) ∧
      run step s₁ as = .ok (s', bs₁) ∧ bs = b :: bs₁ := by
  cases ha : step s a with
  | error e => simp [run, ha] at h
  | ok p =>
    obtain ⟨s₁, b⟩ := p
    rw [run_cons ha] at h
    cases hr : run step s₁ as with
    | error e => simp [hr] at h
    | ok q =>
      obtain ⟨s₂, bs₁⟩ := q
      rw [hr] at h
      obtain ⟨rfl, rfl⟩ := Prod.mk.inj (Except.ok.inj h)
      exact ⟨s₁, b, bs₁, rfl, hr, rfl⟩

lemma run_append {s s' s'' : σ} {as as' : List α} {bs bs' : List β}
    (h : run step s as = .ok (s', bs)) (h' : run step s' as' = .ok (s'', bs')) :
    run step s (as ++ as') = .ok (s'', bs ++ bs') := by
  induction as generalizing s bs with
  | nil =>
    obtain ⟨rfl, rfl⟩ := Prod.mk.inj (Except.ok.inj h)
    exact h'
  | cons a as ih =>
    cases ha : step s a with
    | error e => simp [run, ha] at h
    | ok p =>
      obtain ⟨s₁, b⟩ := p
      rw [run_cons ha] at h
      cases hr : run step s₁ as with
      | error e => simp [hr] at h
      | ok q =>
        obtain ⟨s₂, bs₂⟩ := q
        rw [hr] at h
        obtain ⟨rfl, rfl⟩ := Prod.mk.inj (Except.ok.inj h)
        rw [List.cons_append, run_cons ha, ih hr]
        rfl

lemma run_length {s s' : σ} {as : List α} {bs : List β} (h : run step s as = .ok (s', bs)) :
    bs.length = as.length := by
  induction as generalizing s bs with
  | nil =>
    obtain ⟨-, rfl⟩ := Prod.mk.inj (Except.ok.inj h)
    rfl
  | cons a as ih =>
    cases ha : step s a with
    | error e => simp [run, ha] at h
    | ok p =>
      obtain ⟨s₁, b⟩ := p
      rw [run_cons ha] at h
      cases hr : run step s₁ as with
      | error e => simp [hr] at h
      | ok q =>
        obtain ⟨s₂, bs₂⟩ := q
        rw [hr] at h
        obtain ⟨rfl, rfl⟩ := Prod.mk.inj (Except.ok.inj h)
        rw [List.length_cons, List.length_cons, ih hr]

lemma run_singleton {s s' : σ} {a : α} {b : β} (h : step s a = .ok (s', b)) :
    run step s [a] = .ok (s', [b]) := by
  rw [run_cons h, run_nil]

/-- A trace of steps of the machine is a run of it. -/
lemma run_of_trace {R : τ → α → β → τ → Prop} {f : τ → σ}
    (hstep : ∀ t a b t', R t a b t' → step (f t) a = .ok (f t', b)) {t t' : τ} {as : List α}
    {bs : List β} (h : Trace R t as bs t') : run step (f t) as = .ok (f t', bs) := by
  induction h with
  | nil t => rfl
  | cons hR _ ih => rw [run_cons (hstep _ _ _ _ hR), ih]

/-- **Simulation.** States are related for the inputs to come. If every step from related states
succeeds and the relation has a step with the same label to a related state, then every run
succeeds and has its trace. -/
theorem run_simulates {R : τ → α → β → τ → Prop} {S : σ → τ → List α → Prop}
    (hstep : ∀ s t a as, S s t (a :: as) →
      ∃ s' b t', step s a = .ok (s', b) ∧ R t a b t' ∧ S s' t' as)
    {s : σ} {t : τ} {as : List α} (h : S s t as) :
    ∃ s' bs t', run step s as = .ok (s', bs) ∧ Trace R t as bs t' ∧ S s' t' [] := by
  induction as generalizing s t with
  | nil => exact ⟨s, [], t, rfl, .nil t, h⟩
  | cons a as ih =>
    obtain ⟨s₁, b, t₁, he, hR, hs⟩ := hstep s t a as h
    obtain ⟨s₂, bs, t₂, he₂, hT, hs₂⟩ := ih hs
    exact ⟨s₂, b :: bs, t₂, by rw [run_cons he, he₂], .cons hR hT, hs₂⟩

/-- **Invariants.** A property that every step from a state with it keeps, failing only in
ways that are allowed, holds after every run. -/
theorem run_invariant {P : σ → Prop} {E : ε → Prop}
    (hstep : ∀ s a, P s → (∃ e, step s a = .error e ∧ E e) ∨
      ∃ s' b, step s a = .ok (s', b) ∧ P s')
    {s : σ} (h : P s) (as : List α) :
    (∃ e, run step s as = .error e ∧ E e) ∨
      ∃ s' bs, run step s as = .ok (s', bs) ∧ P s' := by
  induction as generalizing s with
  | nil => exact .inr ⟨s, [], rfl, h⟩
  | cons a as ih =>
    rcases hstep s a h with ⟨e, he, ha⟩ | ⟨s₁, b, he, hs⟩
    · exact .inl ⟨e, by simp [run, he], ha⟩
    · rcases ih hs with ⟨e, he₂, ha⟩ | ⟨s₂, bs, he₂, hs₂⟩
      · exact .inl ⟨e, by rw [run_cons he, he₂], ha⟩
      · exact .inr ⟨s₂, b :: bs, by rw [run_cons he, he₂], hs₂⟩

/-- A property that every step from a state with it keeps, without failing. -/
theorem run_total {P : σ → Prop} (hstep : ∀ s a, P s → ∃ s' b, step s a = .ok (s', b) ∧ P s')
    {s : σ} (h : P s) (as : List α) : ∃ s' bs, run step s as = .ok (s', bs) ∧ P s' := by
  have hrun := run_invariant (E := fun _ => False) (fun s a hs => .inr (hstep s a hs)) h as
  exact hrun.resolve_left fun ⟨_, _, hf⟩ => hf

end ByoRedis.Lib.Runs
