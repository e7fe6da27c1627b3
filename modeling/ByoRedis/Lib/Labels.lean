import Mathlib.Data.List.Basic
import ByoRedis.Lib.Runs

/-!
Lists of labelled things, as many parties make them together, and what each of the parties made.

In a run of a relation whose steps are labelled, those with some labels are a run of their own where
the others do not show.
-/

namespace ByoRedis.Lib.Labels

open ByoRedis.Lib.Runs

variable {κ α β σ τ : Type*}

/-- The things with a label, in order. -/
def own [DecidableEq κ] (k : κ) (log : List (κ × α)) : List α :=
  log.filterMap fun x => if x.1 = k then some x.2 else none

def labelled (k : κ) (xs : List α) : List (κ × α) := xs.map fun x => (k, x)

/-- The results of the things, under their labels. -/
def results (log : List (κ × α)) (outs : List β) : List (κ × β) := (log.map Prod.fst).zip outs

@[simp] lemma map_labelled (k : κ) (xs : List α) : (labelled k xs).map Prod.snd = xs := by
  induction xs with
  | nil => rfl
  | cons x xs ih => exact congrArg (x :: ·) ih

@[simp] lemma labelled_length (k : κ) (xs : List α) : (labelled k xs).length = xs.length :=
  List.length_map _

lemma results_append (xs ys : List (κ × α)) {as : List β} (bs : List β)
    (h : as.length = xs.length) :
    results (xs ++ ys) (as ++ bs) = results xs as ++ results ys bs := by
  unfold results
  rw [List.map_append, List.zip_append (by rw [List.length_map, h])]

lemma results_labelled (k : κ) {xs : List α} {outs : List β} (h : outs.length = xs.length) :
    results (labelled k xs) outs = labelled k outs := by
  induction xs generalizing outs with
  | nil =>
    rw [List.length_eq_zero_iff.mp h]
    rfl
  | cons x xs ih =>
    cases outs with
    | nil => cases h
    | cons out outs => exact congrArg ((k, out) :: ·) (ih (Nat.succ_inj.mp h))

section Own

variable [DecidableEq κ]

@[simp] lemma own_nil (k : κ) : own k ([] : List (κ × α)) = [] := rfl

@[simp] lemma own_append (k : κ) (xs ys : List (κ × α)) :
    own k (xs ++ ys) = own k xs ++ own k ys := List.filterMap_append

@[simp] lemma own_labelled (k : κ) (xs : List α) : own k (labelled k xs) = xs := by
  simp [own, labelled]

lemma own_labelled_of_ne {k k' : κ} (h : k' ≠ k) (xs : List α) : own k (labelled k' xs) = [] := by
  simp [own, labelled, h]

lemma own_forall₂ {R : α → β → Prop} (k : κ) {log : List (κ × α)} {outs : List β}
    (h : List.Forall₂ R (log.map Prod.snd) outs) :
    List.Forall₂ R (own k log) (own k (results log outs)) := by
  induction log generalizing outs with
  | nil =>
    cases h
    exact .nil
  | cons x log ih =>
    obtain ⟨k', x⟩ := x
    cases h with
    | @cons _ out _ outs hx hrest =>
      have hrest := ih hrest
      by_cases hk : k' = k
      · simpa [own, results, hk] using List.Forall₂.cons hx hrest
      · simpa [own, results, hk] using hrest

end Own

/-! ### Steps that do not show -/

/-- The things with some labels, in order. -/
def among (p : κ → Prop) [DecidablePred p] (log : List (κ × α)) : List α :=
  log.filterMap fun x => if p x.1 then some x.2 else none

lemma own_eq_among [DecidableEq κ] (k : κ) (log : List (κ × α)) :
    own k log = among (· = k) log := rfl

variable {p : κ → Prop} [DecidablePred p]

/-- **Unwinding.** A step with one of the labels is matched by a step with the same input and output
from a related state, and a step with another label leads to a related state. Then those with the
labels are a run. -/
theorem trace_among {R : σ → α → β → σ → Prop} {R' : τ → α → β → τ → Prop} {S : σ → τ → Prop}
    {log : List (κ × α)}
    (hown : ∀ k a, (k, a) ∈ log → p k → ∀ s t b s', S s t → R s a b s' →
      ∃ t', R' t a b t' ∧ S s' t')
    (hother : ∀ k a, (k, a) ∈ log → ¬ p k → ∀ s t b s', S s t → R s a b s' → S s' t)
    {s s' : σ} {t : τ} {outs : List β} (h : Trace R s (log.map Prod.snd) outs s') (hs : S s t) :
    ∃ t', Trace R' t (among p log) (among p (results log outs)) t' ∧ S s' t' := by
  induction log generalizing s t outs with
  | nil =>
    cases h
    exact ⟨t, .nil t, hs⟩
  | cons x log ih =>
    obtain ⟨k, a⟩ := x
    cases h with
    | @cons _ s₁ _ _ b _ outs hR hrest =>
      have ih := fun {t} => @ih (fun k a h => hown k a (List.mem_cons_of_mem _ h))
        (fun k a h => hother k a (List.mem_cons_of_mem _ h)) s₁ t outs hrest
      by_cases hk : p k
      · obtain ⟨t₁, hR', hs₁⟩ := hown k a List.mem_cons_self hk s t b s₁ hs hR
        obtain ⟨t', ht, hs'⟩ := ih hs₁
        refine ⟨t', ?_, hs'⟩
        simpa [among, results, hk] using Trace.cons hR' ht
      · obtain ⟨t', ht, hs'⟩ := ih (hother k a List.mem_cons_self hk s t b s₁ hs hR)
        refine ⟨t', ?_, hs'⟩
        simpa [among, results, hk] using ht

end ByoRedis.Lib.Labels
