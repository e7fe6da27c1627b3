import Mathlib.Data.List.Chain
import Mathlib.Data.List.Nodup
import Mathlib.Logic.Function.Basic

/-!
Circular lists of nodes that point at their two neighbours, with a head that is always in it.

A ring is changed in two places at most: a node is put before the head, at the end of the list, or
taken out from where it is.
-/

namespace ByoRedis.Lib.Rings

variable {ν : Type*} {next prev next' prev' : ν → Option ν} {h : ν} {xs : List ν}

/-- Two nodes next to each other point at each other. -/
def Linked (next prev : ν → Option ν) (x y : ν) : Prop := next x = some y ∧ prev y = some x

structure IsRing (next prev : ν → Option ν) (h : ν) (xs : List ν) : Prop where
  nodup : (h :: xs).Nodup
  chain : (h :: (xs ++ [h])).IsChain (Linked next prev)

/-- A chain uses the pointers forward from all its nodes but the last, and back from all but the
first. -/
lemma chain_congr {l : List ν} (hl : l.IsChain (Linked next prev))
    (hnext : ∀ x ∈ l.dropLast, next' x = next x) (hprev : ∀ y ∈ l.tail, prev' y = prev y) :
    l.IsChain (Linked next' prev') := by
  induction hl with
  | nil => exact .nil
  | singleton x => exact .singleton x
  | @cons_cons a b l hab _ ih =>
    rw [List.dropLast_cons_cons] at hnext
    refine .cons_cons ⟨?_, ?_⟩ (ih (fun x hx => hnext x (List.mem_cons_of_mem _ hx))
      fun y hy => hprev y (List.mem_cons_of_mem _ hy))
    · exact (hnext a List.mem_cons_self).trans hab.1
    · exact (hprev b List.mem_cons_self).trans hab.2

lemma isRing_nil (hn : next h = some h) (hp : prev h = some h) : IsRing next prev h [] :=
  ⟨List.nodup_singleton h, .cons_cons ⟨hn, hp⟩ (.singleton h)⟩

/-- The head points at the first node, and at itself where there is none. -/
lemma IsRing.next_head (hr : IsRing next prev h xs) : next h = (xs ++ [h]).head? := by
  have hchain := hr.chain
  cases xs with
  | nil => exact (List.isChain_cons_cons.mp hchain).1.1
  | cons x xs => exact (List.isChain_cons_cons.mp hchain).1.1

lemma IsRing.next_head_eq (hr : IsRing next prev h xs) : next h = some h ↔ xs = [] := by
  rw [hr.next_head]
  cases xs with
  | nil => simp
  | cons x xs =>
    have hne : x ≠ h := fun e => (List.nodup_cons.mp hr.nodup).1 (by simp [e])
    simp [hne]

lemma IsRing.congr (hr : IsRing next prev h xs) (hnext : ∀ x ∈ h :: xs, next' x = next x)
    (hprev : ∀ x ∈ h :: xs, prev' x = prev x) : IsRing next' prev' h xs := by
  refine ⟨hr.nodup, chain_congr hr.chain (fun x hx => hnext x ?_) fun y hy => hprev y ?_⟩
  · rwa [← List.cons_append, List.dropLast_concat] at hx
  · rcases List.mem_append.mp hy with hy | hy
    · exact List.mem_cons_of_mem _ hy
    · rw [List.mem_singleton.mp hy]
      exact List.mem_cons_self

variable [DecidableEq ν]

/-- **A node is put before the head.** -/
theorem IsRing.append (hr : IsRing next prev h xs) {r : ν} (hnew : r ∉ h :: xs) :
    ∃ p ∈ h :: xs, prev h = some p ∧
      IsRing (Function.update (Function.update next p (some r)) r (some h))
        (Function.update (Function.update prev r (some p)) h (some r)) h (xs ++ [r]) := by
  obtain ⟨ys, p, hyp⟩ : ∃ ys p, h :: xs = ys ++ [p] :=
    (List.eq_nil_or_concat' _).resolve_left (List.cons_ne_nil h xs)
  have hp : p ∈ h :: xs := by simp [hyp]
  have hpr : p ≠ r := fun e => hnew (e ▸ hp)
  have hrh : r ≠ h := fun e => hnew (e ▸ List.mem_cons_self)
  have hnd := hr.nodup
  have hchain := hr.chain
  rw [← List.cons_append, hyp, List.append_assoc, List.singleton_append,
    List.isChain_append_cons_cons] at hchain
  obtain ⟨hfront, ⟨-, hprev⟩, -⟩ := hchain
  refine ⟨p, hp, hprev, ?_, ?_⟩
  · rw [← List.cons_append, List.nodup_append]
    refine ⟨hnd, List.nodup_singleton r, fun x hx y hy => ?_⟩
    rw [List.mem_singleton.mp hy]
    rintro rfl
    exact hnew hx
  · rw [← List.cons_append, ← List.cons_append, hyp, List.append_assoc, List.append_assoc]
    simp only [List.singleton_append, List.isChain_append_cons_cons]
    refine ⟨chain_congr hfront (fun x hx => ?_) fun y hy => ?_, ⟨?_, ?_⟩, ?_⟩
    · -- forward pointers before the last node
      rw [List.dropLast_concat] at hx
      have hxp : x ≠ p := by
        rw [hyp] at hnd
        rintro rfl
        exact (List.nodup_append.mp hnd).2.2 x hx x List.mem_cons_self rfl
      have hxr : x ≠ r := by
        rintro rfl
        exact hnew (by simp [hyp, hx])
      rw [Function.update_of_ne hxr, Function.update_of_ne hxp]
    · -- pointers back to it
      rw [← hyp, List.tail_cons] at hy
      have hyh : y ≠ h := by
        rintro rfl
        exact (List.nodup_cons.mp hnd).1 hy
      have hyr : y ≠ r := by
        rintro rfl
        exact hnew (List.mem_cons_of_mem _ hy)
      rw [Function.update_of_ne hyh, Function.update_of_ne hyr]
    · rw [Function.update_of_ne hpr, Function.update_self]
    · rw [Function.update_of_ne hrh, Function.update_self]
    · refine .cons_cons ⟨?_, ?_⟩ (.singleton h)
      · rw [Function.update_self]
      · rw [Function.update_self]

/-- **A node is taken out.** -/
theorem IsRing.detach {ys : List ν} {x : ν} (hr : IsRing next prev h (xs ++ x :: ys)) :
    ∃ p ∈ h :: xs, ∃ n ∈ ys ++ [h], prev x = some p ∧ next x = some n ∧
      IsRing (Function.update next p (some n)) (Function.update prev n (some p)) h (xs ++ ys) := by
  obtain ⟨as, p, hap⟩ : ∃ as p, h :: xs = as ++ [p] :=
    (List.eq_nil_or_concat' _).resolve_left (List.cons_ne_nil h xs)
  obtain ⟨n, bs, hnb⟩ : ∃ n bs, ys ++ [h] = n :: bs := by
    cases ys with
    | nil => exact ⟨h, [], rfl⟩
    | cons y ys => exact ⟨y, ys ++ [h], rfl⟩
  have hp : p ∈ h :: xs := by simp [hap]
  have hn : n ∈ ys ++ [h] := by simp [hnb]
  have hnd := hr.nodup
  rw [← List.cons_append, List.nodup_append, List.nodup_cons (a := x)] at hnd
  obtain ⟨hndl, ⟨-, hndr⟩, hdis⟩ := hnd
  have hhys : h ∉ ys := fun hy => hdis h List.mem_cons_self h (List.mem_cons_of_mem _ hy) rfl
  have hchain := hr.chain
  rw [List.append_assoc, ← List.cons_append, hap, List.append_assoc, List.singleton_append,
    List.cons_append, hnb, List.isChain_append_cons_cons, List.isChain_cons_cons] at hchain
  obtain ⟨hfront, ⟨-, hprev⟩, ⟨hnext, -⟩, hback⟩ := hchain
  refine ⟨p, hp, n, hn, hprev, hnext, ?_, ?_⟩
  · rw [← List.cons_append, List.nodup_append]
    exact ⟨hndl, hndr, fun a ha b hb => hdis a ha b (List.mem_cons_of_mem _ hb)⟩
  · rw [List.append_assoc, ← List.cons_append, hap, hnb, List.append_assoc, List.singleton_append,
      List.isChain_append_cons_cons]
    refine ⟨chain_congr hfront (fun y hy => ?_) fun y hy => ?_, ⟨?_, ?_⟩,
      chain_congr hback (fun y hy => ?_) fun y hy => ?_⟩
    · rw [List.dropLast_concat] at hy
      refine Function.update_of_ne ?_ ..
      rw [hap] at hndl
      rintro rfl
      exact (List.nodup_append.mp hndl).2.2 y hy y List.mem_cons_self rfl
    · rw [← hap, List.tail_cons] at hy
      refine Function.update_of_ne ?_ ..
      rintro rfl
      rcases List.mem_append.mp hn with hn | hn
      · exact hdis y (List.mem_cons_of_mem _ hy) y (List.mem_cons_of_mem _ hn) rfl
      · rw [List.mem_singleton.mp hn] at hy
        exact (List.nodup_cons.mp hndl).1 hy
    · exact Function.update_self ..
    · exact Function.update_self ..
    · rw [← hnb, List.dropLast_concat] at hy
      refine Function.update_of_ne ?_ ..
      rintro rfl
      exact hdis y hp y (List.mem_cons_of_mem _ hy) rfl
    · rw [List.tail_cons] at hy
      refine Function.update_of_ne ?_ ..
      rintro rfl
      have hall : (ys ++ [h]).Nodup := by
        rw [List.nodup_append]
        refine ⟨hndr, List.nodup_singleton h, fun a ha b hb => ?_⟩
        rw [List.mem_singleton.mp hb]
        rintro rfl
        exact hhys ha
      rw [hnb] at hall
      exact (List.nodup_cons.mp hall).1 hy

end ByoRedis.Lib.Rings
