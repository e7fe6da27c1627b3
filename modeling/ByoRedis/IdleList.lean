import ByoRedis.Basic
import ByoRedis.Lib.Rings

/-!
Intrusive doubly linked lists, kept in the memory of their nodes.

A node that is not there was freed, or never allocated; to go to it, or through `NULL`, is an
access to what is not there. A list is a ring of nodes with a dummy head.
-/

namespace ByoRedis.IdleList

open ByoRedis.Basic ByoRedis.Lib.Runs ByoRedis.Lib.Rings

/-- `struct DList`; `none` is `NULL`. -/
structure DList (ν : Type) where
  prev : Option ν := none
  next : Option ν := none
  deriving DecidableEq, Repr

abbrev Nodes (ν : Type) := ν → Option (DList ν)

variable {ν : Type}

def deref (m : Nodes ν) (node : Option ν) : Eff (ν × DList ν) :=
  match node with
  | none => throw .access
  | some a =>
    match m a with
    | none => throw .access
    | some d => pure (a, d)

section Code

variable [DecidableEq ν]

/-- `node->next = next` -/
def setNext (m : Nodes ν) (node next : Option ν) : Eff (Nodes ν) := do
  let (a, d) ← deref m node
  pure (Function.update m a (some { d with next := next }))

/-- `node->prev = prev` -/
def setPrev (m : Nodes ν) (node prev : Option ν) : Eff (Nodes ν) := do
  let (a, d) ← deref m node
  pure (Function.update m a (some { d with prev := prev }))

def dlistInit (m : Nodes ν) (node : ν) : Eff (Nodes ν) := do
  let m ← setPrev m (some node) (some node)
  setNext m (some node) (some node)

def dlistEmpty (m : Nodes ν) (node : ν) : Eff Bool := do
  let (_, d) ← deref m (some node)
  pure (d.next == some node)

def dlistDetach (m : Nodes ν) (node : ν) : Eff (Nodes ν) := do
  let (_, d) ← deref m (some node)
  let prev := d.prev
  let next := d.next
  let m ← setNext m prev next
  setPrev m next prev

def dlistInsertBefore (m : Nodes ν) (target rookie : ν) : Eff (Nodes ν) := do
  let (_, d) ← deref m (some target)
  let prev := d.prev
  let m ← setNext m prev (some rookie)
  let m ← setPrev m (some rookie) prev
  let m ← setNext m (some rookie) (some target)
  setPrev m (some target) (some rookie)

end Code

/-! ### Pointers -/

def nextOf (m : Nodes ν) (a : ν) : Option ν := (m a).bind DList.next

def prevOf (m : Nodes ν) (a : ν) : Option ν := (m a).bind DList.prev

/-- A list with its head, in order. -/
abbrev IsList (m : Nodes ν) (h : ν) (xs : List ν) : Prop := IsRing (nextOf m) (prevOf m) h xs

def SameNodes (m m' : Nodes ν) : Prop := ∀ a, (m' a).isSome = (m a).isSome

variable {m m' m'' : Nodes ν} {a h : ν} {xs ys : List ν}

lemma SameNodes.trans (h₁ : SameNodes m m') (h₂ : SameNodes m' m'') : SameNodes m m'' := fun a =>
  (h₂ a).trans (h₁ a)

lemma isSome_of_nextOf {b : ν} (h : nextOf m a = some b) : (m a).isSome := by
  unfold nextOf at h
  cases hm : m a with
  | none => simp [hm] at h
  | some d => rfl

lemma IsList.allocated (hl : IsList m h xs) (ha : a ∈ h :: xs) : (m a).isSome := by
  obtain ⟨as, bs, hab⟩ := List.append_of_mem ha
  have hchain := hl.chain
  rw [← List.cons_append, hab, List.append_assoc] at hchain
  obtain ⟨b, cs, hb⟩ : ∃ b cs, bs ++ [h] = b :: cs := by
    cases bs with
    | nil => exact ⟨h, [], rfl⟩
    | cons b bs => exact ⟨b, bs ++ [h], rfl⟩
  rw [List.cons_append, hb, List.isChain_append_cons_cons] at hchain
  exact isSome_of_nextOf hchain.2.1.1

/-! ### Operations -/

variable [DecidableEq ν]

lemma sameNodes_update {d : DList ν} (hs : (m a).isSome) :
    SameNodes m (Function.update m a (some d)) := by
  intro b
  by_cases hb : b = a
  · rw [hb, Function.update_self, hs]
    rfl
  · rw [Function.update_of_ne hb]

lemma setNext_spec (hs : (m a).isSome) (v : Option ν) :
    ∃ m', setNext m (some a) v = .ok m' ∧ nextOf m' = Function.update (nextOf m) a v ∧
      prevOf m' = prevOf m ∧ SameNodes m m' := by
  obtain ⟨d, hd⟩ := Option.isSome_iff_exists.mp hs
  refine ⟨Function.update m a (some { d with next := v }), by simp [setNext, deref, hd], ?_, ?_,
    sameNodes_update hs⟩
  · funext b
    by_cases hb : b = a
    · simp [nextOf, hb]
    · simp [nextOf, Function.update_of_ne hb]
  · funext b
    by_cases hb : b = a
    · simp [prevOf, hb, hd]
    · simp [prevOf, Function.update_of_ne hb]

lemma setPrev_spec (hs : (m a).isSome) (v : Option ν) :
    ∃ m', setPrev m (some a) v = .ok m' ∧ prevOf m' = Function.update (prevOf m) a v ∧
      nextOf m' = nextOf m ∧ SameNodes m m' := by
  obtain ⟨d, hd⟩ := Option.isSome_iff_exists.mp hs
  refine ⟨Function.update m a (some { d with prev := v }), by simp [setPrev, deref, hd], ?_, ?_,
    sameNodes_update hs⟩
  · funext b
    by_cases hb : b = a
    · simp [prevOf, hb]
    · simp [prevOf, Function.update_of_ne hb]
  · funext b
    by_cases hb : b = a
    · simp [nextOf, hb, hd]
    · simp [nextOf, Function.update_of_ne hb]

/-- **`dlist_init`** makes an empty list. -/
theorem dlistInit_spec (hs : (m h).isSome) :
    ∃ m', dlistInit m h = .ok m' ∧ IsList m' h [] ∧ SameNodes m m' := by
  obtain ⟨m₁, h₁, hp₁, hn₁, hs₁⟩ := setPrev_spec hs (some h)
  obtain ⟨m₂, h₂, hn₂, hp₂, hs₂⟩ := setNext_spec ((hs₁ h).trans hs) (some h)
  refine ⟨m₂, by simp only [dlistInit, h₁, ok_bind, h₂], isRing_nil ?_ ?_, hs₁.trans hs₂⟩
  · rw [hn₂, Function.update_self]
  · rw [hp₂, hp₁, Function.update_self]

/-- **`dlist_empty`** -/
theorem dlistEmpty_spec (hl : IsList m h xs) : dlistEmpty m h = .ok xs.isEmpty := by
  obtain ⟨d, hd⟩ := Option.isSome_iff_exists.mp (hl.allocated List.mem_cons_self)
  have hnext : nextOf m h = d.next := by simp [nextOf, hd]
  have hiff := hl.next_head_eq
  rw [hnext] at hiff
  simp only [dlistEmpty, deref, hd, ok_bind, pure_eq_ok, Except.ok.injEq]
  rw [Bool.eq_iff_iff, beq_iff_eq, List.isEmpty_iff, hiff]

/-- **`dlist_insert_before`** the head puts a node at the end. -/
theorem dlistInsertBefore_spec (hl : IsList m h xs) {r : ν} (hnew : r ∉ h :: xs)
    (hs : (m r).isSome) :
    ∃ m', dlistInsertBefore m h r = .ok m' ∧ IsList m' h (xs ++ [r]) ∧ SameNodes m m' := by
  obtain ⟨p, hp, hprev, hring⟩ := hl.append hnew
  have hh := hl.allocated List.mem_cons_self
  obtain ⟨d, hd⟩ := Option.isSome_iff_exists.mp hh
  have hdp : d.prev = some p := by simpa [prevOf, hd] using hprev
  obtain ⟨m₁, h₁, hn₁, hp₁, hs₁⟩ := setNext_spec (hl.allocated hp) (some r)
  obtain ⟨m₂, h₂, hp₂, hn₂, hs₂⟩ := setPrev_spec ((hs₁ r).trans hs) (some p)
  have hs₁₂ := hs₁.trans hs₂
  obtain ⟨m₃, h₃, hn₃, hp₃, hs₃⟩ := setNext_spec ((hs₁₂ r).trans hs) (some h)
  have hs₁₃ := hs₁₂.trans hs₃
  obtain ⟨m₄, h₄, hp₄, hn₄, hs₄⟩ := setPrev_spec ((hs₁₃ h).trans hh) (some r)
  refine ⟨m₄, ?_, ?_, hs₁₃.trans hs₄⟩
  · simp only [dlistInsertBefore, deref, hd, ok_bind, pure_eq_ok, hdp, h₁, h₂, h₃, h₄]
  · unfold IsList
    rw [hn₄, hn₃, hn₂, hn₁, hp₄, hp₃, hp₂, hp₁]
    exact hring

/-- **`dlist_detach`** takes a node out of its list. -/
theorem dlistDetach_spec {x : ν} (hl : IsList m h (xs ++ x :: ys)) :
    ∃ m', dlistDetach m x = .ok m' ∧ IsList m' h (xs ++ ys) ∧ SameNodes m m' := by
  obtain ⟨p, hp, n, hn, hprev, hnext, hring⟩ := hl.detach
  have hx := hl.allocated (a := x) (by simp)
  obtain ⟨d, hd⟩ := Option.isSome_iff_exists.mp hx
  have hdp : d.prev = some p := by simpa [prevOf, hd] using hprev
  have hdn : d.next = some n := by simpa [nextOf, hd] using hnext
  have hpa : (m p).isSome := hl.allocated (by
    rw [← List.cons_append]
    exact List.mem_append_left _ hp)
  have hna : (m n).isSome := hl.allocated (by
    rcases List.mem_append.mp hn with hn | hn
    · simp [hn]
    · rw [List.mem_singleton.mp hn]
      exact List.mem_cons_self)
  obtain ⟨m₁, h₁, hn₁, hp₁, hs₁⟩ := setNext_spec hpa (some n)
  obtain ⟨m₂, h₂, hp₂, hn₂, hs₂⟩ := setPrev_spec ((hs₁ n).trans hna) (some p)
  refine ⟨m₂, ?_, ?_, hs₁.trans hs₂⟩
  · simp only [dlistDetach, deref, hd, ok_bind, pure_eq_ok, hdp, hdn, h₁, h₂]
  · unfold IsList
    rw [hn₂, hn₁, hp₂, hp₁]
    exact hring

end ByoRedis.IdleList
