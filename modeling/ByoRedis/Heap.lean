import Mathlib.Logic.Function.Basic
import ByoRedis.Basic

/-!
The array heap of timers, whose items write their positions back through a pointer.

The positions written are kept as one map from the owners of the items. A position is an
option: `none` is `(size_t)-1`, which is past the end of every array.
-/

namespace ByoRedis.Heap

open ByoRedis.Basic

structure HeapItem (ρ : Type) where
  /-- The expiration time, a `uint64_t`. -/
  val : ℕ
  /-- The owner of the index written back. -/
  ref : ρ
  deriving DecidableEq, Repr

/-- The array, and the index held by each owner. -/
structure Timers (ρ : Type) where
  a : List (HeapItem ρ) := []
  idx : ρ → Option ℕ := fun _ => none

variable {ρ : Type} [DecidableEq ρ]

def heapParent (i : ℕ) : ℕ := (i - 1) / 2

def heapLeft (i : ℕ) : ℕ := 2 * i + 1

def heapRight (i : ℕ) : ℕ := 2 * i + 2

/-- `a[pos] = t; *a[pos].ref = pos` -/
def place (h : Timers ρ) (pos : ℕ) (t : HeapItem ρ) : Timers ρ :=
  ⟨h.a.set pos t, Function.update h.idx t.ref (some pos)⟩

/-- The loop of `heap_up`, moving the hole at `pos` to where `t` belongs. -/
def heapUpLoop : ℕ → Timers ρ → ℕ → HeapItem ρ → Eff (Timers ρ)
  | 0, _, _, _ => throw .spin
  | fuel + 1, h, pos, t =>
    if 0 < pos then
      match h.a[heapParent pos]? with
      | none => throw .access
      | some p =>
        if t.val < p.val then heapUpLoop fuel (place h pos p) (heapParent pos) t
        else pure (place h pos t)
    else pure (place h pos t)

def heapUp (h : Timers ρ) (pos : ℕ) : Eff (Timers ρ) :=
  match h.a[pos]? with
  | none => throw .access
  | some t => heapUpLoop (pos + 1) h pos t

/-- The smaller of the kids of `pos` where it is smaller than `t`, else `pos`. -/
def minPos (h : Timers ρ) (pos len : ℕ) (t : HeapItem ρ) : Eff ℕ := do
  let l := heapLeft pos
  let r := heapRight pos
  let (minPos, minVal) ←
    if l < len then
      match h.a[l]? with
      | none => throw .access
      | some k => pure (if k.val < t.val then (l, k.val) else (pos, t.val))
    else pure (pos, t.val)
  if r < len then
    match h.a[r]? with
    | none => throw .access
    | some k => pure (if k.val < minVal then r else minPos)
  else pure minPos

def heapDownLoop : ℕ → Timers ρ → ℕ → ℕ → HeapItem ρ → Eff (Timers ρ)
  | 0, _, _, _, _ => throw .spin
  | fuel + 1, h, pos, len, t => do
    let min ← minPos h pos len t
    if min = pos then pure (place h pos t)
    else
      match h.a[min]? with
      | none => throw .access
      | some k => heapDownLoop fuel (place h pos k) min len t

def heapDown (h : Timers ρ) (pos len : ℕ) : Eff (Timers ρ) :=
  match h.a[pos]? with
  | none => throw .access
  | some t => heapDownLoop (len + 1) h pos len t

def heapUpdate (h : Timers ρ) (pos len : ℕ) : Eff (Timers ρ) :=
  if 0 < pos then
    match h.a[pos]?, h.a[heapParent pos]? with
    | some t, some p => if t.val < p.val then heapUp h pos else heapDown h pos len
    | _, _ => throw .access
  else heapDown h pos len

/-- `heap_delete`: the last item replaces the erased one. -/
def heapDelete (h : Timers ρ) (pos : Option ℕ) : Eff (Timers ρ) :=
  match pos with
  | none => pure h
  | some pos =>
    if h.a.length ≤ pos then pure h
    else
      match h.a.getLast? with
      | none => throw .access
      | some last =>
        let h := { h with a := (h.a.set pos last).dropLast }
        if pos < h.a.length then heapUpdate h pos h.a.length else pure h

def heapInsert (h : Timers ρ) (t : HeapItem ρ) : Eff (Timers ρ) :=
  let h := { h with a := h.a ++ [t] }
  heapUpdate h (h.a.length - 1) h.a.length

/-- `heap_upsert`: update the item at a position, or add a new one. -/
def heapUpsert (h : Timers ρ) (pos : Option ℕ) (t : HeapItem ρ) : Eff (Timers ρ) :=
  match pos.filter (· < h.a.length) with
  | some pos =>
    let h := { h with a := h.a.set pos t }
    heapUpdate h pos h.a.length
  | none =>
    let pos := h.a.length
    let h := { h with a := h.a ++ [t] }
    heapUpdate h pos h.a.length

end ByoRedis.Heap
