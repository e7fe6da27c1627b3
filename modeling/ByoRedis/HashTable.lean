import Mathlib.Data.Nat.Notation
import ByoRedis.Basic

/-!
The chained hash table and the map of two of them that rehashes progressively.

A slot is the list of the nodes chained in it, first node first, and the array of slots is
empty where the source has `NULL`. Counters are natural numbers: a table of `size_t` nodes
does not fit in memory.
-/

namespace ByoRedis.HashTable

open ByoRedis.Basic

/-- An intrusive node: the hash of its key, and the structure it is embedded in. -/
structure HNode (ρ : Type) where
  hcode : ℕ
  ref : ρ
  deriving DecidableEq, Repr

structure HTab (ρ : Type) where
  tab : List (List (HNode ρ)) := []
  mask : ℕ := 0
  size : ℕ := 0
  deriving DecidableEq, Repr

structure HMap (ρ : Type) where
  newer : HTab ρ := {}
  older : HTab ρ := {}
  migratePos : ℕ := 0
  deriving DecidableEq, Repr

/-- `k_max_load_factor` -/
def maxLoadFactor : ℕ := 8

/-- `k_rehashing_work`: how many nodes one operation moves. -/
def rehashingWork : ℕ := 128

/-- `round_up_power_of_2`; both callers pass a positive number, so `n - 1` does not wrap. -/
def roundUpPowerOf2 (n : ℕ) : ℕ :=
  let n := n - 1
  let n := n ||| n >>> 1
  let n := n ||| n >>> 2
  let n := n ||| n >>> 4
  let n := n ||| n >>> 8
  let n := n ||| n >>> 16
  let n := n ||| n >>> 32
  n + 1

variable {ρ κ β : Type}

def hInit (n : ℕ) : Eff (HTab ρ) :=
  let n := roundUpPowerOf2 n
  if 0 < n ∧ (n - 1) &&& n = 0 then pure ⟨List.replicate n [], n - 1, 0⟩
  else throw .assertion

/-- `h_insert`: insert at the front of the chain. -/
def hInsert (htab : HTab ρ) (node : HNode ρ) : Eff (HTab ρ) :=
  let pos := node.hcode &&& htab.mask
  match htab.tab[pos]? with
  | none => throw .access
  | some next =>
    pure { htab with tab := htab.tab.set pos (node :: next), size := htab.size + 1 }

/-- `h_lookup`: the pointer that holds the node found, as its slot and place in the chain. -/
def hLookup (htab : HTab ρ) (key : HNode κ) (eq : HNode ρ → HNode κ → Bool) :
    Eff (Option (ℕ × ℕ)) :=
  if htab.tab.isEmpty then pure none
  else
    let pos := key.hcode &&& htab.mask
    match htab.tab[pos]? with
    | none => throw .access
    | some chain =>
      pure ((chain.findIdx? fun cur => cur.hcode == key.hcode && eq cur key).map (pos, ·))

def hDetach (htab : HTab ρ) (fr : ℕ × ℕ) : Eff (HTab ρ × HNode ρ) :=
  match htab.tab[fr.1]? with
  | none => throw .access
  | some chain =>
    match chain[fr.2]? with
    | none => throw .access
    | some node =>
      pure ({ htab with
        tab := htab.tab.set fr.1 (chain.eraseIdx fr.2), size := htab.size - 1 }, node)

def hmTriggerRehashing (hmap : HMap ρ) : Eff (HMap ρ) := do
  let newer ← hInit ((hmap.newer.mask + 1) * 2)
  pure ⟨newer, hmap.newer, 0⟩

def hmHelpLoop : ℕ → ℕ → HMap ρ → Eff (HMap ρ)
  | 0, _, _ => throw .spin
  | fuel + 1, nwork, hmap =>
    if nwork < rehashingWork ∧ 0 < hmap.older.size then
      match hmap.older.tab[hmap.migratePos]? with
      | none => throw .access
      | some [] => hmHelpLoop fuel nwork { hmap with migratePos := hmap.migratePos + 1 }
      | some (_ :: _) => do
        let (older, node) ← hDetach hmap.older (hmap.migratePos, 0)
        let newer ← hInsert hmap.newer node
        hmHelpLoop fuel (nwork + 1) { hmap with newer := newer, older := older }
    else pure hmap

/-- `hm_help_rehashing`. A round of its loop moves a node or passes a slot. -/
def hmHelpRehashing (hmap : HMap ρ) : Eff (HMap ρ) := do
  let hmap ← hmHelpLoop (rehashingWork + hmap.older.tab.length + 1) 0 hmap
  if hmap.older.size = 0 ∧ hmap.older.tab ≠ [] then pure { hmap with older := {} }
  else pure hmap

/-- `*from` -/
def nodeAt (htab : HTab ρ) (fr : ℕ × ℕ) : Eff (HNode ρ) :=
  match (htab.tab[fr.1]?.getD [])[fr.2]? with
  | none => throw .access
  | some node => pure node

def hmLookup (hmap : HMap ρ) (key : HNode κ) (eq : HNode ρ → HNode κ → Bool) :
    Eff (HMap ρ × Option (HNode ρ)) := do
  let hmap ← hmHelpRehashing hmap
  match ← hLookup hmap.newer key eq with
  | some fr =>
    let node ← nodeAt hmap.newer fr
    pure (hmap, some node)
  | none =>
    match ← hLookup hmap.older key eq with
    | some fr =>
      let node ← nodeAt hmap.older fr
      pure (hmap, some node)
    | none => pure (hmap, none)

def hmDelete (hmap : HMap ρ) (key : HNode κ) (eq : HNode ρ → HNode κ → Bool) :
    Eff (HMap ρ × Option (HNode ρ)) := do
  let hmap ← hmHelpRehashing hmap
  match ← hLookup hmap.newer key eq with
  | some fr =>
    let (newer, node) ← hDetach hmap.newer fr
    pure ({ hmap with newer := newer }, some node)
  | none =>
    match ← hLookup hmap.older key eq with
    | some fr =>
      let (older, node) ← hDetach hmap.older fr
      pure ({ hmap with older := older }, some node)
    | none => pure (hmap, none)

/-- `if (!hmap->newer.tab) h_init(&hmap->newer, 4)` -/
def hmAllocate (hmap : HMap ρ) : Eff (HMap ρ) :=
  if hmap.newer.tab = [] then do
    let newer ← hInit 4
    pure { hmap with newer := newer }
  else pure hmap

/-- Trigger a rehash where the load is high and none is under way. -/
def hmCheckLoad (hmap : HMap ρ) : Eff (HMap ρ) :=
  if hmap.older.tab = [] ∧ (hmap.newer.mask + 1) * maxLoadFactor ≤ hmap.newer.size then
    hmTriggerRehashing hmap
  else pure hmap

def hmInsert (hmap : HMap ρ) (node : HNode ρ) : Eff (HMap ρ) := do
  let hmap ← hmAllocate hmap
  let newer ← hInsert hmap.newer node
  let hmap ← hmCheckLoad { hmap with newer := newer }
  hmHelpRehashing hmap

def hmClear (_ : HMap ρ) : HMap ρ := {}

def hmSize (hmap : HMap ρ) : ℕ := hmap.newer.size + hmap.older.size

/-- The inner loop of `h_foreach`: the callback takes `arg` on, and says whether to go on. -/
def chainForeach (cb : HNode ρ → β → β × Bool) : List (HNode ρ) → β → β × Bool
  | [], arg => (arg, true)
  | node :: rest, arg =>
    match cb node arg with
    | (arg, false) => (arg, false)
    | (arg, true) => chainForeach cb rest arg

/-- The outer loop of `h_foreach`, with the number of slots left. -/
def slotsForeach (htab : HTab ρ) (cb : HNode ρ → β → β × Bool) : ℕ → ℕ → β → Eff (β × Bool)
  | 0, _, arg => pure (arg, true)
  | left + 1, i, arg =>
    match htab.tab[i]? with
    | none => throw .access
    | some chain =>
      match chainForeach cb chain arg with
      | (arg, false) => pure (arg, false)
      | (arg, true) => slotsForeach htab cb left (i + 1) arg

def hForeach (htab : HTab ρ) (cb : HNode ρ → β → β × Bool) (arg : β) : Eff (β × Bool) :=
  if htab.mask ≠ 0 then slotsForeach htab cb (htab.mask + 1) 0 arg else pure (arg, true)

def hmForeach (hmap : HMap ρ) (cb : HNode ρ → β → β × Bool) (arg : β) : Eff β := do
  let (arg, go) ← hForeach hmap.newer cb arg
  if go then do
    let (arg, _) ← hForeach hmap.older cb arg
    pure arg
  else pure arg

end ByoRedis.HashTable
