import ByoRedis.HashSpec

/-!
The load of the hash map, over every run of its operations.

The next rehash is only considered when no migration is under way, so that nothing in the code
bounds the load during one. What does is a potential: an insertion adds a node and moves up to
`rehashingWork` of the old table, so `rehashingWork * hmSize + older.size` does not grow.
-/

namespace ByoRedis.HashLoad

open ByoRedis.Basic ByoRedis.HashTable ByoRedis.HashSpec ByoRedis.Lib.Runs

variable {ρ κ : Type}

/-! ### Sizes

What the operations do to the counters and masks, whatever is chained in the tables. -/

lemma hInsert_sizes {t t' : HTab ρ} {n : HNode ρ} (h : hInsert t n = .ok t') :
    t'.size = t.size + 1 ∧ t'.mask = t.mask ∧ (t'.tab = [] ↔ t.tab = []) := by
  unfold hInsert at h
  simp only at h
  split at h
  · cases h
  · cases h
    simp

lemma hDetach_sizes {t t' : HTab ρ} {fr : ℕ × ℕ} {n : HNode ρ} (h : hDetach t fr = .ok (t', n)) :
    t'.size = t.size - 1 ∧ t'.mask = t.mask ∧ (t'.tab = [] ↔ t.tab = []) := by
  unfold hDetach at h
  split at h
  · cases h
  · split at h
    · cases h
    · cases h
      simp

/-- Two maps with tables of the same shape and as many nodes in all, `moved` nodes of them
having gone from the older to the newer table. -/
structure Moves (moved : ℕ) (h h' : HMap ρ) : Prop where
  older : h'.older.size = h.older.size - moved
  sum : hmSize h' = hmSize h
  newerMask : h'.newer.mask = h.newer.mask
  olderMask : h'.older.mask = h.older.mask
  newerTab : h'.newer.tab = [] ↔ h.newer.tab = []
  olderTab : h'.older.tab = [] ↔ h.older.tab = []

lemma hmHelpLoop_moves {fuel nwork : ℕ} {h h' : HMap ρ} (he : hmHelpLoop fuel nwork h = .ok h') :
    Moves (rehashingWork - nwork) h h' := by
  induction fuel generalizing nwork h with
  | zero => cases he
  | succ fuel ih =>
    unfold hmHelpLoop at he
    split_ifs at he with hgo
    · split at he
      · cases he
      · obtain ⟨h1, h2, h3, h4, h5, h6⟩ := ih he
        exact ⟨h1, h2, h3, h4, h5, h6⟩
      · obtain ⟨⟨o, n⟩, hd, he⟩ := bind_eq_ok.mp he
        obtain ⟨t, hi, he⟩ := bind_eq_ok.mp he
        obtain ⟨ds, dm, dt⟩ := hDetach_sizes hd
        obtain ⟨is, im, it⟩ := hInsert_sizes hi
        obtain ⟨h1, h2, h3, h4, h5, h6⟩ := ih he
        refine ⟨?_, ?_, h3.trans im, h4.trans dm, h5.trans it, h6.trans dt⟩
        · simp only [ds] at h1
          omega
        · simp only [hmSize, ds, is] at h2 ⊢
          omega
    · cases he
      refine ⟨?_, rfl, rfl, rfl, .rfl, .rfl⟩
      omega

/-- Up to `rehashingWork` nodes are moved, and a table left without nodes is released. -/
lemma hmHelpRehashing_moves {h h' : HMap ρ} (he : hmHelpRehashing h = .ok h') :
    ∃ h₁, Moves rehashingWork h h₁ ∧
      (h' = h₁ ∧ (h₁.older.tab = [] ∨ 0 < h₁.older.size) ∨
        h' = { h₁ with older := {} } ∧ h₁.older.size = 0 ∧ h₁.older.tab ≠ []) := by
  obtain ⟨h₁, hl, he⟩ := bind_eq_ok.mp he
  refine ⟨h₁, hmHelpLoop_moves hl, ?_⟩
  split_ifs at he with hd
  · cases he
    exact .inr ⟨rfl, hd⟩
  · cases he
    refine .inl ⟨rfl, ?_⟩
    by_cases ht : h'.older.tab = []
    · exact .inl ht
    · exact .inr (Nat.pos_of_ne_zero fun hz => hd ⟨hz, ht⟩)

/-! ### The potential -/

/-- The load of a well-formed map: below the threshold outside a migration, and during one
bounded by the potential its trigger started it with. -/
structure Light (h : HMap ρ) : Prop where
  wf : WF h
  resting : h.older.tab = [] → h.newer.tab ≠ [] →
    hmSize h < maxLoadFactor * (h.newer.mask + 1)
  migrating : h.older.tab ≠ [] →
    rehashingWork * hmSize h + h.older.size ≤
      (rehashingWork + 1) * (maxLoadFactor * (h.older.mask + 1))

lemma light_empty : Light ({} : HMap ρ) :=
  ⟨wf_empty, by simp, by simp⟩

/-- A migration under way is one between tables of which the newer has twice the slots. -/
lemma WF.twice {h : HMap ρ} (w : WF h) (ht : h.older.tab ≠ []) :
    Table h.older ∧ Table h.newer ∧ h.newer.mask + 1 = 2 * (h.older.mask + 1) :=
  w.older.resolve_left fun e => ht (by rw [e])

/-- During a migration the newer table is far from its threshold. -/
lemma Light.far {h : HMap ρ} (l : Light h) (ht : h.older.tab ≠ []) :
    hmSize h + 1 < maxLoadFactor * (h.newer.mask + 1) := by
  obtain ⟨hto, -, htwice⟩ := WF.twice l.wf ht
  have h4 := hto.four
  have hm := l.migrating ht
  simp only [rehashingWork, maxLoadFactor] at hm ⊢
  omega

lemma Light.load {h : HMap ρ} (l : Light h) (ht : h.newer.tab ≠ []) :
    hmSize h < maxLoadFactor * (h.newer.mask + 1) := by
  by_cases hold : h.older.tab = []
  · exact l.resting hold ht
  · have := l.far hold
    omega

/-- The step that pays for an insertion: `h` may be over the potential by as much as moving
`rehashingWork` nodes gives back. -/
lemma light_of_moves {h h' : HMap ρ} (w : WF h) (he : hmHelpRehashing h = .ok h')
    (hrest : h.older.tab = [] → h.newer.tab ≠ [] →
      hmSize h < maxLoadFactor * (h.newer.mask + 1))
    (hmig : h.older.tab ≠ [] → rehashingWork * hmSize h + h.older.size ≤
      (rehashingWork + 1) * (maxLoadFactor * (h.older.mask + 1)) + rehashingWork) :
    Light h' := by
  obtain ⟨h₂, he₂, w', -⟩ := hmHelpRehashing_spec w
  obtain rfl : h₂ = h' := Except.ok.inj (he₂.symm.trans he)
  obtain ⟨h₁, m, ⟨rfl, hcase⟩ | ⟨rfl, hz, htab⟩⟩ := hmHelpRehashing_moves he
  · refine ⟨w', fun ho hn => ?_, fun ho => ?_⟩
    · rw [m.sum, m.newerMask]
      exact hrest (m.olderTab.mp ho) (mt m.newerTab.mpr hn)
    · have hpos := hcase.resolve_left ho
      have hb := hmig (mt m.olderTab.mpr ho)
      rw [m.older] at hpos
      rw [m.sum, m.olderMask, m.older]
      omega
  · refine ⟨w', fun _ _ => ?_, fun ho => absurd rfl ho⟩
    -- the last node has been moved
    have ho := mt m.olderTab.mpr htab
    obtain ⟨hto, -, htwice⟩ := WF.twice w ho
    have h4 := hto.four
    have hb := hmig ho
    have hsum := m.sum
    have hsize : hmSize ({ h₁ with older := {} } : HMap ρ) = hmSize h₁ := by
      simp [hmSize, hz]
    rw [hsize, hsum, m.newerMask, htwice]
    simp only [rehashingWork, maxLoadFactor] at hb ⊢
    omega

/-! ### The operations -/

lemma hmHelpRehashing_light {h : HMap ρ} (l : Light h) :
    ∃ h', hmHelpRehashing h = .ok h' ∧ Light h' := by
  obtain ⟨h', he, -⟩ := hmHelpRehashing_spec l.wf
  refine ⟨h', he, light_of_moves l.wf he l.resting fun ho => ?_⟩
  exact (l.migrating ho).trans (Nat.le_add_right _ _)

lemma hmLookup_light {h : HMap ρ} (l : Light h) (key : HNode κ) (eq : HNode ρ → HNode κ → Bool) :
    ∃ h' r, hmLookup h key eq = .ok (h', r) ∧ Light h' := by
  obtain ⟨h', r, he, -⟩ := hmLookup_spec l.wf key eq
  obtain ⟨h₁, hh, l₁⟩ := hmHelpRehashing_light l
  refine ⟨h', r, he, ?_⟩
  suffices h' = h₁ by rwa [this]
  -- a lookup changes the map by migrating only
  simp only [hmLookup, hh, ok_bind] at he
  obtain ⟨f, -, he⟩ := bind_eq_ok.mp he
  cases f with
  | some fr =>
    obtain ⟨n, -, he⟩ := bind_eq_ok.mp he
    cases he
    rfl
  | none =>
    obtain ⟨f, -, he⟩ := bind_eq_ok.mp he
    cases f with
    | some fr =>
      obtain ⟨n, -, he⟩ := bind_eq_ok.mp he
      cases he
      rfl
    | none =>
      cases he
      rfl

lemma Light.detach {h h' : HMap ρ} (l : Light h) (w : WF h') (hs : hmSize h' ≤ hmSize h)
    (ho : h'.older.size ≤ h.older.size) (hnm : h'.newer.mask = h.newer.mask)
    (hom : h'.older.mask = h.older.mask) (hnt : h'.newer.tab = [] ↔ h.newer.tab = [])
    (hot : h'.older.tab = [] ↔ h.older.tab = []) : Light h' := by
  refine ⟨w, fun e hn => ?_, fun e => ?_⟩
  · rw [hnm]
    exact hs.trans_lt (l.resting (hot.mp e) (mt hnt.mpr hn))
  · rw [hom]
    exact (Nat.add_le_add (Nat.mul_le_mul_left _ hs) ho).trans (l.migrating (mt hot.mpr e))

lemma hmDelete_light {h : HMap ρ} (l : Light h) (key : HNode κ) (eq : HNode ρ → HNode κ → Bool) :
    ∃ h' r, hmDelete h key eq = .ok (h', r) ∧ Light h' := by
  obtain ⟨h', r, he, w', -⟩ := hmDelete_spec l.wf key eq
  obtain ⟨h₁, hh, l₁⟩ := hmHelpRehashing_light l
  refine ⟨h', r, he, ?_⟩
  simp only [hmDelete, hh, ok_bind] at he
  obtain ⟨f, -, he⟩ := bind_eq_ok.mp he
  cases f with
  | some fr =>
    obtain ⟨⟨t, n⟩, hd, he⟩ := bind_eq_ok.mp he
    obtain ⟨ds, dm, dt⟩ := hDetach_sizes hd
    cases he
    refine l₁.detach w' ?_ le_rfl dm rfl dt .rfl
    simp only [hmSize, ds]
    omega
  | none =>
    obtain ⟨f, -, he⟩ := bind_eq_ok.mp he
    cases f with
    | some fr =>
      obtain ⟨⟨t, n⟩, hd, he⟩ := bind_eq_ok.mp he
      obtain ⟨ds, dm, dt⟩ := hDetach_sizes hd
      cases he
      refine l₁.detach w' ?_ ?_ rfl dm .rfl dt
      · simp only [hmSize, ds]
        omega
      · simp only [ds]
        omega
    | none =>
      cases he
      exact l₁

/-- An insertion is paid for by the nodes it moves. -/
lemma hmInsert_light {h : HMap ρ} (l : Light h) (n : HNode ρ) :
    ∃ h', hmInsert h n = .ok h' ∧ Light h' := by
  obtain ⟨h₁, he₁, w₁, ht₁, -, hcase₁⟩ := hmAllocate_spec l.wf
  obtain ⟨t, het, w₂, htt, -⟩ := insertNewer_spec w₁ ht₁ n
  obtain ⟨h₃, he₃, w₃, hp₃, hcase₃⟩ := hmCheckLoad_spec w₂ htt
  obtain ⟨h₄, he₄, -⟩ := hmHelpRehashing_spec w₃
  refine ⟨h₄, by simp only [hmInsert, he₁, ok_bind, het, he₃, he₄], light_of_moves w₃ he₄ ?_ ?_⟩
  all_goals
    obtain ⟨is, im, it⟩ := hInsert_sizes het
    have hsum : hmSize { h₁ with newer := t } = hmSize h₁ + 1 := by
      simp only [hmSize, is]
      omega
  · intro ho hn
    rcases hcase₃ with ⟨rfl, hlt⟩ | ⟨-, hold⟩
    · have := hlt ho
      simp only at ho
      have hz : h₁.older.size = 0 := by rw [← w₁.length_older, ho]; rfl
      simp only [hmSize, hz] at this ⊢
      rw [Nat.mul_comm]
      exact this
    · rw [hold] at ho
      exact absurd ho htt.tab_ne_nil
  · intro ho
    rcases hcase₃ with ⟨rfl, -⟩ | ⟨hnil, hold⟩
    · -- a migration under way goes on
      rw [hsum]
      rcases hcase₁ with rfl | ⟨-, e⟩
      · have := l.migrating ho
        rw [Nat.mul_add, Nat.mul_one]
        simp only at this ⊢
        omega
      · simp only [e] at ho
        exact absurd rfl ho
    · -- a migration begins with as many nodes as the table was allowed
      have hlen := hp₃.length_eq
      rw [← hmSize_spec w₃, ← hmSize_spec w₂, hsum] at hlen
      simp only at hnil
      have hz : h₁.older.size = 0 := by rw [← w₁.length_older, hnil]; rfl
      have hlt : hmSize h₁ < maxLoadFactor * (h₁.newer.mask + 1) := by
        rcases hcase₁ with rfl | ⟨e, -⟩
        · exact l.resting hnil ht₁.tab_ne_nil
        · rw [e, maxLoadFactor]
          omega
      rw [hlen, hold, is, im]
      simp only [hmSize, hz, rehashingWork, maxLoadFactor] at hlt ⊢
      omega

/-! ### Runs -/

inductive Op (ρ κ : Type)
  | insert (node : HNode ρ)
  | lookup (key : HNode κ) (eq : HNode ρ → HNode κ → Bool)
  | delete (key : HNode κ) (eq : HNode ρ → HNode κ → Bool)

def perform (h : HMap ρ) : Op ρ κ → Eff (HMap ρ × Option (HNode ρ))
  | .insert node => do
    let h ← hmInsert h node
    pure (h, none)
  | .lookup key eq => hmLookup h key eq
  | .delete key eq => hmDelete h key eq

lemma perform_light {h : HMap ρ} (l : Light h) (op : Op ρ κ) :
    ∃ h' r, perform h op = .ok (h', r) ∧ Light h' := by
  cases op with
  | insert node =>
    obtain ⟨h', he, l'⟩ := hmInsert_light l node
    exact ⟨h', none, by simp only [perform, he, ok_bind]; rfl, l'⟩
  | lookup key eq => exact hmLookup_light l key eq
  | delete key eq => exact hmDelete_light l key eq

/-- The structure of a map of at most two tables: each well formed, the older half as large as
the newer and empty up to the migration position, which is in range while it holds a node, so
that a step of the migration goes through; and the load is below the threshold, by more than a
node during a migration. -/
structure Structured (h : HMap ρ) : Prop where
  newer : h.newer.tab = [] ∧ h.newer.size = 0 ∨ Table h.newer
  older : h.older.tab = [] ∧ h.older.size = 0 ∨ Table h.older
  twice : h.older.tab ≠ [] → h.newer.tab ≠ [] ∧ h.newer.mask + 1 = 2 * (h.older.mask + 1)
  migrated : ∀ i < h.migratePos, ∀ c, h.older.tab[i]? = some c → c = []
  inRange : 0 < h.older.size → h.migratePos ≤ h.older.mask
  migrates : ∃ h', hmHelpRehashing h = .ok h'
  load : h.newer.tab ≠ [] → h.newer.size + h.older.size < maxLoadFactor * (h.newer.mask + 1)
  notDue : h.older.tab ≠ [] → h.newer.size + 1 < (h.newer.mask + 1) * maxLoadFactor

lemma Light.structured {h : HMap ρ} (l : Light h) : Structured h where
  newer := l.wf.newer.imp_left fun e => by rw [e]; exact ⟨rfl, rfl⟩
  older := l.wf.older.imp (fun e => by rw [e]; exact ⟨rfl, rfl⟩) And.left
  twice ho := ⟨(WF.twice l.wf ho).2.1.tab_ne_nil, (WF.twice l.wf ho).2.2⟩
  migrated := l.wf.migrated
  inRange hs := by
    obtain ⟨hto, -⟩ := l.wf.older.resolve_left (by rintro e; rw [e] at hs; simp at hs)
    have hlt := l.wf.migratePos_lt hs
    rw [hto.length] at hlt
    exact Nat.le_of_lt_succ hlt
  migrates := by
    obtain ⟨h', he, -⟩ := hmHelpRehashing_spec l.wf
    exact ⟨h', he⟩
  load hn := l.load hn
  notDue ho := by
    have := l.far ho
    rw [hmSize, Nat.mul_comm] at this
    omega

/-- **Every run of the map** goes through and leaves it structured and below its load. -/
theorem run_structured (ops : List (Op ρ κ)) :
    ∃ h rs, run perform ({} : HMap ρ) ops = .ok (h, rs) ∧ Structured h := by
  obtain ⟨h, rs, he, l⟩ := run_total (fun _ op l => perform_light l op) light_empty ops
  exact ⟨h, rs, he, l.structured⟩

end ByoRedis.HashLoad
