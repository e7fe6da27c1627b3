import ByoRedis.Lib.Chains
import ByoRedis.HashTable

/-!
What the operations of the hash map do to the nodes in it.

The nodes of a map are those of its two tables. Every operation keeps the map well formed and
says which nodes it holds afterwards, up to their order: migration permutes them.
-/

namespace ByoRedis.HashSpec

open ByoRedis.Basic ByoRedis.HashTable ByoRedis.Lib.Chains ByoRedis.Lib.Runs

variable {ρ κ β : Type}

/-- An allocated table: a power of two of slots, every node chained in the slot of its hash. -/
structure Table (t : HTab ρ) : Prop where
  pow : ∃ k, t.mask + 1 = 2 ^ k
  four : 4 ≤ t.mask + 1
  length : t.tab.length = t.mask + 1
  slot : ∀ i c, t.tab[i]? = some c → ∀ n ∈ c, n.hcode &&& t.mask = i
  size : t.size = t.tab.flatten.length

def nodes (h : HMap ρ) : List (HNode ρ) := h.newer.tab.flatten ++ h.older.tab.flatten

/-- Either table may be missing; while the older one is there it is half as large as the newer
one, and empty up to the migration position. -/
structure WF (h : HMap ρ) : Prop where
  newer : h.newer = {} ∨ Table h.newer
  older : h.older = {} ∨ Table h.older ∧ Table h.newer ∧
    h.newer.mask + 1 = 2 * (h.older.mask + 1)
  migrated : ∀ i < h.migratePos, ∀ c, h.older.tab[i]? = some c → c = []

lemma wf_empty : WF ({} : HMap ρ) :=
  ⟨.inl rfl, .inl rfl, by simp⟩

@[simp] lemma nodes_empty : nodes ({} : HMap ρ) = [] := rfl

lemma Table.tab_ne_nil {t : HTab ρ} (h : Table t) : t.tab ≠ [] := by
  intro e
  have := h.length
  rw [e] at this
  simp at this

lemma Table.slot_lt {t : HTab ρ} (h : Table t) (code : ℕ) : code &&& t.mask < t.tab.length := by
  rw [h.length]
  exact Nat.lt_succ_of_le Nat.and_le_right

lemma Table.chain {t : HTab ρ} (h : Table t) (code : ℕ) :
    ∃ c, t.tab[code &&& t.mask]? = some c :=
  ⟨_, List.getElem?_eq_getElem (h.slot_lt code)⟩

lemma WF.newer_tab {h : HMap ρ} (w : WF h) : h.newer.tab = [] ∨ Table h.newer :=
  w.newer.imp_left fun e => by rw [e]

lemma WF.older_tab {h : HMap ρ} (w : WF h) : h.older.tab = [] ∨ Table h.older :=
  w.older.imp (fun e => by rw [e]) And.left

/-! ### One table -/

lemma roundUpPowerOf2_two_pow (k : ℕ) : roundUpPowerOf2 (2 ^ k) = 2 ^ k := by
  simp only [roundUpPowerOf2, two_pow_sub_one_or_shiftRight]
  have := Nat.one_le_two_pow (n := k)
  omega

lemma hInit_two_pow (k : ℕ) :
    (hInit (2 ^ k) : Eff (HTab ρ)) = .ok ⟨List.replicate (2 ^ k) [], 2 ^ k - 1, 0⟩ := by
  simp only [hInit, roundUpPowerOf2_two_pow, two_pow_sub_one_and]
  rw [if_pos ⟨Nat.two_pow_pos k, trivial⟩]
  rfl

lemma table_fresh {k : ℕ} (hk : 2 ≤ k) :
    Table (⟨List.replicate (2 ^ k) [], 2 ^ k - 1, 0⟩ : HTab ρ) where
  pow := ⟨k, Nat.sub_add_cancel Nat.one_le_two_pow⟩
  four := by
    have : 2 ^ 2 ≤ 2 ^ k := Nat.pow_le_pow_right (by omega) hk
    simp only
    omega
  length := by simp [Nat.sub_add_cancel Nat.one_le_two_pow]
  slot := by
    intro i c hc n hn
    obtain ⟨-, rfl⟩ := List.mem_replicate.mp (List.mem_of_getElem? hc)
    simp at hn
  size := by simp

lemma hInsert_spec {t : HTab ρ} (h : Table t) (n : HNode ρ) :
    ∃ t', hInsert t n = .ok t' ∧ Table t' ∧ t'.mask = t.mask ∧
      t'.tab.flatten.Perm (n :: t.tab.flatten) := by
  obtain ⟨c, hc⟩ := h.chain n.hcode
  have hperm := flatten_set_cons hc n
  refine ⟨⟨t.tab.set (n.hcode &&& t.mask) (n :: c), t.mask, t.size + 1⟩,
    by simp only [hInsert, hc]; rfl, ⟨h.pow, h.four, ?_, ?_, ?_⟩, rfl, hperm⟩
  · simp [h.length]
  · intro i d hd x hx
    simp only at hd ⊢
    by_cases hi : n.hcode &&& t.mask = i
    · subst hi
      rw [List.getElem?_set_self (h.slot_lt _), Option.some.injEq] at hd
      subst hd
      rcases List.mem_cons.mp hx with rfl | hx
      · rfl
      · exact h.slot _ c hc x hx
    · rw [List.getElem?_set_ne hi] at hd
      exact h.slot i d hd x hx
  · simp only [hperm.length_eq, List.length_cons, h.size]

lemma hDetach_spec {t : HTab ρ} (h : Table t) {i j : ℕ} {ch : List (HNode ρ)} {n : HNode ρ}
    (hc : t.tab[i]? = some ch) (hn : ch[j]? = some n) :
    ∃ t', hDetach t (i, j) = .ok (t', n) ∧ Table t' ∧ t'.mask = t.mask ∧
      t.tab.flatten.Perm (n :: t'.tab.flatten) ∧ t'.tab = t.tab.set i (ch.eraseIdx j) := by
  have hperm := flatten_set_eraseIdx hc hn
  refine ⟨⟨t.tab.set i (ch.eraseIdx j), t.mask, t.size - 1⟩,
    by simp only [hDetach, hc, hn]; rfl, ⟨h.pow, h.four, ?_, ?_, ?_⟩, rfl, hperm, rfl⟩
  · simp [h.length]
  · intro k d hd x hx
    simp only at hd ⊢
    by_cases hk : i = k
    · subst hk
      rw [List.getElem?_set_self (List.getElem?_eq_some_iff.mp hc).1, Option.some.injEq] at hd
      subst hd
      exact h.slot i ch hc x ((List.eraseIdx_sublist ch j).subset hx)
    · rw [List.getElem?_set_ne hk] at hd
      exact h.slot k d hd x hx
  · have := hperm.length_eq
    simp only [List.length_cons] at this
    simp only [h.size, this]
    omega

/-- Whether a lookup of `key` stops at a node. -/
def Matches (eq : HNode ρ → HNode κ → Bool) (key : HNode κ) (n : HNode ρ) : Prop :=
  n.hcode = key.hcode ∧ eq n key = true

lemma hLookup_spec {t : HTab ρ} (h : t.tab = [] ∨ Table t) (key : HNode κ)
    (eq : HNode ρ → HNode κ → Bool) :
    (hLookup t key eq = .ok none ∧ ∀ n ∈ t.tab.flatten, ¬ Matches eq key n) ∨
      ∃ i j ch n, hLookup t key eq = .ok (some (i, j)) ∧ t.tab[i]? = some ch ∧
        ch[j]? = some n ∧ Matches eq key n := by
  rcases h with h | h
  · exact .inl ⟨by simp [hLookup, h], by simp [h]⟩
  obtain ⟨ch, hc⟩ := h.chain key.hcode
  have hne : t.tab.isEmpty = false := by simpa using h.tab_ne_nil
  have hrun : hLookup t key eq =
      .ok ((ch.findIdx? fun cur => cur.hcode == key.hcode && eq cur key).map
        (key.hcode &&& t.mask, ·)) := by
    simp only [hLookup, hne, hc]
    rfl
  cases hf : ch.findIdx? fun cur => cur.hcode == key.hcode && eq cur key with
  | none =>
    refine .inl ⟨by rw [hrun, hf]; rfl, fun n hn hm => ?_⟩
    obtain ⟨i, d, hd, hnd⟩ := exists_getElem?_of_mem_flatten hn
    have hi := h.slot i d hd n hnd
    rw [hm.1] at hi
    subst hi
    obtain rfl : ch = d := Option.some.inj (hc.symm.trans hd)
    rw [List.findIdx?_eq_none_iff] at hf
    simpa [hm.1, hm.2] using hf n hnd
  | some j =>
    obtain ⟨hj, hp, -⟩ := List.findIdx?_eq_some_iff_getElem.mp hf
    refine .inr ⟨_, j, ch, ch[j], by rw [hrun, hf]; rfl, hc, List.getElem?_eq_getElem hj, ?_⟩
    simpa [Matches] using hp

/-! ### The two tables -/

lemma WF.length_newer {h : HMap ρ} (w : WF h) : h.newer.tab.flatten.length = h.newer.size := by
  rcases w.newer with e | t
  · rw [e]; rfl
  · exact t.size.symm

lemma WF.length_older {h : HMap ρ} (w : WF h) : h.older.tab.flatten.length = h.older.size := by
  rcases w.older with e | ⟨t, -⟩
  · rw [e]; rfl
  · exact t.size.symm

/-- The migration position is in range while there is a node to move. -/
lemma WF.migratePos_lt {h : HMap ρ} (w : WF h) (hs : 0 < h.older.size) :
    h.migratePos < h.older.tab.length := by
  rw [← w.length_older, List.length_pos_iff] at hs
  obtain ⟨n, hn⟩ := List.exists_mem_of_ne_nil _ hs
  obtain ⟨i, c, hi, hc⟩ := exists_getElem?_of_mem_flatten hn
  by_contra hge
  have hlt : i < h.migratePos := by
    have := (List.getElem?_eq_some_iff.mp hi).1
    omega
  rw [w.migrated i hlt c hi] at hc
  simp at hc

lemma hmHelpLoop_spec {fuel nwork : ℕ} {h : HMap ρ} (w : WF h)
    (hfuel : (rehashingWork - nwork) + (h.older.tab.length - h.migratePos) < fuel) :
    ∃ h', hmHelpLoop fuel nwork h = .ok h' ∧ WF h' ∧ (nodes h').Perm (nodes h) := by
  induction fuel generalizing nwork h with
  | zero => omega
  | succ fuel ih =>
    unfold hmHelpLoop
    split_ifs with hgo
    · obtain ⟨hwork, hsize⟩ := hgo
      have hpos := w.migratePos_lt hsize
      obtain ⟨c, hc⟩ : ∃ c, h.older.tab[h.migratePos]? = some c :=
        ⟨_, List.getElem?_eq_getElem hpos⟩
      obtain ⟨hto, htn, hmask⟩ := w.older.resolve_left (by rintro e; rw [e] at hsize; simp at hsize)
      rcases c with _ | ⟨n, c⟩
      · -- an empty slot is passed
        simp only [hc]
        refine ih (h := { h with migratePos := h.migratePos + 1 })
          ⟨w.newer, w.older, fun i hi d hd => ?_⟩ ?_
        · rcases Nat.lt_succ_iff_lt_or_eq.mp hi with hi | rfl
          · exact w.migrated i hi d hd
          · exact Option.some.inj (hd.symm.trans hc)
        · simp only
          omega
      · -- the first node of the slot is moved
        obtain ⟨o, heo, hto', hmo, hpo, htab⟩ := hDetach_spec hto hc (j := 0) (n := n) (by simp)
        obtain ⟨t, het, htt, hmt, hpt⟩ := hInsert_spec htn n
        have w' : WF { h with newer := t, older := o } := by
          refine ⟨.inr htt, .inr ⟨hto', htt, by rw [hmt, hmo, hmask]⟩, fun i hi d hd => ?_⟩
          simp only [htab] at hd
          rw [List.getElem?_set_ne (by simp only at hi; omega)] at hd
          exact w.migrated i hi d hd
        have hlen : o.tab.length = h.older.tab.length := by rw [htab, List.length_set]
        have hfuel' : rehashingWork - (nwork + 1) + (o.tab.length - h.migratePos) < fuel := by
          rw [hlen]
          omega
        obtain ⟨h', he, w'', hp⟩ := ih w' hfuel'
        refine ⟨h', by simp only [hc, heo, ok_bind, het]; exact he, w'', hp.trans ?_⟩
        calc (t.tab.flatten ++ o.tab.flatten).Perm (n :: h.newer.tab.flatten ++ o.tab.flatten) :=
              hpt.append_right _
          _ |>.Perm (h.newer.tab.flatten ++ n :: o.tab.flatten) := List.perm_middle.symm
          _ |>.Perm (h.newer.tab.flatten ++ h.older.tab.flatten) := hpo.symm.append_left _
    · exact ⟨h, rfl, w, .rfl⟩

/-- **Migration**: a bounded number of nodes move, none is lost and none is duplicated. -/
theorem hmHelpRehashing_spec {h : HMap ρ} (w : WF h) :
    ∃ h', hmHelpRehashing h = .ok h' ∧ WF h' ∧ (nodes h').Perm (nodes h) := by
  have hfuel : rehashingWork - 0 + (h.older.tab.length - h.migratePos) <
      rehashingWork + h.older.tab.length + 1 := by omega
  obtain ⟨h₁, he, w₁, hp⟩ := hmHelpLoop_spec w hfuel
  unfold hmHelpRehashing
  simp only [he, ok_bind]
  split_ifs with hd
  · refine ⟨_, rfl, ⟨w₁.newer, .inl rfl, by simp⟩, .trans ?_ hp⟩
    have hnil : h₁.older.tab.flatten = [] := by
      rw [← List.length_eq_zero_iff, w₁.length_older, hd.1]
    simp [nodes, hnil]
  · exact ⟨h₁, rfl, w₁, hp⟩

lemma nodeAt_eq {t : HTab ρ} {i j : ℕ} {ch : List (HNode ρ)} {n : HNode ρ}
    (hc : t.tab[i]? = some ch) (hn : ch[j]? = some n) : nodeAt t (i, j) = .ok n := by
  simp [nodeAt, hc, hn]

/-- **Lookup** finds a node with the key, and `none` only if there is none. -/
theorem hmLookup_spec {h : HMap ρ} (w : WF h) (key : HNode κ) (eq : HNode ρ → HNode κ → Bool) :
    ∃ h' r, hmLookup h key eq = .ok (h', r) ∧ WF h' ∧ (nodes h').Perm (nodes h) ∧
      match r with
      | some n => n ∈ nodes h ∧ Matches eq key n
      | none => ∀ n ∈ nodes h, ¬ Matches eq key n := by
  obtain ⟨h', he, w', hp⟩ := hmHelpRehashing_spec w
  unfold hmLookup
  simp only [he, ok_bind]
  rcases hLookup_spec w'.newer_tab key eq with ⟨h1, hno⟩ | ⟨i, j, c, n, h1, hc, hn, hm⟩
  · simp only [h1, ok_bind]
    rcases hLookup_spec w'.older_tab key eq with ⟨h2, hno₂⟩ | ⟨i, j, c, n, h2, hc, hn, hm⟩
    · refine ⟨h', none, by simp only [h2, ok_bind]; rfl, w', hp, fun n hn => ?_⟩
      rcases List.mem_append.mp (hp.mem_iff.mpr hn) with hn | hn
      · exact hno n hn
      · exact hno₂ n hn
    · refine ⟨h', some n, by simp only [h2, ok_bind, nodeAt_eq hc hn]; rfl, w', hp,
        hp.mem_iff.mp (List.mem_append_right _ (mem_flatten_of_getElem? hc hn)), hm⟩
  · refine ⟨h', some n, by simp only [h1, ok_bind, nodeAt_eq hc hn]; rfl, w', hp,
      hp.mem_iff.mp (List.mem_append_left _ (mem_flatten_of_getElem? hc hn)), hm⟩

/-- **Deletion** takes out one node with the key, and nothing only if there is none. -/
theorem hmDelete_spec {h : HMap ρ} (w : WF h) (key : HNode κ) (eq : HNode ρ → HNode κ → Bool) :
    ∃ h' r, hmDelete h key eq = .ok (h', r) ∧ WF h' ∧
      match r with
      | some n => (nodes h).Perm (n :: nodes h') ∧ Matches eq key n
      | none => (nodes h').Perm (nodes h) ∧ ∀ n ∈ nodes h, ¬ Matches eq key n := by
  obtain ⟨h', he, w', hp⟩ := hmHelpRehashing_spec w
  unfold hmDelete
  simp only [he, ok_bind]
  rcases hLookup_spec w'.newer_tab key eq with ⟨h1, hno⟩ | ⟨i, j, c, n, h1, hc, hn, hm⟩
  · simp only [h1, ok_bind]
    rcases hLookup_spec w'.older_tab key eq with ⟨h2, hno₂⟩ | ⟨i, j, c, n, h2, hc, hn, hm⟩
    · refine ⟨h', none, by simp only [h2, ok_bind]; rfl, w', hp, fun n hn => ?_⟩
      rcases List.mem_append.mp (hp.mem_iff.mpr hn) with hn | hn
      · exact hno n hn
      · exact hno₂ n hn
    · obtain ⟨hto, htn, hmask⟩ := w'.older.resolve_left (by rintro e; rw [e] at hc; simp at hc)
      obtain ⟨o, heo, hto', hmo, hpo, htab⟩ := hDetach_spec hto hc hn
      refine ⟨{ h' with older := o }, some n, by simp only [h2, ok_bind, heo]; rfl,
        ⟨w'.newer, .inr ⟨hto', htn, by rw [hmo, hmask]⟩, fun k hk d hd => ?_⟩, ?_, hm⟩
      · simp only [htab] at hd
        by_cases hik : i = k
        · subst hik
          rw [w'.migrated i hk c hc] at hn
          simp at hn
        · rw [List.getElem?_set_ne hik] at hd
          exact w'.migrated k hk d hd
      · calc (nodes h).Perm (h'.newer.tab.flatten ++ h'.older.tab.flatten) := hp.symm
          _ |>.Perm (h'.newer.tab.flatten ++ n :: o.tab.flatten) := hpo.append_left _
          _ |>.Perm (n :: (h'.newer.tab.flatten ++ o.tab.flatten)) := List.perm_middle
  · have htn := w'.newer_tab.resolve_left (by rintro e; rw [e] at hc; simp at hc)
    obtain ⟨t, het, htt, hmt, hpt, -⟩ := hDetach_spec htn hc hn
    refine ⟨{ h' with newer := t }, some n, by simp only [h1, ok_bind, het]; rfl,
      ⟨.inr htt, w'.older.imp_right fun ho => ⟨ho.1, htt, by rw [hmt]; exact ho.2.2⟩,
        w'.migrated⟩, ?_, hm⟩
    exact hp.symm.trans (hpt.append_right _)

lemma hmAllocate_spec {h : HMap ρ} (w : WF h) :
    ∃ h', hmAllocate h = .ok h' ∧ WF h' ∧ Table h'.newer ∧ nodes h' = nodes h ∧
      (h' = h ∨ hmSize h' = 0 ∧ h'.older = {}) := by
  unfold hmAllocate
  split_ifs with hnil
  · rw [show (4 : ℕ) = 2 ^ 2 from rfl, hInit_two_pow]
    have hold : h.older = {} := w.older.resolve_right fun ⟨_, ht, _⟩ => ht.tab_ne_nil hnil
    refine ⟨_, rfl, ⟨.inr (table_fresh le_rfl), .inl hold, ?_⟩, table_fresh le_rfl, ?_,
      .inr ⟨?_, hold⟩⟩
    · simp [hold]
    · simp [nodes, hnil]
    · simp [hmSize, hold]
  · exact ⟨h, rfl, w, w.newer_tab.resolve_left hnil, rfl, .inl rfl⟩

lemma insertNewer_spec {h : HMap ρ} (w : WF h) (ht : Table h.newer) (n : HNode ρ) :
    ∃ t, hInsert h.newer n = .ok t ∧ WF { h with newer := t } ∧ Table t ∧
      (nodes { h with newer := t }).Perm (n :: nodes h) := by
  obtain ⟨t, het, htt, hmt, hpt⟩ := hInsert_spec ht n
  refine ⟨t, het, ⟨.inr htt, ?_, w.migrated⟩, htt, hpt.append_right _⟩
  exact w.older.imp_right fun ho => ⟨ho.1, htt, by rw [hmt]; exact ho.2.2⟩

/-- A full table becomes the older of two. -/
lemma hmCheckLoad_spec {h : HMap ρ} (w : WF h) (ht : Table h.newer) :
    ∃ h', hmCheckLoad h = .ok h' ∧ WF h' ∧ (nodes h').Perm (nodes h) ∧
      (h' = h ∧ (h.older.tab = [] → h.newer.size < (h.newer.mask + 1) * maxLoadFactor) ∨
        h.older.tab = [] ∧ h'.older = h.newer) := by
  unfold hmCheckLoad
  split_ifs with hc
  · obtain ⟨k, hk⟩ := ht.pow
    have hdbl : (h.newer.mask + 1) * 2 = 2 ^ (k + 1) := by rw [hk, pow_succ]
    have hk2 : 2 ≤ k + 1 := by
      by_contra hlt
      have h4 := ht.four
      have : k + 1 ≤ 1 := by omega
      have := Nat.pow_le_pow_right (n := 2) (by omega) this
      omega
    refine ⟨_, by simp only [hmTriggerRehashing, hdbl, hInit_two_pow]; rfl, ⟨.inr
      (table_fresh hk2), .inr ⟨ht, table_fresh hk2, ?_⟩, by simp⟩, ?_, .inr ⟨hc.1, rfl⟩⟩
    · simp only
      rw [Nat.sub_add_cancel Nat.one_le_two_pow, ← hdbl, Nat.mul_comm]
    · have hnil : h.older.tab = [] := hc.1
      simp [nodes, hnil]
  · refine ⟨_, rfl, w, .rfl, .inl ⟨rfl, fun ho => ?_⟩⟩
    exact Nat.lt_of_not_le fun hle => hc ⟨ho, hle⟩

/-- **Insertion** adds the node. -/
theorem hmInsert_spec {h : HMap ρ} (w : WF h) (n : HNode ρ) :
    ∃ h', hmInsert h n = .ok h' ∧ WF h' ∧ (nodes h').Perm (n :: nodes h) := by
  obtain ⟨h₁, he₁, w₁, ht₁, hn₁, -⟩ := hmAllocate_spec w
  obtain ⟨t, het, w₂, htt, hp₂⟩ := insertNewer_spec w₁ ht₁ n
  obtain ⟨h₃, he₃, w₃, hp₃, -⟩ := hmCheckLoad_spec w₂ htt
  obtain ⟨h₄, he₄, w₄, hp₄⟩ := hmHelpRehashing_spec w₃
  refine ⟨h₄, by simp only [hmInsert, he₁, ok_bind, het, he₃, he₄], w₄, ?_⟩
  calc (nodes h₄).Perm (nodes h₃) := hp₄
    _ |>.Perm (nodes { h₁ with newer := t }) := hp₃
    _ |>.Perm (n :: nodes h₁) := hp₂
    _ |>.Perm (n :: nodes h) := by rw [hn₁]

/-- **Size** counts the nodes. -/
theorem hmSize_spec {h : HMap ρ} (w : WF h) : hmSize h = (nodes h).length := by
  rw [hmSize, nodes, List.length_append, w.length_newer, w.length_older]

/-! ### Traversal -/

/-- A callback that never stops the traversal. -/
def Endless (cb : HNode ρ → β → β × Bool) : Prop := ∀ n arg, (cb n arg).2 = true

lemma chainForeach_spec {cb : HNode ρ → β → β × Bool} (hcb : Endless cb) (c : List (HNode ρ))
    (arg : β) : chainForeach cb c arg = (c.foldl (fun arg n => (cb n arg).1) arg, true) := by
  induction c generalizing arg with
  | nil => rfl
  | cons n c ih =>
    have h := hcb n arg
    unfold chainForeach
    split
    · rename_i arg' e; rw [e] at h; simp at h
    · rename_i arg' e; rw [ih, List.foldl_cons, e]

lemma slotsForeach_spec {cb : HNode ρ → β → β × Bool} (hcb : Endless cb) {t : HTab ρ} {i left : ℕ}
    (h : i + left = t.tab.length) (arg : β) :
    slotsForeach t cb left i arg =
      .ok ((t.tab.drop i).flatten.foldl (fun arg n => (cb n arg).1) arg, true) := by
  induction left generalizing i arg with
  | zero => simp [slotsForeach, List.drop_eq_nil_of_le (show t.tab.length ≤ i by omega)]
  | succ left ih =>
    have hi : i < t.tab.length := by omega
    unfold slotsForeach
    simp only [List.getElem?_eq_getElem hi, chainForeach_spec hcb]
    rw [ih (by omega), List.drop_eq_getElem_cons hi, List.flatten_cons, List.foldl_append]

lemma hForeach_spec {cb : HNode ρ → β → β × Bool} (hcb : Endless cb) {t : HTab ρ}
    (h : t = {} ∨ Table t) (arg : β) :
    hForeach t cb arg = .ok (t.tab.flatten.foldl (fun arg n => (cb n arg).1) arg, true) := by
  rcases h with rfl | h
  · rfl
  · have h4 := h.four
    rw [hForeach, if_pos (by omega), slotsForeach_spec hcb (by rw [h.length]; omega)]
    rfl

/-- **Traversal** visits every node once, those of the newer table first. -/
theorem hmForeach_spec {cb : HNode ρ → β → β × Bool} (hcb : Endless cb) {h : HMap ρ} (w : WF h)
    (arg : β) : hmForeach h cb arg = .ok ((nodes h).foldl (fun arg n => (cb n arg).1) arg) := by
  simp only [hmForeach, hForeach_spec hcb w.newer, ok_bind, if_true,
    hForeach_spec hcb (w.older.imp_right And.left), nodes, List.foldl_append]
  rfl

end ByoRedis.HashSpec
