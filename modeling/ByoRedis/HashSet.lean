import Mathlib.Data.Finset.Card
import ByoRedis.HashSpec

/-!
The hash map is a finite set of nodes.

`Reached` pairs every map the operations can produce with the set its user has in mind; the
state of the migration does not appear in the set.
-/

namespace ByoRedis.HashSet

open ByoRedis.Basic ByoRedis.HashTable ByoRedis.HashSpec ByoRedis.Lib.Runs

variable {ρ : Type}

/-- A map holds a set: its nodes are those of the set, each once. -/
structure Holds (h : HMap ρ) (S : Finset (HNode ρ)) : Prop where
  wf : WF h
  nodup : (nodes h).Nodup
  mem : ∀ n, n ∈ nodes h ↔ n ∈ S

lemma Holds.perm {h h' : HMap ρ} {S : Finset (HNode ρ)} (hh : Holds h S) (w : WF h')
    (hp : (nodes h').Perm (nodes h)) : Holds h' S :=
  ⟨w, hp.nodup_iff.mpr hh.nodup, fun n => hp.mem_iff.trans (hh.mem n)⟩

lemma Holds.answer {κ : Type} {h : HMap ρ} {S : Finset (HNode ρ)} (hh : Holds h S)
    {key : HNode κ} {eq : HNode ρ → HNode κ → Bool}
    (heq : ∀ n, eq n key = true → n.hcode = key.hcode) {r : Option (HNode ρ)}
    (hsome : ∀ n, r = some n → n ∈ nodes h ∧ Matches eq key n)
    (hnone : r = none → ∀ n ∈ nodes h, ¬ Matches eq key n) :
    (∀ n, r = some n → n ∈ S ∧ eq n key = true) ∧ (r = none ↔ ∀ n ∈ S, eq n key = false) := by
  refine ⟨fun n hn => ⟨(hh.mem n).mp (hsome n hn).1, (hsome n hn).2.2⟩, fun hr n hn => ?_,
    fun hall => ?_⟩
  · by_contra hc
    rw [Bool.not_eq_false] at hc
    exact hnone hr n ((hh.mem n).mpr hn) ⟨heq n hc, hc⟩
  · cases r with
    | none => rfl
    | some n =>
      obtain ⟨hn, hm⟩ := hsome n rfl
      have := hall n ((hh.mem n).mp hn)
      rw [hm.2] at this
      simp at this

variable [DecidableEq ρ]

/-- The maps reached from the empty one, with the set of nodes put in and not taken out. -/
inductive Reached : HMap ρ → Finset (HNode ρ) → Prop
  | empty : Reached {} ∅
  | insert {h h' : HMap ρ} {S : Finset (HNode ρ)} {n : HNode ρ} : Reached h S → n ∉ S →
    hmInsert h n = .ok h' → Reached h' (Insert.insert n S)
  | lookup {κ : Type} {h h' : HMap ρ} {S : Finset (HNode ρ)} {key : HNode κ}
    {eq : HNode ρ → HNode κ → Bool} {r : Option (HNode ρ)} : Reached h S →
    hmLookup h key eq = .ok (h', r) → Reached h' S
  | delete {κ : Type} {h h' : HMap ρ} {S : Finset (HNode ρ)} {key : HNode κ}
    {eq : HNode ρ → HNode κ → Bool} {r : Option (HNode ρ)} : Reached h S →
    hmDelete h key eq = .ok (h', r) → Reached h' (r.elim S S.erase)

lemma Holds.insert {h h' : HMap ρ} {S : Finset (HNode ρ)} (hh : Holds h S) {n : HNode ρ}
    (hn : n ∉ S) (w : WF h') (hp : (nodes h').Perm (n :: nodes h)) :
    Holds h' (Insert.insert n S) := by
  refine ⟨w, hp.nodup_iff.mpr (List.nodup_cons.mpr ⟨fun h => hn ((hh.mem n).mp h), hh.nodup⟩),
    fun k => ?_⟩
  rw [hp.mem_iff, List.mem_cons, Finset.mem_insert, hh.mem]

lemma Holds.erase {h h' : HMap ρ} {S : Finset (HNode ρ)} (hh : Holds h S) {n : HNode ρ}
    (w : WF h') (hp : (nodes h).Perm (n :: nodes h')) : Holds h' (S.erase n) := by
  obtain ⟨hn, hnd⟩ := List.nodup_cons.mp (hp.nodup_iff.mp hh.nodup)
  refine ⟨w, hnd, fun k => ?_⟩
  rw [Finset.mem_erase, ← hh.mem, hp.mem_iff, List.mem_cons]
  constructor
  · exact fun hk => ⟨by rintro rfl; exact hn hk, .inr hk⟩
  · rintro ⟨hne, rfl | hk⟩
    · exact absurd rfl hne
    · exact hk

lemma Reached.holds {h : HMap ρ} {S : Finset (HNode ρ)} (hr : Reached h S) : Holds h S := by
  induction hr with
  | empty => exact ⟨wf_empty, by simp, by simp⟩
  | insert _ hn he ih =>
    obtain ⟨h', he', w, hp⟩ := hmInsert_spec ih.wf _
    obtain rfl : h' = _ := Except.ok.inj (he'.symm.trans he)
    exact ih.insert hn w hp
  | @lookup κ h h' S key eq r _ he ih =>
    obtain ⟨h₁, r₁, he₁, w, hp, -⟩ := hmLookup_spec ih.wf key eq
    obtain ⟨rfl, rfl⟩ : h₁ = h' ∧ r₁ = r := by simpa [he] using he₁.symm
    exact ih.perm w hp
  | @delete κ h h' S key eq r _ he ih =>
    obtain ⟨h₁, r₁, he₁, w, hp⟩ := hmDelete_spec ih.wf key eq
    obtain ⟨rfl, rfl⟩ : h₁ = h' ∧ r₁ = r := by simpa [he] using he₁.symm
    cases r₁ with
    | none => exact ih.perm w hp.1
    | some n => exact ih.erase w hp.1

/-- **Progressive rehashing loses and duplicates nothing**: whatever was done to the map, every
operation on it goes through and answers as the set does. -/
theorem behaves_as_finset {h : HMap ρ} {S : Finset (HNode ρ)} (hr : Reached h S) :
    (∀ n ∉ S, ∃ h', hmInsert h n = .ok h' ∧ Reached h' (Insert.insert n S)) ∧
    (∀ (κ : Type) (key : HNode κ) (eq : HNode ρ → HNode κ → Bool),
      (∀ n, eq n key = true → n.hcode = key.hcode) →
      (∃ h' r, hmLookup h key eq = .ok (h', r) ∧ Reached h' S ∧
        (∀ n, r = some n → n ∈ S ∧ eq n key = true) ∧
        (r = none ↔ ∀ n ∈ S, eq n key = false)) ∧
      ∃ h' r, hmDelete h key eq = .ok (h', r) ∧ Reached h' (r.elim S S.erase) ∧
        (∀ n, r = some n → n ∈ S ∧ eq n key = true) ∧
        (r = none ↔ ∀ n ∈ S, eq n key = false)) ∧
    hmSize h = S.card ∧
    ∀ (β : Type) (cb : HNode ρ → β → β × Bool), (∀ n arg, (cb n arg).2 = true) → ∀ arg,
      ∃ visited : List (HNode ρ), visited.Nodup ∧ visited.toFinset = S ∧
        hmForeach h cb arg = .ok (visited.foldl (fun arg n => (cb n arg).1) arg) := by
  have hh := hr.holds
  refine ⟨fun n hn => ?_, fun κ key eq heq => ⟨?_, ?_⟩, ?_, fun β cb hcb arg => ?_⟩
  · obtain ⟨h', he, -⟩ := hmInsert_spec hh.wf n
    exact ⟨h', he, hr.insert hn he⟩
  · obtain ⟨h', r, he, -, -, hm⟩ := hmLookup_spec hh.wf key eq
    refine ⟨h', r, he, hr.lookup he, hh.answer heq ?_ ?_⟩
    · rintro n rfl
      exact hm
    · rintro rfl
      exact hm
  · obtain ⟨h', r, he, -, hm⟩ := hmDelete_spec hh.wf key eq
    refine ⟨h', r, he, hr.delete he, hh.answer heq ?_ ?_⟩
    · rintro n rfl
      exact ⟨hm.1.mem_iff.mpr (by simp), hm.2⟩
    · rintro rfl
      exact hm.2
  · have hS : (nodes h).toFinset = S := by ext n; simp [hh.mem]
    rw [hmSize_spec hh.wf, ← hS, List.toFinset_card_of_nodup hh.nodup]
  · exact ⟨nodes h, hh.nodup, by ext n; simp [hh.mem], hmForeach_spec hcb hh.wf arg⟩

/-! ### A map in migration -/

lemma Reached.insertAll {ns : List (HNode ρ)} (hn : ns.Nodup) {h h' : HMap ρ}
    {S : Finset (HNode ρ)} (hr : Reached h S) (hS : ∀ n ∈ ns, n ∉ S)
    (he : ns.foldlM hmInsert h = .ok h') : Reached h' (ns.toFinset ∪ S) := by
  induction ns generalizing h S with
  | nil =>
    obtain rfl := Except.ok.inj he
    simpa using hr
  | cons n ns ih =>
    obtain ⟨hfresh, hn⟩ := List.nodup_cons.mp hn
    obtain ⟨hnS, hS⟩ := List.forall_mem_cons.mp hS
    rw [List.foldlM_cons] at he
    obtain ⟨h₁, he₁, he⟩ := bind_eq_ok.mp he
    have hS₁ : ∀ m ∈ ns, m ∉ Insert.insert n S := by
      intro m hm
      rw [Finset.mem_insert, not_or]
      exact ⟨fun h => hfresh (h ▸ hm), hS m hm⟩
    have hrest := ih hn (hr.insert hnS he₁) hS₁ he
    rwa [Finset.union_insert, ← Finset.insert_union, ← List.toFinset_cons] at hrest

lemma found_self {S : Finset (HNode ρ)} {n : HNode ρ} (hn : n ∈ S) {r : Option (HNode ρ)}
    (hsome : ∀ m, r = some m → m ∈ S ∧ (m == n) = true)
    (hnone : r = none ↔ ∀ m ∈ S, (m == n) = false) : r = some n := by
  cases r with
  | none => simpa using hnone.mp rfl n hn
  | some m => rw [eq_of_beq (hsome m rfl).2]

def manyNodes : List (HNode ℕ) := (List.range 256).map fun i => ⟨i, i⟩

lemma reached_manyNodes : ∃ h : HMap ℕ, Reached h manyNodes.toFinset ∧
    (h.newer.size, h.older.size) = (128, 128) := by
  have hall : (do
      let h ← manyNodes.foldlM hmInsert {}
      pure (h.newer.size, h.older.size) : Eff _) = .ok (128, 128) := by
    decide +kernel
  obtain ⟨h, he, hall⟩ := bind_eq_ok.mp hall
  have hnodup : manyNodes.Nodup :=
    List.nodup_range.map fun i j hij => congrArg HNode.ref hij
  have hr := Reached.insertAll hnodup .empty (by simp) he
  rw [Finset.union_empty] at hr
  exact ⟨h, hr, Except.ok.inj hall⟩

/-- A map with half of its nodes in the older table: a node is found in it, and deleted, and all of
them are visited. -/
theorem behaves_as_finset_migrating : ∃ h : HMap ℕ, (h.newer.size, h.older.size) = (128, 128) ∧
    (∃ h', hmLookup h (⟨5, 5⟩ : HNode ℕ) (fun n k => n == k) = .ok (h', some ⟨5, 5⟩) ∧
      Reached h' manyNodes.toFinset) ∧
    (∃ h', hmDelete h (⟨200, 200⟩ : HNode ℕ) (fun n k => n == k) = .ok (h', some ⟨200, 200⟩) ∧
      Reached h' (manyNodes.toFinset.erase ⟨200, 200⟩)) ∧
    hmSize h = manyNodes.toFinset.card ∧ ∃ visited : List (HNode ℕ), visited.Nodup ∧
      visited.toFinset = manyNodes.toFinset ∧
      hmForeach h (fun n sum => (sum + n.ref, true)) 0 =
        .ok (visited.foldl (fun sum n => sum + n.ref) 0) := by
  obtain ⟨h, hr, hsizes⟩ := reached_manyNodes
  obtain ⟨-, hkey, hsize, hall⟩ := behaves_as_finset hr
  have hself : ∀ n k : HNode ℕ, (n == k) = true → n.hcode = k.hcode :=
    fun n k hnk => congrArg HNode.hcode (eq_of_beq hnk)
  obtain ⟨⟨h₁, r₁, he₁, hr₁, hsome₁, hnone₁⟩, -⟩ :=
    hkey ℕ ⟨5, 5⟩ (fun n k => n == k) fun n => hself n _
  obtain ⟨-, h₂, r₂, he₂, hr₂, hsome₂, hnone₂⟩ :=
    hkey ℕ ⟨200, 200⟩ (fun n k => n == k) fun n => hself n _
  obtain rfl := found_self (by simp [manyNodes]) hsome₁ hnone₁
  obtain rfl := found_self (by simp [manyNodes]) hsome₂ hnone₂
  exact ⟨h, hsizes, ⟨h₁, he₁, hr₁⟩, ⟨h₂, he₂, hr₂⟩, hsize,
    hall ℕ (fun n sum => (sum + n.ref, true)) (fun _ _ => rfl) 0⟩

end ByoRedis.HashSet
