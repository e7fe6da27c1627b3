import ByoRedis.ExpireSpec
import ByoRedis.ResponseSpec

/-!
Runs of the store: commands and rounds of timers in any order, from the empty server.

A run keeps in step with the reference store, and a command that is answered with an error
leaves the store as it was.
-/

namespace ByoRedis.StoreRuns

open ByoRedis.Basic ByoRedis.ByteBuffer ByoRedis.ByteBufferSpec ByoRedis.Proto ByoRedis.Tlv
open ByoRedis.Database ByoRedis.DatabaseSpec ByoRedis.Commands ByoRedis.KeySpace
open ByoRedis.CommandSpec ByoRedis.ExpireSpec ByoRedis.Dispatch ByoRedis.Conn
open ByoRedis.ResponseSpec ByoRedis.Lib.Runs ByoRedis.Lib.Frames

/-- What happens to the store. -/
inductive Op
  | command (clock : Timespec) (cmd : List Bytes)
  | timers (clock : Timespec)

def Op.clock : Op → Timespec
  | .command clock _ => clock
  | .timers clock => clock

/-- One of them, with the bytes of the response. -/
def serve (strtod : Bytes → UInt64 × ℕ) (g : GlobalData) : Op → Eff (GlobalData × Bytes)
  | .command clock cmd => do
    let (g, outgoing) ← respond strtod g clock cmd {}
    pure (g, outgoing.unread)
  | .timers clock => do
    let g ← processTtlTimers g clock
    pure (g, [])

/-- What the reference does. -/
def Serves (strtod : Bytes → UInt64 × ℕ) (σ : Store) : Op → Bytes → Store → Prop
  | .command clock cmd, out, σ' =>
    ∃ v, Answers strtod (getMonotonicMsec clock) σ cmd v σ' ∧ out = frame v
  | .timers clock, out, σ' => out = [] ∧ Expires (maxWorks + 1) (getMonotonicMsec clock) σ σ'

/-- One step of the server beside one of the reference: the response is the one that the
reference gives, and the database stands for the store afterwards. -/
structure Lockstep (strtod : Bytes → UInt64 × ℕ) (s : GlobalData × Store) (op : Op) (out : Bytes)
    (s' : GlobalData × Store) : Prop where
  runs : serve strtod s.1 op = .ok (s'.1, out)
  serves : Serves strtod s.2 op out s'.2
  stands : Good s'.1 s'.2

variable {strtod : Bytes → UInt64 × ℕ} {g : GlobalData} {σ : Store}

lemma serve_command (hg : Good g σ) (strtod : Bytes → UInt64 × ℕ) (clock : Timespec)
    (cmd : List Bytes) :
    ∃ g' v σ', serve strtod g (.command clock cmd) = .ok (g', frame v) ∧ Good g' σ' ∧
      Told strtod clock σ cmd v σ' ∧ depth v ≤ 2 := by
  obtain ⟨g', v, σ', hg', ht, hdepth, hb⟩ := respond_spec hg strtod clock cmd
  obtain ⟨b', he, hs⟩ := hb _ _ _ shows_empty
  refine ⟨g', v, σ', ?_, hg', ht, hdepth⟩
  unfold serve
  dsimp only
  rw [he, ok_bind, hs.unread]
  rfl

lemma serve_good (hg : Good g σ) (strtod : Bytes → UInt64 × ℕ) (op : Op) :
    ∃ g' out σ', serve strtod g op = .ok (g', out) ∧ Good g' σ' := by
  cases op with
  | command clock cmd =>
    obtain ⟨g', v, σ', he, hg', -⟩ := serve_command hg strtod clock cmd
    exact ⟨g', frame v, σ', he, hg'⟩
  | timers clock =>
    obtain ⟨g', σ', he, hg', -⟩ := processTtlTimers_spec hg clock
    exact ⟨g', [], σ', by simp [serve, he], hg'⟩

/-- Every run succeeds and leaves a database that stands for a store. -/
theorem run_good (strtod : Bytes → UInt64 × ℕ) (ops : List Op) :
    ∃ g outs σ, run (serve strtod) {} ops = .ok (g, outs) ∧ Good g σ := by
  have hstep : ∀ g op, (∃ σ, Good g σ) →
      ∃ g' out, serve strtod g op = .ok (g', out) ∧ ∃ σ, Good g' σ := by
    rintro g op ⟨σ, hg⟩
    obtain ⟨g', out, σ', he, hg'⟩ := serve_good hg strtod op
    exact ⟨g', out, he, σ', hg'⟩
  obtain ⟨g, outs, he, σ, hg⟩ := run_total (P := fun g => ∃ σ, Good g σ) hstep ⟨_, good_empty⟩ ops
  exact ⟨g, outs, σ, he, hg⟩

/-- Every command is answered with the frame of a value without an array in an array. -/
lemma outs_framed {g' : GlobalData} (hg : Good g σ) {ops : List Op}
    {outs : List Bytes} (h : run (serve strtod) g ops = .ok (g', outs)) :
    List.Forall₂ (fun op out => ∀ clock cmd, op = .command clock cmd →
      ∃ v, depth v ≤ 2 ∧ out = frame v) ops outs := by
  induction ops generalizing g σ outs with
  | nil =>
    obtain ⟨-, rfl⟩ := Prod.mk.inj (Except.ok.inj h)
    exact .nil
  | cons op ops ih =>
    obtain ⟨g₁, out, σ₁, he, hg₁⟩ := serve_good hg strtod op
    rw [run_cons he] at h
    cases hrest : run (serve strtod) g₁ ops with
    | error e => simp [hrest] at h
    | ok q =>
      obtain ⟨g₂, outs₂⟩ := q
      rw [hrest] at h
      obtain ⟨rfl, rfl⟩ := Prod.mk.inj (Except.ok.inj h)
      refine .cons (fun clock cmd hop => ?_) (ih hg₁ hrest)
      subst hop
      obtain ⟨g₃, v, σ₃, he₃, -, -, hdepth⟩ := serve_command hg strtod clock cmd
      exact ⟨v, hdepth, (Prod.mk.inj (Except.ok.inj (he.symm.trans he₃))).2⟩

lemma serve_lockstep (hg : Good g σ) (op : Op) (hnear : Near (getMonotonicMsec op.clock) σ) :
    ∃ g' out σ', Lockstep strtod (g, σ) op out (g', σ') ∧
      Near (getMonotonicMsec op.clock) σ' := by
  cases op with
  | command clock cmd =>
    obtain ⟨g', v, σ', he, hg', ht, -⟩ := serve_command hg strtod clock cmd
    exact ⟨g', frame v, σ', ⟨he, ⟨v, ht.answers hnear, rfl⟩, hg'⟩, ht.near le_rfl hnear⟩
  | timers clock =>
    obtain ⟨g', σ', he, hg', hx⟩ := processTtlTimers_spec hg clock
    exact ⟨g', [], σ', ⟨by simp [serve, he], ⟨rfl, hx⟩, hg'⟩, hnear.expires hx⟩

/-- Whatever the clock says, no expiration time is out of the range of what can be set. -/
lemma serve_near (hg : Good g σ) (strtod : Bytes → UInt64 × ℕ) (op : Op) {bound : ℕ}
    (hle : getMonotonicMsec op.clock ≤ bound) (hnear : Near bound σ) :
    ∃ g' out σ', serve strtod g op = .ok (g', out) ∧ Good g' σ' ∧ Near bound σ' := by
  cases op with
  | command clock cmd =>
    obtain ⟨g', v, σ', he, hg', ht, -⟩ := serve_command hg strtod clock cmd
    exact ⟨g', frame v, σ', he, hg', ht.near hle hnear⟩
  | timers clock =>
    obtain ⟨g', σ', he, hg', hx⟩ := processTtlTimers_spec hg clock
    exact ⟨g', [], σ', by simp [serve, he], hg', hnear.expires hx⟩

/-- The times that are read do not decrease. -/
def NonDecreasing (ops : List Op) : Prop :=
  ops.Pairwise fun x y => getMonotonicMsec x.clock ≤ getMonotonicMsec y.clock

/-- The server and the reference are in step for the operations to come. -/
structure InStep (g : GlobalData) (s : GlobalData × Store) (ops : List Op) : Prop where
  same : g = s.1
  stands : Good s.1 s.2
  clocks : NonDecreasing ops
  near : ∀ op ∈ ops, Near (getMonotonicMsec op.clock) s.2

lemma InStep.step {s : GlobalData × Store} {op : Op} {ops : List Op} (h : InStep g s (op :: ops)) :
    ∃ g' out s', serve strtod g op = .ok (g', out) ∧ Lockstep strtod s op out s' ∧
      InStep g' s' ops := by
  obtain ⟨rfl, hg, hmono, hnear⟩ := h
  obtain ⟨hfirst, hrest⟩ := List.pairwise_cons.mp hmono
  obtain ⟨g', out, σ', hl, hnear'⟩ := serve_lockstep hg op (hnear op List.mem_cons_self)
  exact ⟨g', out, (g', σ'), hl.runs, hl, rfl, hl.stands, hrest,
    fun op' hop' => hnear'.later (hfirst op' hop')⟩

/-- **The store is a finite map with expiration times.** Over every run from the empty server, each
response and each state is that of the reference. -/
theorem store_refines (strtod : Bytes → UInt64 × ℕ) (ops : List Op) (hclock : NonDecreasing ops) :
    ∃ g outs σ, run (serve strtod) {} ops = .ok (g, outs) ∧
      Trace (Lockstep strtod) ({}, fun _ => none) ops outs (g, σ) := by
  have hstart : InStep {} ({}, fun _ => none) ops := by
    refine ⟨rfl, good_empty, hclock, fun op _ key c t hs => ?_⟩
    simp at hs
  obtain ⟨g, outs, ⟨g', σ⟩, he, ht, hend⟩ := run_simulates (R := Lockstep strtod)
    (fun _ _ _ _ h => h.step) hstart
  obtain rfl := hend.same
  exact ⟨_, outs, σ, he, ht⟩

/-- The same on runs: setting a key, waiting for it to expire, and asking for it. -/
theorem store_refines_expiry :
    let strtod : Bytes → UInt64 × ℕ := fun _ => (0, 0)
    let early : Timespec := ⟨1, 0, by decide, by decide⟩
    let late : Timespec := ⟨9, 5, by decide, by decide⟩
    let ops : List Op := [.command early [str "set", str "k", str "v"],
      .command early [str "pexpire", str "k", str "100"], .timers late,
      .command late [str "get", str "k"]]
    NonDecreasing ops ∧ ∃ g outs σ, run (serve strtod) {} ops = .ok (g, outs) ∧
      Trace (Lockstep strtod) ({}, fun _ => none) ops outs (g, σ) := by
  intro strtod early late ops
  have hclock : NonDecreasing ops := by
    simp [ops, NonDecreasing, Op.clock, early, late, getMonotonicMsec]
  exact ⟨hclock, store_refines strtod ops hclock⟩

/-! ### Errors -/

/-- An answer that is framed as an error comes with no change. -/
lemma Told.of_error {σ' : Store} {clock : Timespec} {cmd : List Bytes} {v : Value}
    (h : Told strtod clock σ cmd v σ')
    (herr : (enc (framed v)).head? = some Tag.err.byte) : σ' = σ := by
  rcases h.small with h | rfl | ⟨n, rfl⟩
  · exact h
  · simp [framed, enc, maxMsg, Tag.byte] at herr
  · simp [framed, enc, maxMsg, i64Bytes, Tag.byte] at herr

/-- **Errors change nothing.** In every reachable state, a vector that is answered with the frame of
an error leaves the store as it was. -/
theorem error_changes_nothing (strtod : Bytes → UInt64 × ℕ) (ops : List Op) :
    ∃ g outs σ, run (serve strtod) {} ops = .ok (g, outs) ∧ Good g σ ∧
      ∀ clock cmd b u, Shows b u [] → ∃ g' b' body σ',
        respond strtod g clock cmd b = .ok (g', b') ∧ Good g' σ' ∧ Shows b' (u ++ pack body) [] ∧
          (body.head? = some Tag.err.byte → σ' = σ) := by
  obtain ⟨g, outs, σ, he, hg⟩ := run_good strtod ops
  refine ⟨g, outs, σ, he, hg, fun clock cmd b u hb => ?_⟩
  obtain ⟨g', v, σ', hg', ht, -, hact⟩ := respond_spec hg strtod clock cmd
  obtain ⟨b', he', hb'⟩ := hact b u [] hb
  exact ⟨g', b', enc (framed v), σ', he', hg', hb', Told.of_error ht⟩

/-- A member is added under a key with a string, where a set is in the store and a response is not
sent yet. -/
theorem error_changes_nothing_wrongType :
    let strtod : Bytes → UInt64 × ℕ := fun s => (0, s.length)
    let clock : Timespec := ⟨1, 0, by decide, by decide⟩
    let ops : List Op := [.command clock [str "set", str "k", str "v"],
      .command clock [str "zadd", str "z", str "0", str "a"]]
    ∃ g outs σ, run (serve strtod) {} ops = .ok (g, outs) ∧ Good g σ ∧ ∃ g' b' body,
      respond strtod g clock [str "zadd", str "k", str "0", str "a"]
        (append {} (frame (.int 1))) = .ok (g', b') ∧
      Good g' σ ∧ Shows b' (frame (.int 1) ++ pack body) [] ∧
      body.head? = some Tag.err.byte := by
  intro strtod clock ops
  obtain ⟨g, outs, σ, he, hg, h⟩ := error_changes_nothing strtod ops
  obtain ⟨g', b', body, σ', he', hg', hb', herr⟩ :=
    h clock [str "zadd", str "k", str "0", str "a"] _ _ (shows_empty.append (frame (.int 1)))
  have hall : (do
      let r ← run (serve strtod) {} ops
      let r' ← respond strtod r.1 clock [str "zadd", str "k", str "0", str "a"]
        (append {} (frame (.int 1)))
      pure (r'.2.unread.drop ((frame (.int 1)).length + 4)).head? : Eff _) =
      .ok (some Tag.err.byte) := by
    decide +kernel
  have hhead : body.head? = some Tag.err.byte := by
    rw [he, ok_bind, he', ok_bind, hb'.unread] at hall
    refine (congrArg List.head? ?_).trans (Except.ok.inj hall)
    rw [List.nil_append, ← List.drop_drop, List.drop_left, pack,
      List.drop_left' (Lib.LittleEndian.leBytes_length ..)]
  exact ⟨g, outs, σ, he, hg, g', b', body, he', herr hhead ▸ hg', hb', hhead⟩

end ByoRedis.StoreRuns
