import ByoRedis.Lib.Labels
import ByoRedis.RangeCommands
import ByoRedis.Served

/-!
The event loop and all of its peers.

The commands of the connections and the rounds of timers are executed one at a time, in some order
that is a run of the store. What each of the peers receives are the responses that this one run
gives to its own requests, in the order in which it sent them.
-/

namespace ByoRedis.History

open ByoRedis.Basic ByoRedis.Proto ByoRedis.Database ByoRedis.KeySpace ByoRedis.Conn
open ByoRedis.ConnSpec ByoRedis.RangeCommands ByoRedis.ResponseSpec ByoRedis.StoreRuns
open ByoRedis.EventLoop ByoRedis.Registry ByoRedis.LoopRuns
open ByoRedis.Lib.Runs ByoRedis.Lib.Frames ByoRedis.Lib.Labels

/-- What has happened so far: what was done to the store, each under the connection that asked for
it, and the bytes that were received and sent by the connections. -/
structure Past where
  log : List (Option Addr × Op) := []
  received : Addr → Bytes := fun _ => []
  sent : Addr → Bytes := fun _ => []

def Past.see (h : Past) (a : Addr) (seen : Seen) : Past where
  log := h.log ++ labelled (some a) (opsOf seen.executed)
  received := Function.update h.received a (h.received a ++ seen.received)
  sent := Function.update h.sent a (h.sent a ++ seen.sent)

def Past.record (h : Past) (s : State) (event : Event) (seen : Seen) : Past :=
  match event with
  | .accept _ => h
  | .ready fd _ _ _ _ _ _ =>
    match s.fd2conn[fd]?.join with
    | none => h
    | some a => h.see a seen
  | .timers clock => { h with log := h.log ++ labelled none [.timers clock] }

/-- The states of the server between events, with what has happened. -/
inductive Recorded (strtod : Bytes → UInt64 × ℕ) : State → Past → Prop
  | start {s : State} (h : start = .ok s) : Recorded strtod s {}
  | step {s s' : State} {h : Past} {event : Event} {seen : Seen} (hr : Recorded strtod s h)
    (ha : Admissible s event) (he : step strtod s event = .ok (s', seen)) :
    Recorded strtod s' (h.record s event seen)

/-- The payload of a request, and what is done to the store for it. -/
def Asks (p : Bytes) (op : Op) : Prop :=
  p.length ≤ maxMsg ∧ ∃ clock cmd, op = .command clock cmd ∧ parseReq p = some cmd

/-- What has passed between the server and a peer, where `outs` is what the store gave for the
log: the peer sent the frames of `ps` and `u` behind them, and the requests in them were executed
in this order; the responses to them are sent in this order, except for `o`. -/
structure Exchange (h : Past) (outs : List Bytes) (a : Addr) (ps : List Bytes) (u o : Bytes) :
    Prop where
  received : h.received a = packAll ps ++ u
  asked : List.Forall₂ Asks ps (own (some a) h.log)
  sent : h.sent a ++ o = (own (some a) (results h.log outs)).flatten

/-- The bytes that a connection holds, where there is one. -/
structure Holds (s : State) (a : Addr) (u o : Bytes) : Prop where
  between : ∀ c, s.conns a = some c → Between c.io u o
  fresh : s.fresh ≤ a → u = [] ∧ o = []

/-- The history is that of one run of the store. -/
structure Serial (strtod : Bytes → UInt64 × ℕ) (s : State) (h : Past) (outs : List Bytes) :
    Prop where
  runs : run (serve strtod) {} (h.log.map Prod.snd) = .ok (s.g, outs)
  peers : ∀ a, ∃ ps u o, Exchange h outs a ps u o ∧ Holds s a u o

variable {strtod : Bytes → UInt64 × ℕ} {s s' : State} {h : Past} {outs : List Bytes} {a : Addr}
  {ps : List Bytes} {u o : Bytes}

lemma reachable_of_recorded (hr : Recorded strtod s h) : Reachable strtod s := by
  induction hr with
  | start h => exact .start h
  | step _ ha he ih => exact .step ih ha he

lemma serial_start (hs : start = .ok s) : Serial strtod s {} [] := by
  obtain ⟨idle, -, hs⟩ := bind_eq_ok.mp hs
  obtain rfl := Except.ok.inj hs
  refine ⟨rfl, fun a => ⟨[], [], [], ⟨rfl, .nil, rfl⟩, fun c hc => ?_, fun _ => ⟨rfl, rfl⟩⟩⟩
  cases hc

/-! ### What one event adds -/

lemma Serial.length (hs : Serial strtod s h outs) : outs.length = h.log.length := by
  rw [run_length hs.runs, List.length_map]

lemma Exchange.other (hx : Exchange h outs a ps u o) (hlen : outs.length = h.log.length)
    {peer : Option Addr} (hne : peer ≠ some a) {ops : List Op} {outs' : List Bytes}
    (hlen' : outs'.length = ops.length) {h' : Past}
    (hlog : h'.log = h.log ++ labelled peer ops) (hreceived : h'.received a = h.received a)
    (hsent : h'.sent a = h.sent a) : Exchange h' (outs ++ outs') a ps u o where
  received := hreceived.trans hx.received
  asked := by
    rw [hlog, own_append, own_labelled_of_ne hne, List.append_nil]
    exact hx.asked
  sent := by
    rw [hlog, results_append _ _ _ hlen, results_labelled _ hlen', own_append,
      own_labelled_of_ne hne, List.append_nil, hsent]
    exact hx.sent

lemma asks_of_parses {done : List Bytes} {xs : List Executed} (h : List.Forall₂ Parses done xs) :
    List.Forall₂ Asks done (opsOf xs) := by
  induction h with
  | nil => exact .nil
  | cons hp _ ih => exact .cons ⟨hp.1, _, _, rfl, hp.2⟩ ih

lemma Exchange.see (hx : Exchange h outs a ps u o) (hlen : outs.length = h.log.length)
    {seen : Seen} {done frames : List Bytes} {u' o' : Bytes}
    (hflow : Flow strtod u o seen done frames u' o')
    (hlen' : frames.length = (opsOf seen.executed).length) :
    Exchange (h.see a seen) (outs ++ frames) a (ps ++ done) u' o' where
  received := by
    calc (h.see a seen).received a
      _ = h.received a ++ seen.received := Function.update_self ..
      _ = packAll ps ++ (u ++ seen.received) := by rw [hx.received, List.append_assoc]
      _ = packAll (ps ++ done) ++ u' := by
        rw [hflow.received, packAll_append, List.append_assoc]
  asked := by
    unfold Past.see
    dsimp only
    rw [own_append, own_labelled]
    exact List.rel_append hx.asked (asks_of_parses hflow.parsed)
  sent := by
    unfold Past.see
    dsimp only
    rw [results_append _ _ _ hlen, results_labelled _ hlen', own_append, own_labelled,
      List.flatten_append, ← hx.sent, List.append_assoc, hflow.sent, ← List.append_assoc,
      Function.update_self]

lemma Holds.joined (hh : Holds s a u o) (hj : Joined s s') : Holds s' a u o where
  between c hc := by
    rcases hj.conns a c hc with hc | ⟨hle, hio⟩
    · exact hh.between c hc
    · obtain ⟨rfl, rfl⟩ := hh.fresh hle
      rw [hio]
      exact Server.between_accepted
  fresh hle := hh.fresh (hj.fresh.trans hle)

/-- **Every event** keeps the history one of a run of the store. -/
theorem Serial.step (hs : Serial strtod s h outs) (hsound : Sound s) {event : Event} {seen : Seen}
    (hstep : Stepped strtod s event s' seen) :
    ∃ outs', Serial strtod s' (h.record s event seen) (outs ++ outs') := by
  have hlen := hs.length
  cases hstep with
  | accept hg hj =>
    refine ⟨[], ?_, fun a => ?_⟩
    · rw [List.append_nil, hg]
      exact hs.runs
    · obtain ⟨ps, u, o, hx, hh⟩ := hs.peers a
      rw [List.append_nil]
      exact ⟨ps, u, o, hx, hh.joined hj⟩
  | nobody hfd =>
    refine ⟨[], ?_⟩
    unfold Past.record
    dsimp only
    rw [hfd, List.append_nil]
    exact hs
  | @peer fd clock socket clocks rv wv wv' a c _ _ u o u' o' done frames hfd hc hb hh hruns =>
    have hrecord : h.record s (.ready fd clock socket clocks rv wv wv') seen = h.see a seen := by
      unfold Past.record
      dsimp only
      rw [hfd]
    have hlen' := run_length hruns
    rw [hrecord]
    refine ⟨frames, ?_, fun b => ?_⟩
    · unfold Past.see
      dsimp only
      rw [List.map_append, map_labelled]
      exact run_append hs.runs hruns
    · obtain ⟨ps, v, w, hx, hholds⟩ := hs.peers b
      by_cases hba : b = a
      · subst hba
        -- the bytes of a connection are the only ones it can show
        obtain ⟨rfl, rfl⟩ := (hholds.between c hc).unique hb
        refine ⟨ps ++ done, u', o', hx.see hlen hh.flow hlen', hh.left, fun hle => ?_⟩
        obtain ⟨xs, hk⟩ := hsound.kept
        exact absurd (hk.fresh b (by rw [hc]; rfl)) (Nat.not_lt_of_le (hh.fresh ▸ hle))
      · refine ⟨ps, v, w, hx.other hlen ?_ hlen' rfl ?_ ?_, fun c' hc' => ?_, fun hle => ?_⟩
        · simpa using Ne.symm hba
        · exact Function.update_of_ne hba ..
        · exact Function.update_of_ne hba ..
        · rw [hh.others b hba] at hc'
          exact hholds.between c' hc'
        · exact hholds.fresh (hh.fresh ▸ hle)
  | @timers clock _ ht hconns hfresh =>
    refine ⟨[[]], ?_, fun a => ?_⟩
    · unfold Past.record
      dsimp only
      rw [List.map_append, map_labelled]
      exact run_append hs.runs (run_singleton (by simp [serve, ht]))
    · obtain ⟨ps, u, o, hx, hh⟩ := hs.peers a
      refine ⟨ps, u, o, hx.other hlen (by simp) rfl rfl rfl rfl, fun c hc => ?_, fun hle => ?_⟩
      · rw [hconns] at hc
        exact hh.between c (Option.eq_some_of_filter_eq_some hc)
      · exact hh.fresh (hfresh ▸ hle)

/-- **Every run** of the event loop is one of the store. -/
theorem serial_of_recorded (hr : Recorded strtod s h) : ∃ outs, Serial strtod s h outs := by
  induction hr with
  | start hs => exact ⟨[], serial_start hs⟩
  | step hr ha he ih =>
    obtain ⟨outs, hs⟩ := ih
    have hsound := sound_of_reachable (reachable_of_recorded hr)
    obtain ⟨outs', hs'⟩ := hs.step hsound (step_cases hsound ha he)
    exact ⟨_, hs'⟩

lemma lockstep_of_run {ops : List Op} {g : GlobalData} (hclock : NonDecreasing ops)
    (hrun : run (serve strtod) {} ops = .ok (g, outs)) :
    ∃ σ, Trace (Lockstep strtod) ({}, fun _ => none) ops outs (g, σ) := by
  have hstart : InStep {} ({}, fun _ => none) ops :=
    ⟨rfl, DatabaseSpec.good_empty, hclock, fun _ _ _ _ _ h => by simp at h⟩
  obtain ⟨g', outs', ⟨g'', σ⟩, he, ht, hend⟩ := run_simulates (R := Lockstep strtod)
    (fun _ _ _ _ h => h.step) hstart
  obtain ⟨rfl, rfl⟩ := Prod.mk.inj (Except.ok.inj (hrun.symm.trans he))
  obtain rfl := hend.same
  exact ⟨σ, ht⟩

/-- **Serializability.** Whatever the order of events, the sizes of reads and writes, and the number
of connections, what was done to the store is one run of it, and every peer is sent the responses
of this run to its own requests, in the order in which it sent them. By clocks that do not go back,
these are the answers of the reference. -/
theorem serializable (hr : Recorded strtod s h) : ∃ outs, Serial strtod s h outs ∧
    (NonDecreasing (h.log.map Prod.snd) → ∃ σ,
      Trace (Lockstep strtod) ({}, fun _ => none) (h.log.map Prod.snd) outs (s.g, σ)) := by
  obtain ⟨outs, hs⟩ := serial_of_recorded hr
  exact ⟨outs, hs, fun hclock => lockstep_of_run hclock hs.runs⟩

def vector : Op → List Bytes
  | .command _ cmd => cmd
  | .timers _ => []

/-- What is executed, by whom and when. -/
def told (h : Past) : List (Option Addr × List Bytes × ℕ) :=
  h.log.map fun x => (x.1, vector x.2, getMonotonicMsec x.2.clock)

def pair : List (Option Addr × List Bytes × ℕ) :=
  [(some 0, [str "set", str "a", str "1"], 1000), (some 1, [str "set", str "b", str "2"], 1000),
    (some 0, [str "get", str "a"], 1000)]

set_option synthInstance.maxSize 800 in
/-- Two clients are connected and set a key each, and the first one asks for its own. -/
lemma recorded_pair : ∃ s h, Recorded allZero s h ∧ told h = pair := by
  let e₁ := joinsAt 5 1
  let e₂ := joinsAt 6 1
  let e₃ := Served.request 5 (second 1) [str "set", str "a", str "1"] (frame .nil)
  let e₄ := Served.request 6 (second 1) [str "set", str "b", str "2"] (frame .nil)
  let e₅ := Served.request 5 (second 1) [str "get", str "a"] (frame (.str (str "1")))
  have hall : (do
      let s₀ ← start
      let (s₁, x₁) ← step allZero s₀ e₁
      let (s₂, x₂) ← step allZero s₁ e₂
      let (s₃, x₃) ← step allZero s₂ e₃
      let (s₄, x₄) ← step allZero s₃ e₄
      let (s₅, x₅) ← step allZero s₄ e₅
      let h := (((({} : Past).record s₀ e₁ x₁).record s₁ e₂ x₂).record s₂ e₃ x₃).record s₃ e₄ x₄
      pure ([s₀.opened, s₁.opened, [s₀.now, s₁.now, s₂.now, s₃.now, s₄.now]],
        told (h.record s₄ e₅ x₅)) : Eff _) =
      .ok ([[], [5], [0, 1000, 1000, 1000, 1000]], pair) := by
    decide +kernel
  obtain ⟨s₀, h₀, hall⟩ := bind_eq_ok.mp hall
  obtain ⟨⟨s₁, x₁⟩, h₁, hall⟩ := bind_eq_ok.mp hall
  obtain ⟨⟨s₂, x₂⟩, h₂, hall⟩ := bind_eq_ok.mp hall
  obtain ⟨⟨s₃, x₃⟩, h₃, hall⟩ := bind_eq_ok.mp hall
  obtain ⟨⟨s₄, x₄⟩, h₄, hall⟩ := bind_eq_ok.mp hall
  obtain ⟨⟨s₅, x₅⟩, h₅, hall⟩ := bind_eq_ok.mp hall
  obtain ⟨hfacts, htold⟩ := Prod.mk.inj (Except.ok.inj hall)
  simp only [List.cons.injEq, and_true] at hfacts
  obtain ⟨ho₀, ho₁, hn₀, hn₁, hn₂, hn₃, hn₄⟩ := hfacts
  have ha₁ : Admissible s₀ e₁ := admissible_joinsAt (by simp [ho₀]) (by simp [hn₀])
  have ha₂ : Admissible s₁ e₂ := admissible_joinsAt (by simp [ho₁]) hn₁.le
  have ha₃ : Admissible s₂ e₃ := hn₂.le
  have ha₄ : Admissible s₃ e₄ := hn₃.le
  have ha₅ : Admissible s₄ e₅ := hn₄.le
  have hr₃ := (((Recorded.start h₀).step ha₁ h₁).step ha₂ h₂).step ha₃ h₃
  exact ⟨s₅, _, (hr₃.step ha₄ h₄).step ha₅ h₅, htold⟩

lemma nonDecreasing_told (htold : told h = pair) : NonDecreasing (h.log.map Prod.snd) := by
  have hall : (told h).Pairwise fun x y => x.2.2 ≤ y.2.2 := by
    rw [htold]
    decide
  unfold told at hall
  rw [List.pairwise_map] at hall
  exact List.pairwise_map.mpr hall

/-- Each of the two is sent the responses to its own requests. -/
theorem serializable_pair : ∃ s h outs, Serial allZero s h outs ∧ told h = pair ∧
    ∃ σ, Trace (Lockstep allZero) ({}, fun _ => none) (h.log.map Prod.snd) outs (s.g, σ) := by
  obtain ⟨s, h, hr, htold⟩ := recorded_pair
  obtain ⟨outs, hs, ht⟩ := serializable hr
  exact ⟨s, h, outs, hs, htold, ht (nonDecreasing_told htold)⟩

end ByoRedis.History
