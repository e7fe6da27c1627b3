import ByoRedis.Registry
import ByoRedis.StoreRuns

/-!
The database of the event loop is that of a run of the store: the commands that the connections
executed, and the rounds of timers.
-/

namespace ByoRedis.LoopRuns

open ByoRedis.Basic ByoRedis.ByteBufferSpec ByoRedis.Database ByoRedis.DatabaseSpec ByoRedis.Conn
open ByoRedis.ConnSpec ByoRedis.ResponseSpec ByoRedis.StoreRuns ByoRedis.EventLoop
open ByoRedis.Registry ByoRedis.KeySpace ByoRedis.Lib.Runs

variable {strtod : Bytes → UInt64 × ℕ} {g g' : GlobalData} {σ : Store} {u o : Bytes}
  {conn conn' : Connection}

/-- The commands executed, as operations of the store. -/
def opsOf (log : List Executed) : List Op := log.map fun x => .command x.clock x.cmd

/-- The store executes the commands, one after the other, with these responses. -/
def Executes (strtod : Bytes → UInt64 × ℕ) (g : GlobalData) (log : List Executed)
    (g' : GlobalData) (outs : List Bytes) : Prop :=
  run (serve strtod) g (opsOf log) = .ok (g', outs) ∧
    List.Forall₂ (fun x f => responseOf strtod x = .ok f) log outs

lemma Executes.nil (strtod : Bytes → UInt64 × ℕ) (g : GlobalData) : Executes strtod g [] g [] :=
  ⟨rfl, .nil⟩

lemma serve_of_respond (hg : Good g σ) {clock : Timespec} {cmd : List Bytes}
    {outgoing outgoing' : ByteBuffer.Buffer} (hout : Shows outgoing o [])
    (h : respond strtod g clock cmd outgoing = .ok (g', outgoing')) :
    ∃ out, serve strtod g (.command clock cmd) = .ok (g', out) ∧
      responseOf strtod ⟨g, clock, cmd⟩ = .ok out := by
  obtain ⟨g₁, v, σ₁, -, -, -, hact⟩ := respond_spec hg strtod clock cmd
  obtain ⟨b, hb, -⟩ := hact _ _ _ hout
  obtain ⟨b', hb', -⟩ := hact _ _ _ shows_empty
  obtain ⟨rfl, -⟩ := Prod.mk.inj (Except.ok.inj (hb.symm.trans h))
  refine ⟨b'.unread, ?_, ?_⟩
  · unfold serve
    dsimp only
    rw [hb']
    rfl
  · unfold responseOf
    dsimp only
    rw [hb']
    rfl

/-- **The loop over requests** runs the store over the commands it logs. -/
lemma processRequests_runs {fuel : ℕ} (hg : Good g σ) {clocks : ℕ → Timespec} {log : List Executed}
    (hin : Shows conn.incoming u []) (hout : Shows conn.outgoing o [])
    (h : processRequests strtod fuel g clocks conn = .ok (g', conn', log)) :
    ∃ outs, Executes strtod g log g' outs := by
  induction fuel generalizing g σ conn conn' u o clocks log with
  | zero => simp [processRequests] at h
  | succ fuel ih =>
    unfold processRequests at h
    have ht := tryProcess_spec hg strtod (clocks 0) hin hout
    generalize tryProcessOneRequest strtod g (clocks 0) conn = r at ht h
    cases ht with
    | wait _ | reject _ =>
      obtain ⟨rfl, h₁⟩ := Prod.mk.inj (Except.ok.inj h)
      obtain ⟨-, rfl⟩ := Prod.mk.inj h₁
      exact ⟨[], .nil strtod g⟩
    | die _ => simp at h
    | @answer p rest f cmd g₁ σ₁ incoming outgoing _ _ hg₁ he _ hin' hout' =>
      rw [ok_bind] at h
      obtain ⟨⟨g₂, conn₂, log₂⟩, hrest, h⟩ := bind_eq_ok.mp h
      obtain ⟨rfl, h₁⟩ := Prod.mk.inj (Except.ok.inj h)
      obtain ⟨-, rfl⟩ := Prod.mk.inj h₁
      obtain ⟨out, hserve, hresp⟩ := serve_of_respond hg hout he
      obtain ⟨outs, hrun, hresps⟩ := ih hg₁ hin' hout' hrest
      exact ⟨out :: outs, run_append (run_singleton hserve) hrun, .cons hresp hresps⟩

lemma handleRead_runs (hg : Good g σ) {clocks : ℕ → Timespec} (hb : Between conn u o)
    {rv : ReadResult} {wv : WriteResult} {seen : Seen}
    (h : handleRead strtod g clocks conn rv wv = .ok (g', conn', seen)) :
    ∃ outs, Executes strtod g seen.executed g' outs := by
  have hnothing : ∀ {c : Connection}, Except.ok (g, c, ({} : Seen)) =
      (.ok (g', conn', seen) : Eff _) → ∃ outs, Executes strtod g seen.executed g' outs := by
    intro c h
    obtain ⟨rfl, h₁⟩ := Prod.mk.inj (Except.ok.inj h)
    obtain ⟨-, rfl⟩ := Prod.mk.inj h₁
    exact ⟨[], .nil strtod g⟩
  cases rv with
  | eagain => exact hnothing h
  | error => exact hnothing h
  | got buf =>
    cases buf with
    | nil => exact hnothing h
    | cons b bs =>
      unfold handleRead at h
      obtain ⟨⟨g₁, conn₁, log⟩, hreq, h⟩ := bind_eq_ok.mp h
      obtain ⟨outs, hrun⟩ := @processRequests_runs _ _ _ _ _ _
        { conn with incoming := ByteBuffer.append conn.incoming (b :: bs) } _ _ hg _ _
        (hb.incoming.append (b :: bs)) hb.outgoing hreq
      dsimp only at h
      split_ifs at h
      · obtain ⟨⟨conn₂, sent⟩, -, h⟩ := bind_eq_ok.mp h
        obtain ⟨rfl, h₁⟩ := Prod.mk.inj (Except.ok.inj h)
        obtain ⟨-, rfl⟩ := Prod.mk.inj h₁
        exact ⟨outs, hrun⟩
      · obtain ⟨rfl, h₁⟩ := Prod.mk.inj (Except.ok.inj h)
        obtain ⟨-, rfl⟩ := Prod.mk.inj h₁
        exact ⟨outs, hrun⟩

lemma afterRead {ready : Mask} {wv' : WriteResult} {seen seen' : Seen} {destroyed : Bool}
    (h : (do
      let (conn, sent) ←
        if ready.epollout then
          if conn.wantWrite then handleWrite conn wv' else throw .assertion
        else pure (conn, [])
      pure (g, conn, seen.append ⟨[], [], sent⟩, ready.epollerr || conn.wantClose)) =
        (.ok (g', conn', seen', destroyed) : Eff _)) :
    g = g' ∧ seen'.executed = seen.executed := by
  have hend : ∀ {c : Connection} {sent : Bytes}, (g, c, seen.append ⟨[], [], sent⟩,
      ready.epollerr || c.wantClose) = (g', conn', seen', destroyed) →
      g = g' ∧ seen'.executed = seen.executed := by
    intro c sent h
    obtain ⟨rfl, h₁⟩ := Prod.mk.inj h
    obtain ⟨-, h₂⟩ := Prod.mk.inj h₁
    obtain ⟨rfl, -⟩ := Prod.mk.inj h₂
    exact ⟨rfl, List.append_nil _⟩
  dsimp only at h
  split_ifs at h
  · obtain ⟨⟨c, sent⟩, -, h⟩ := bind_eq_ok.mp h
    exact hend (Except.ok.inj h)
  · simp at h
  · exact hend (Except.ok.inj h)

/-- **The callbacks of a socket** run the store over the commands they execute. -/
lemma handleEvents_runs (hg : Good g σ) {clocks : ℕ → Timespec} (hb : Between conn u o)
    {ready : Mask} {rv : ReadResult} {wv wv' : WriteResult} {seen : Seen} {destroyed : Bool}
    (h : handleEvents strtod g clocks conn ready rv wv wv' = .ok (g', conn', seen, destroyed)) :
    ∃ outs, Executes strtod g seen.executed g' outs := by
  unfold handleEvents at h
  dsimp only at h
  by_cases hin : ready.epollin = true
  · rw [if_pos hin] at h
    by_cases hr : conn.wantRead = true
    · rw [if_pos hr] at h
      obtain ⟨⟨g₁, conn₁, seen₁⟩, hread, h⟩ := bind_eq_ok.mp h
      obtain ⟨rfl, hexec⟩ := afterRead h
      rw [hexec]
      exact handleRead_runs hg hb hread
    · rw [if_neg hr] at h
      simp at h
  · rw [if_neg hin] at h
    obtain ⟨rfl, hexec⟩ := afterRead h
    rw [hexec]
    exact ⟨[], .nil strtod g⟩

variable {s s' : State}

lemma connDestroy_g {a : Addr} (h : connDestroy s a = .ok s') : s'.g = s.g := by
  unfold connDestroy at h
  obtain ⟨conn, -, h⟩ := bind_eq_ok.mp h
  split_ifs at h
  · obtain ⟨idle, -, h⟩ := bind_eq_ok.mp h
    rw [← Except.ok.inj h]

/-- **An event of a socket** runs the store over the commands it executes. -/
lemma handleReady_runs (hs : Sound s) {fd : ℕ} {clock : Timespec} {socket : Mask}
    {clocks : ℕ → Timespec} {rv : ReadResult} {wv wv' : WriteResult} {seen : Seen}
    (h : handleReady strtod s fd clock socket clocks rv wv wv' = .ok (s', seen)) :
    ∃ outs, Executes strtod s.g seen.executed s'.g outs := by
  unfold handleReady handleConn at h
  cases ha : s.fd2conn[fd]?.join with
  | none =>
    rw [ha] at h
    obtain ⟨rfl, rfl⟩ := Prod.mk.inj (Except.ok.inj h)
    exact ⟨[], .nil strtod s.g⟩
  | some a =>
    rw [ha] at h
    obtain ⟨conn, hc, h⟩ := bind_eq_ok.mp h
    obtain ⟨m₁, -, h⟩ := bind_eq_ok.mp h
    obtain ⟨m₂, -, h⟩ := bind_eq_ok.mp h
    obtain ⟨⟨g₁, io, seen₁, destroyed⟩, he, h⟩ := bind_eq_ok.mp h
    obtain ⟨σ, hg⟩ := hs.stands
    obtain ⟨u, o, hb⟩ := hs.between a conn (by
      unfold State.deref at hc
      cases hx : s.conns a with
      | none => simp [hx] at hc
      | some c =>
        rw [hx] at hc
        rw [← Except.ok.inj hc])
    have hruns := handleEvents_runs hg hb he
    dsimp only at h
    split_ifs at h
    · obtain ⟨s₁, hd, h⟩ := bind_eq_ok.mp h
      obtain ⟨rfl, rfl⟩ := Prod.mk.inj (Except.ok.inj h)
      rw [connDestroy_g hd]
      exact hruns
    · obtain ⟨rfl, rfl⟩ := Prod.mk.inj (Except.ok.inj h)
      exact hruns

lemma Executes.of_answered {log : List Executed} {outs frames : List Bytes}
    (h : Executes strtod g log g' outs)
    (hf : List.Forall₂ (fun x f => responseOf strtod x = .ok f) log frames) :
    run (serve strtod) g (opsOf log) = .ok (g', frames) := by
  have hsame : outs = frames := by
    refine List.right_unique_forall₂' (fun x f f' hx hx' => ?_) h.2 hf
    exact Except.ok.inj (hx.symm.trans hx')
  rw [← hsame]
  exact h.1

/-- A socket that is ready is heeded: what `read` gave was received, or what `write` took was
sent. -/
structure Heeded (socket : Mask) (o : Bytes) (rv : ReadResult) (wv : WriteResult) (seen : Seen) :
    Prop where
  received : socket.epollin = true → o = [] → ∀ buf, rv = .got buf → seen.received = buf
  sent : socket.epollout = true → o ≠ [] → ∀ n, wv = .wrote n → seen.sent = o.take n

lemma handleRead_received {clocks : ℕ → Timespec} {buf : Bytes} {wv : WriteResult} {seen : Seen}
    (h : handleRead strtod g clocks conn (.got buf) wv = .ok (g', conn', seen)) :
    seen.received = buf := by
  cases buf with
  | nil =>
    obtain ⟨-, h⟩ := Prod.mk.inj (Except.ok.inj h)
    rw [← (Prod.mk.inj h).2]
  | cons b bs =>
    obtain ⟨⟨g₁, conn₁, log⟩, -, h⟩ := bind_eq_ok.mp h
    dsimp only at h
    split_ifs at h
    · obtain ⟨⟨conn₂, sent⟩, -, h⟩ := bind_eq_ok.mp h
      obtain ⟨-, h⟩ := Prod.mk.inj (Except.ok.inj h)
      rw [← (Prod.mk.inj h).2]
    · obtain ⟨-, h⟩ := Prod.mk.inj (Except.ok.inj h)
      rw [← (Prod.mk.inj h).2]

lemma handleWrite_sent {n : ℕ} {sent : Bytes} (hout : Shows conn.outgoing o [])
    (h : handleWrite conn (WriteResult.wrote n) = .ok (conn', sent)) : sent = o.take n := by
  unfold handleWrite at h
  by_cases hsome : conn.outgoing.readableSize = 0
  · rw [if_pos hsome] at h
    cases h
  · rw [if_neg hsome] at h
    rw [← hout.unread]
    exact (Prod.mk.inj (Except.ok.inj h)).2.symm

lemma handleEvents_heeded (hb : Between conn u o) {clocks : ℕ → Timespec} {socket : Mask}
    {rv : ReadResult} {wv wv' : WriteResult} {seen : Seen} {destroyed : Bool}
    (h : handleEvents strtod g clocks conn (socket.reported conn.interest) rv wv wv' =
      .ok (g', conn', seen, destroyed)) : Heeded socket o rv wv' seen := by
  have hr := hb.tuned.wantRead
  have hw := hb.tuned.wantWrite
  unfold handleEvents Mask.reported at h
  rw [hb.tuned.interest] at h
  dsimp only at h
  constructor
  · rintro hin rfl buf rfl
    rw [hin, List.isEmpty_nil, Bool.and_self, if_pos rfl, hr, List.isEmpty_nil, if_pos rfl] at h
    obtain ⟨⟨g₁, conn₁, seen₁⟩, hread, h⟩ := bind_eq_ok.mp h
    dsimp only at h
    rw [Bool.not_true, Bool.and_false, if_neg Bool.false_ne_true] at h
    obtain ⟨-, h⟩ := Prod.mk.inj (Except.ok.inj h)
    obtain ⟨-, h⟩ := Prod.mk.inj h
    obtain ⟨rfl, -⟩ := Prod.mk.inj h
    exact (List.append_nil _).trans (handleRead_received hread)
  · rintro hout hne n rfl
    have he : o.isEmpty = false := by simpa using hne
    rw [he] at h hw
    rw [Bool.and_false, if_neg Bool.false_ne_true, hout, pure_eq_ok, ok_bind] at h
    dsimp only at h
    rw [hw, Bool.not_false, Bool.and_self, if_pos rfl, if_pos rfl] at h
    obtain ⟨⟨conn₁, sent⟩, hwrite, h⟩ := bind_eq_ok.mp h
    obtain ⟨-, h⟩ := Prod.mk.inj (Except.ok.inj h)
    obtain ⟨-, h⟩ := Prod.mk.inj h
    rw [← (Prod.mk.inj h).1, ← handleWrite_sent hb.outgoing hwrite]
    rfl

lemma handleReady_heeded {fd : ℕ} {clock : Timespec} {socket : Mask} {clocks : ℕ → Timespec}
    {rv : ReadResult} {wv wv' : WriteResult} {seen : Seen} {a : Addr} {c : EventLoop.Conn}
    (hfd : s.fd2conn[fd]?.join = some a) (hc : s.conns a = some c) (hb : Between c.io u o)
    (h : handleReady strtod s fd clock socket clocks rv wv wv' = .ok (s', seen)) :
    Heeded socket o rv wv' seen := by
  unfold handleReady handleConn at h
  rw [hfd] at h
  simp only [State.deref, hc, pure_eq_ok, ok_bind] at h
  obtain ⟨m₁, -, h⟩ := bind_eq_ok.mp h
  obtain ⟨m₂, -, h⟩ := bind_eq_ok.mp h
  obtain ⟨⟨g₁, io, seen₁, destroyed⟩, he, h⟩ := bind_eq_ok.mp h
  have hheeded := handleEvents_heeded hb he
  dsimp only at h
  split_ifs at h
  · obtain ⟨s₁, -, h⟩ := bind_eq_ok.mp h
    obtain ⟨-, rfl⟩ := Prod.mk.inj (Except.ok.inj h)
    exact hheeded
  · obtain ⟨-, rfl⟩ := Prod.mk.inj (Except.ok.inj h)
    exact hheeded

/-- What the loop can do about an event. -/
inductive Stepped (strtod : Bytes → UInt64 × ℕ) (s : State) : Event → State → Seen → Prop
  | accept {results : List Accept} {s' : State} (hg : s'.g = s.g) (hj : Joined s s') :
    Stepped strtod s (.accept results) s' {}
  /-- The descriptor is that of no connection. -/
  | nobody {fd : ℕ} {clock : Timespec} {socket : Mask} {clocks : ℕ → Timespec} {rv : ReadResult}
    {wv wv' : WriteResult} (hfd : s.fd2conn[fd]?.join = none) :
    Stepped strtod s (.ready fd clock socket clocks rv wv wv') s {}
  /-- Bytes pass through a connection, and the others are left alone. -/
  | peer {fd : ℕ} {clock : Timespec} {socket : Mask} {clocks : ℕ → Timespec} {rv : ReadResult}
    {wv wv' : WriteResult} {a : Addr} {c : EventLoop.Conn} {s' : State} {seen : Seen}
    {u o u' o' : Bytes} {done frames : List Bytes} (hfd : s.fd2conn[fd]?.join = some a)
    (hc : s.conns a = some c) (hb : Between c.io u o)
    (hh : Handled strtod s a rv (Closes socket rv wv wv') s' seen u o u' o' done frames)
    (hruns : run (serve strtod) s.g (opsOf seen.executed) = .ok (s'.g, frames))
    (hheeded : Heeded socket o rv wv' seen) (hnow : s'.now = getMonotonicMsec clock) :
    Stepped strtod s (.ready fd clock socket clocks rv wv wv') s' seen
  | timers {clock : Timespec} {s' : State} (ht : processTtlTimers s.g clock = .ok s'.g)
    (hconns : ∀ a, s'.conns a = (s.conns a).filter fun c => ¬ Expired clock c)
    (hfresh : s'.fresh = s.fresh) : Stepped strtod s (.timers clock) s' {}

/-- **Every event** does one of these things. -/
theorem step_cases (hs : Sound s) {event : Event} (ha : Admissible s event) {seen : Seen}
    (h : step strtod s event = .ok (s', seen)) : Stepped strtod s event s' seen := by
  cases event with
  | accept results =>
    obtain ⟨s₁, rv, he, -, hg, hj⟩ := handleAccept_spec hs 0 ha
    obtain ⟨⟨s₂, rv'⟩, he', h⟩ := bind_eq_ok.mp h
    obtain ⟨rfl, -⟩ := Prod.mk.inj (Except.ok.inj (he.symm.trans he'))
    obtain ⟨rfl, rfl⟩ := Prod.mk.inj (Except.ok.inj h)
    exact .accept hg hj
  | ready fd clock socket clocks rv wv wv' =>
    cases hfd : s.fd2conn[fd]?.join with
    | none =>
      have hnobody := handleReady_nobody strtod hfd clock socket clocks rv wv wv'
      obtain ⟨rfl, rfl⟩ := Prod.mk.inj (Except.ok.inj (hnobody.symm.trans h))
      exact .nobody hfd
    | some a =>
      obtain ⟨outs, hexec⟩ := handleReady_runs hs h
      obtain ⟨c, u, o, hc, -, hb⟩ := hs.deref (entry_of_join hfd)
      rcases handleReady_conn hs strtod (entry_of_join hfd) hc hb ha socket clocks rv wv wv' with
        ⟨hdie, -⟩ | ⟨s₁, seen₁, u', o', done, frames, he, -, hnow, hh⟩
      · exact absurd (hdie.symm.trans h) (by simp)
      · obtain ⟨rfl, rfl⟩ := Prod.mk.inj (Except.ok.inj (he.symm.trans h))
        exact .peer hfd hc hb hh (hexec.of_answered hh.flow.answered)
          (handleReady_heeded hfd hc hb he) hnow
  | timers clock =>
    obtain ⟨s₁, he, -, hconns, ht, hfresh⟩ := processTimers_spec hs ha
    obtain ⟨s₂, he', h⟩ := bind_eq_ok.mp h
    obtain rfl := Except.ok.inj (he.symm.trans he')
    obtain ⟨rfl, rfl⟩ := Prod.mk.inj (Except.ok.inj h)
    exact .timers ht hconns hfresh

lemma Stepped.runs {event : Event} {seen : Seen} (h : Stepped strtod s event s' seen) :
    ∃ ops outs, run (serve strtod) s.g ops = .ok (s'.g, outs) := by
  cases h with
  | accept hg _ => exact ⟨[], [], by rw [hg]; rfl⟩
  | nobody _ => exact ⟨[], [], rfl⟩
  | peer _ _ _ _ hruns => exact ⟨_, _, hruns⟩
  | @timers clock _ ht =>
    exact ⟨[.timers clock], [[]], run_singleton (by simp [serve, ht])⟩

/-- **The event loop runs the store.** The database of every state that is reached is that of a run
of the store from the empty one. -/
theorem reachable_runs (h : Reachable strtod s) :
    ∃ ops outs, run (serve strtod) {} ops = .ok (s.g, outs) := by
  induction h with
  | start h =>
    obtain ⟨idle, -, h⟩ := bind_eq_ok.mp h
    rw [← Except.ok.inj h]
    exact ⟨[], [], rfl⟩
  | step hr ha he ih =>
    obtain ⟨ops, outs, hrun⟩ := ih
    obtain ⟨ops', outs', hrun'⟩ := (step_cases (sound_of_reachable hr) ha he).runs
    exact ⟨ops ++ ops', outs ++ outs', run_append hrun hrun'⟩

end ByoRedis.LoopRuns
