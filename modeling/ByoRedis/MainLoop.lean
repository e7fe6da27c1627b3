import ByoRedis.LoopRuns
import ByoRedis.Timeout

/-!
The loop of `main`: a timeout, the sockets that have events, and the timers.

The events of a round were read at its start, and are handled one after the other. A connection may
be closed before the loop comes to its event, and its descriptor may be that of a new one by then.
The loop looks the connection up again for each event.
-/

namespace ByoRedis.MainLoop

open ByoRedis.Basic ByoRedis.Database ByoRedis.Conn ByoRedis.ConnSpec ByoRedis.IdleList
open ByoRedis.StoreRuns ByoRedis.EventLoop ByoRedis.Registry ByoRedis.LoopRuns ByoRedis.Timeout
open ByoRedis.Lib.Runs

/-- An entry of `events`, with what the calls return that are made for it. -/
inductive Entry
  /-- The listening socket, with whether it has `EPOLLIN`. -/
  | listen (epollin : Bool) (results : List Accept)
  | socket (fd : ℕ) (readyMask : Mask) (clock : Timespec) (clocks : ℕ → Timespec) (rv : ReadResult)
    (wv wv' : Write)

/-- The body of the loop over `events`, with the connection that was looked up. -/
def handleEntry (strtod : Bytes → UInt64 × ℕ) (s : State) :
    Entry → Eff (State × Option Addr × Seen)
  | .listen epollin results =>
    if epollin then do
      let (s, _) ← handleAccept s 0 results
      pure (s, none, {})
    else pure (s, none, {})
  | .socket fd readyMask clock clocks rv wv wv' =>
    match s.fd2conn[fd]?.join with
    | none => pure (s, none, {})
    | some a => do
      let conn ← s.deref a
      let (s, seen) ← handleConn strtod s a conn clock readyMask clocks rv wv wv'
      pure (s, some a, seen)

/-- What `epoll_wait` returns. -/
inductive Waited
  | eintr
  | error
  | ready (entries : List Entry)

/-- One round of the loop, by the clock of `next_timer_ms` and that of `process_timers`; with the
timeout for `epoll_wait`, and what was done for each entry. -/
def loopRound (strtod : Bytes → UInt64 × ℕ) (s : State) (clock clock' : Timespec)
    (waited : Waited) : Eff (State × ℤ × List (Option Addr × Seen)) := do
  let timeoutMs ← nextTimerMs s clock
  match waited with
  | .eintr => pure (s, timeoutMs, [])
  | .error => throw (.die "epoll_wait()")
  | .ready entries => do
    let (s, outs) ← run (handleEntry strtod) s entries
    let s ← processTimers s clock'
    pure (s, timeoutMs, outs)

/-! ### What the kernel reports -/

def Entry.fd : Entry → Option ℕ
  | .listen _ _ => none
  | .socket fd _ _ _ _ _ _ => some fd

/-- The connection with this descriptor. -/
def lookup (s : State) (entry : Entry) : Option Addr := entry.fd.bind fun fd => s.fd2conn[fd]?.join

/-- The socket is that of a connection, and the events are those that are registered for it. -/
def Listed (s : State) : Entry → Prop
  | .listen _ _ => True
  | .socket fd readyMask _ _ _ _ _ =>
    ∃ a c socket, s.conns a = some c ∧ c.fd = fd ∧ readyMask = Mask.reported socket c.io.interest

/-- What `epoll_wait` reports: no socket twice. -/
structure Reported (s : State) (entries : List Entry) : Prop where
  listed : ∀ entry ∈ entries, Listed s entry
  once : (entries.filterMap Entry.fd).Nodup

/-- When its turn comes, `accept` returns no descriptor that is open, and the clock does not go
back. -/
def Ready (s : State) : Entry → Prop
  | .listen epollin results => epollin = true → Acceptable s results
  | .socket _ _ clock _ _ _ _ => s.now ≤ getMonotonicMsec clock

def Timely (strtod : Bytes → UInt64 × ℕ) : State → List Entry → Prop
  | _, [] => True
  | s, entry :: entries => Ready s entry ∧
    ∀ s' out, handleEntry strtod s entry = .ok (s', out) → Timely strtod s' entries

/-! ### Signals -/

/-- What `write` returns, where it does. -/
def result : Write → WriteResult
  | .returns rv => rv
  | .sigpipe => .error

/-- A `write` for the entry is to a peer that is gone. -/
def Entry.Gone : Entry → Prop
  | .listen _ _ => False
  | .socket _ _ _ _ _ wv wv' => wv = .sigpipe ∨ wv' = .sigpipe

/-- The process is ended by the signal, which there is a reason for, or it goes on as if there were
none. -/
def Piped {α : Type} (gone : Prop) (e e' : Eff α) : Prop := e = .error .sigpipe ∧ gone ∨ e = e'

lemma Piped.bind {α β : Type} {gone : Prop} {e e' : Eff α} {f f' : α → Eff β}
    (h : Piped gone e e') (hf : ∀ x, Piped gone (f x) (f' x)) :
    Piped gone (e >>= f) (e' >>= f') := by
  rcases h with ⟨rfl, hgone⟩ | rfl
  · exact .inl ⟨rfl, hgone⟩
  · cases e with
    | error => exact .inr rfl
    | ok x => exact hf x

lemma Piped.ite {α : Type} {gone c : Prop} [Decidable c] {e₁ e₁' e₂ e₂' : Eff α}
    (h₁ : Piped gone e₁ e₁') (h₂ : Piped gone e₂ e₂') :
    Piped gone (if c then e₁ else e₂) (if c then e₁' else e₂') := by
  split_ifs
  · exact h₁
  · exact h₂

lemma Piped.mono {α : Type} {gone gone' : Prop} {e e' : Eff α} (h : Piped gone e e')
    (hgone : gone → gone') : Piped gone' e e' := h.imp_left fun h => ⟨h.1, hgone h.2⟩

lemma handleWrite_piped (conn : Connection) (wv : Write) :
    Piped (wv = .sigpipe) (handleWrite conn wv) (handleWrite conn (result wv)) := by
  cases wv with
  | returns rv => exact .inr rfl
  | sigpipe =>
    unfold handleWrite
    split_ifs
    · exact .inr rfl
    · exact .inl ⟨rfl, rfl⟩

/-- **The events of a connection** where `write` may be to a peer that is gone. -/
lemma handleEvents_piped (strtod : Bytes → UInt64 × ℕ) (g : GlobalData) (clocks : ℕ → Timespec)
    (conn : Connection) (ready : Mask) (rv : ReadResult) (wv wv' : Write) :
    Piped (wv = .sigpipe ∨ wv' = .sigpipe) (handleEvents strtod g clocks conn ready rv wv wv')
      (handleEvents strtod g clocks conn ready rv (result wv) (result wv')) := by
  have hread : Piped (wv = .sigpipe) (handleRead strtod g clocks conn rv wv)
      (handleRead strtod g clocks conn rv (result wv)) := by
    cases rv with
    | eagain | error => exact .inr rfl
    | got buf =>
      cases buf with
      | nil => exact .inr rfl
      | cons b buf =>
        refine .bind (.inr rfl) fun r => .ite ?_ (.inr rfl)
        exact .bind (handleWrite_piped _ wv) fun _ => .inr rfl
  unfold handleEvents
  dsimp only
  refine .ite (.ite (.bind (hread.mono Or.inl) ?_) (.inr rfl)) (.bind (.inr rfl) ?_)
  all_goals
    rintro ⟨g, conn, seen⟩
    refine .ite (.ite (.bind ?_ fun _ => .inr rfl) (.inr rfl)) (.inr rfl)
    exact (handleWrite_piped conn wv').mono Or.inr

/-! ### One entry -/

/-- The event of the loop that an entry is, where the socket has these events. -/
def Entry.event (socket : Mask) : Entry → Event
  | .listen epollin results => .accept (if epollin then results else [])
  | .socket fd _ clock clocks rv wv wv' => .ready fd clock socket clocks rv (result wv) (result wv')

variable {strtod : Bytes → UInt64 × ℕ} {s s' : State} {entry : Entry} {entries : List Entry}

lemma entry_of_conn (hs : Sound s) {a : Addr} {c : EventLoop.Conn} (hc : s.conns a = some c) :
    s.fd2conn[c.fd]?.join = some a := by
  obtain ⟨xs, hk⟩ := hs.kept
  exact Option.join_eq_some_iff.mpr ((hk.mapped c.fd a).mpr ⟨c, hc, rfl⟩)

/-- **An entry is an event**, of the connection that is looked up, or its peer is gone. -/
lemma handleEntry_step (hs : Sound s) (hl : Listed s entry) (hr : Ready s entry) :
    ∃ socket, Admissible s (entry.event socket) ∧ Piped entry.Gone (handleEntry strtod s entry) (do
      let r ← step strtod s (entry.event socket)
      pure (r.1, lookup s entry, r.2)) := by
  cases entry with
  | listen epollin results =>
    refine ⟨⟨false, false, false⟩, ?_, ?_⟩
    · cases epollin with
      | false => trivial
      | true => exact hr rfl
    · cases epollin with
      | false => exact .inr rfl
      | true =>
        refine .inr ?_
        simp only [handleEntry, Entry.event, step, if_true, bind_assoc, pure_bind]
        rfl
  | socket fd readyMask clock clocks rv wv wv' =>
    obtain ⟨a, c, socket, hc, rfl, rfl⟩ := hl
    refine ⟨socket, hr, ?_⟩
    simp only [handleEntry, Entry.event, step, handleReady, lookup, Entry.fd, Option.bind_some,
      entry_of_conn hs hc, State.deref, hc, pure_eq_ok, ok_bind]
    refine .bind ?_ fun r => .inr rfl
    exact .bind (.inr rfl) fun m₁ => .bind (.inr rfl) fun m₂ =>
      .bind (handleEvents_piped ..) fun r => .inr rfl

lemma stay_of_stepped {socket : Mask} {seen : Seen}
    (h : Stepped strtod s (entry.event socket) s' seen) {b : Addr} {c : EventLoop.Conn}
    (hne : lookup s entry ≠ some b) (hb : s.conns b = some c) : s'.conns b = some c := by
  cases entry with
  | listen epollin results =>
    cases h with
    | accept _ hj => exact hj.stay b c hb
  | socket fd readyMask clock clocks rv wv wv' =>
    cases h with
    | nobody _ => exact hb
    | peer hfd _ _ hh _ _ _ =>
      rw [hh.others b, hb]
      rintro rfl
      exact hne hfd

lemma Reported.stay (hs : Sound s) (hs' : Sound s') (h : Reported s (entry :: entries))
    (hstay : ∀ b c, lookup s entry ≠ some b → s.conns b = some c → s'.conns b = some c) :
    Reported s' entries ∧ entries.map (lookup s') = entries.map (lookup s) := by
  have hstays : ∀ e ∈ entries, Listed s' e ∧ lookup s' e = lookup s e := by
    intro e he
    have hl := h.listed e (List.mem_cons_of_mem _ he)
    cases e with
    | listen epollin results => exact ⟨trivial, rfl⟩
    | socket fd readyMask clock clocks rv wv wv' =>
      obtain ⟨a, c, socket, hc, rfl, rfl⟩ := hl
      have hc' : s'.conns a = some c := by
        refine hstay a c (fun hsame => ?_) hc
        -- the entry would be for the same descriptor
        cases entry with
        | listen epollin results => cases hsame
        | socket fd readyMask clock clocks rv wv wv' =>
          obtain ⟨b, d, _, hd, rfl, -⟩ := h.listed _ List.mem_cons_self
          have hbd : s.fd2conn[d.fd]?.join = some a := hsame
          obtain rfl := Option.some.inj ((entry_of_conn hs hd).symm.trans hbd)
          obtain rfl := Option.some.inj (hc.symm.trans hd)
          refine (List.nodup_cons.mp h.once).1 (List.mem_filterMap.mpr ⟨_, he, rfl⟩)
      exact ⟨⟨a, c, socket, hc', rfl, rfl⟩,
        (entry_of_conn hs' hc').trans (entry_of_conn hs hc).symm⟩
  refine ⟨⟨fun e he => (hstays e he).1, ?_⟩, List.map_congr_left fun e he => (hstays e he).2⟩
  exact h.once.sublist ((List.sublist_cons_self entry entries).filterMap Entry.fd)

/-! ### A round -/

def executed (outs : List (Option Addr × Seen)) : List Executed :=
  outs.flatMap fun out => out.2.executed

lemma runs_of_stepped {socket : Mask} {seen : Seen}
    (h : Stepped strtod s (entry.event socket) s' seen) :
    ∃ frames, run (serve strtod) s.g (opsOf seen.executed) = .ok (s'.g, frames) := by
  cases entry with
  | listen epollin results =>
    cases h with
    | accept hg _ => exact ⟨[], by rw [hg]; rfl⟩
  | socket fd readyMask clock clocks rv wv wv' =>
    cases h with
    | nobody _ => exact ⟨[], rfl⟩
    | peer _ _ _ _ hruns _ _ => exact ⟨_, hruns⟩

/-- **The entries of a round**: each is handled for the connection that it was reported for, and
together they do to the database what their commands do. -/
theorem entries_spec (h : EventLoop.Reachable strtod s) (hrep : Reported s entries)
    (ht : Timely strtod s entries) :
    (run (handleEntry strtod) s entries = .error .sigpipe ∧ ∃ entry ∈ entries, entry.Gone) ∨
      run (handleEntry strtod) s entries = .error (.die "request too large") ∨
      ∃ s' outs frames, run (handleEntry strtod) s entries = .ok (s', outs) ∧
        EventLoop.Reachable strtod s' ∧ outs.map Prod.fst = entries.map (lookup s) ∧
        run (serve strtod) s.g (opsOf (executed outs)) = .ok (s'.g, frames) := by
  induction entries generalizing s with
  | nil => exact .inr (.inr ⟨s, [], [], rfl, h, rfl, rfl⟩)
  | cons entry entries ih =>
    have hs := sound_of_reachable h
    obtain ⟨hr, hrest⟩ := ht
    obtain ⟨socket, ha, he⟩ := @handleEntry_step strtod s entry hs
      (hrep.listed entry List.mem_cons_self) hr
    rcases he with ⟨he, hgone⟩ | he
    · exact .inl ⟨by simp only [run, he], entry, List.mem_cons_self, hgone⟩
    rcases @step_sound s strtod hs _ ha with hdie | ⟨s₁, seen, hok, hs₁⟩
    · rw [hdie] at he
      exact .inr (.inl (by simp only [run, he, error_bind]))
    · rw [hok, ok_bind] at he
      have hstepped := step_cases hs ha hok
      obtain ⟨hrep₁, hlookup⟩ := hrep.stay hs hs₁ fun b c => stay_of_stepped hstepped
      obtain ⟨frames, hserve⟩ := runs_of_stepped hstepped
      have h₁ : EventLoop.Reachable strtod s₁ := .step h ha hok
      rcases ih h₁ hrep₁ (hrest s₁ _ he) with ⟨hpipe, e, hmem, hgone⟩ | hdie |
        ⟨s', outs, frames', hrun, hs', houts, hserves⟩
      · exact .inl ⟨by rw [run_cons he, hpipe], e, List.mem_cons_of_mem _ hmem, hgone⟩
      · exact .inr (.inl (by rw [run_cons he, hdie]))
      · refine .inr (.inr ⟨s', (lookup s entry, seen) :: outs, frames ++ frames',
          by rw [run_cons he, hrun], hs', ?_, ?_⟩)
        · rw [List.map_cons, List.map_cons, houts, hlookup]
        · rw [executed, List.flatMap_cons, opsOf, List.map_append]
          exact run_append hserve hserves

/-- What is assumed of the kernel and the clock for a round. -/
def Waits (strtod : Bytes → UInt64 × ℕ) (s : State) (clock' : Timespec) : Waited → Prop
  | .ready entries => Reported s entries ∧ Timely strtod s entries ∧
      ∀ s' outs, run (handleEntry strtod) s entries = .ok (s', outs) →
        s'.now ≤ getMonotonicMsec clock'
  | _ => True

/-- The states of the server between rounds. -/
inductive Running (strtod : Bytes → UInt64 × ℕ) : State → Prop
  | start {s : State} (h : start = .ok s) : Running strtod s
  | round {s s' : State} {clock clock' : Timespec} {waited : Waited} {timeoutMs : ℤ}
    {outs : List (Option Addr × Seen)} (h : Running strtod s) (hw : Waits strtod s clock' waited)
    (he : loopRound strtod s clock clock' waited = .ok (s', timeoutMs, outs)) : Running strtod s'

/-- A round that was done: the entries were handled, each for its connection, and their commands
executed; then keys that are due were removed, and no connection is left that is idle too long. -/
inductive Done (strtod : Bytes → UInt64 × ℕ) (s : State) (clock' : Timespec) :
    Waited → State → List (Option Addr × Seen) → Prop
  | eintr : Done strtod s clock' .eintr s []
  | ready {entries : List Entry} {s' : State} {outs : List (Option Addr × Seen)}
    {g : GlobalData} {frames : List Bytes} (houts : outs.map Prod.fst = entries.map (lookup s))
    (hserve : run (serve strtod) s.g (opsOf (executed outs)) = .ok (g, frames))
    (hkeys : processTtlTimers g clock' = .ok s'.g)
    (hconns : ∀ a c, s'.conns a = some c → ¬ Expired clock' c) :
    Done strtod s clock' (.ready entries) s' outs

/-- What ends the process in a round: `epoll_wait` fails, a frame is too large, or a `write` is to a
peer that is gone. -/
inductive Ends (waited : Waited) : Fault → Prop
  | wait (h : waited = .error) : Ends waited (.die "epoll_wait()")
  | frame : Ends waited (.die "request too large")
  | pipe {entries : List Entry} {entry : Entry} (h : waited = .ready entries)
    (hmem : entry ∈ entries) (hgone : entry.Gone) : Ends waited .sigpipe

/-- **A round** is a part of a run of events. -/
theorem loopRound_spec (h : EventLoop.Reachable strtod s) (clock : Timespec) {clock' : Timespec}
    {waited : Waited} (hw : Waits strtod s clock' waited) :
    (∃ e, Ends waited e ∧ loopRound strtod s clock clock' waited = .error e) ∨
      ∃ s' t outs, loopRound strtod s clock clock' waited = .ok (s', t, outs) ∧
        nextTimerMs s clock = .ok t ∧ EventLoop.Reachable strtod s' ∧
        Done strtod s clock' waited s' outs := by
  obtain ⟨t, ht⟩ : ∃ t, nextTimerMs s clock = .ok t :=
    (nextTimerMs_spec h clock).elim fun _ hm => ⟨_, hm.2⟩
  unfold loopRound
  rw [ht, ok_bind]
  cases waited with
  | eintr => exact .inr ⟨s, t, [], rfl, rfl, h, .eintr⟩
  | error => exact .inl ⟨_, .wait rfl, rfl⟩
  | ready entries =>
    obtain ⟨hrep, htimely, hclock⟩ := hw
    rcases entries_spec h hrep htimely with ⟨hpipe, entry, hmem, hgone⟩ | hdie |
      ⟨s₁, outs, frames, hrun, h₁, houts, hserve⟩
    · exact .inl ⟨_, .pipe rfl hmem hgone, by simp only [hpipe, error_bind]⟩
    · exact .inl ⟨_, .frame, by simp only [hdie, error_bind]⟩
    · have ha : Admissible s₁ (.timers clock') := hclock s₁ outs hrun
      obtain ⟨s', hp, -, hconns, hkeys, -⟩ := processTimers_spec (sound_of_reachable h₁) ha
      have hstep : step strtod s₁ (.timers clock') = .ok (s', {}) := by
        simp only [step, hp, ok_bind, pure_eq_ok]
      refine .inr ⟨s', t, outs, by simp only [hrun, hp, ok_bind, pure_eq_ok],
        rfl, .step h₁ ha hstep, .ready houts hserve hkeys fun a c hc => ?_⟩
      rw [hconns] at hc
      simpa using (Option.filter_eq_some_iff.mp hc).2

lemma reachable_of_running (h : Running strtod s) : EventLoop.Reachable strtod s := by
  induction h with
  | start h => exact .start h
  | @round s s' clock clock' waited t outs _ hw he ih =>
    rcases loopRound_spec ih clock hw with ⟨e, -, hdie⟩ | ⟨s₁, t₁, outs₁, hok, -, hs₁, -⟩
    · simp [hdie] at he
    · obtain ⟨rfl, -⟩ := Prod.mk.inj (Except.ok.inj (hok.symm.trans he))
      exact hs₁

def joining : List Entry := [.listen true [.conn 5 oneSecond true]]

lemma waits_joining {s₀ s₁ : State} {outs : List (Option Addr × Seen)}
    (h : run (handleEntry strtod) s₀ joining = .ok (s₁, outs)) (hopened : s₀.opened = [])
    (hnow₀ : s₀.now = 0) (hnow₁ : s₁.now = 1000) :
    Waits strtod s₀ oneSecond (.ready joining) := by
  refine ⟨⟨fun e he => ?_, List.nodup_nil⟩, ⟨fun _ => ⟨?_, ?_, fun _ _ => trivial⟩,
    fun _ _ _ => trivial⟩, fun s' outs' he => ?_⟩
  · rw [List.mem_singleton.mp he]
    trivial
  · rw [hopened]
    exact List.not_mem_nil
  · rw [hnow₀]
    exact Nat.zero_le _
  · obtain ⟨rfl, -⟩ := Prod.mk.inj (Except.ok.inj (h.symm.trans he))
    exact hnow₁.le

lemma waits_client {s s₁ : State} {outs : List (Option Addr × Seen)} {clocks : ℕ → Timespec}
    {rv : ReadResult} {wv wv' : Write}
    (h : run (handleEntry strtod) s [.socket 5 ⟨true, false, false⟩ oneSecond clocks rv wv wv'] =
      .ok (s₁, outs))
    (hconn : (s.conns 0).map (fun c => (c.fd, c.io.interest)) = some (5, ⟨true, false⟩))
    (hnow : s.now = 1000) (hnow₁ : s₁.now = 1000) : Waits strtod s oneSecond
      (.ready [.socket 5 ⟨true, false, false⟩ oneSecond clocks rv wv wv']) := by
  obtain ⟨c, hc, hcfd⟩ := Option.map_eq_some_iff.mp hconn
  obtain ⟨hcfd, hinterest⟩ := Prod.mk.inj hcfd
  refine ⟨⟨fun e he => ?_, List.nodup_singleton 5⟩, ⟨hnow.le, fun _ _ _ => trivial⟩,
    fun s' outs' he => ?_⟩
  · rw [List.mem_singleton.mp he]
    refine ⟨0, c, ⟨true, false, false⟩, hc, hcfd, ?_⟩
    rw [hinterest]
    rfl
  · obtain ⟨rfl, -⟩ := Prod.mk.inj (Except.ok.inj (h.symm.trans he))
    exact hnow₁.le

end ByoRedis.MainLoop
