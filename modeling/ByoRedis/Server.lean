import ByoRedis.ConnSpec
import ByoRedis.ExpireSpec

/-!
The server and its connections, as the event loop drives them.

Which sockets have events, and what `read` and `write` return, are inputs. An event of a socket is
reported to the server only as it is registered with the kernel.
-/

namespace ByoRedis.Server

open ByoRedis.Basic ByoRedis.ByteBuffer ByoRedis.ByteBufferSpec ByoRedis.Proto ByoRedis.Database
open ByoRedis.DatabaseSpec ByoRedis.ExpireSpec ByoRedis.Conn ByoRedis.ConnSpec ByoRedis.Lib.Runs
open ByoRedis.Lib.LittleEndian ByoRedis.Lib.Frames

/-- The store and the open connections, by descriptor. -/
structure State where
  g : GlobalData := {}
  fd2conn : ℕ → Option Connection := fun _ => none

def State.setConn (s : State) (fd : ℕ) (conn : Option Connection) : State :=
  { s with fd2conn := Function.update s.fd2conn fd conn }

@[simp] lemma State.setConn_self (s : State) (fd : ℕ) (conn : Option Connection) :
    (s.setConn fd conn).fd2conn fd = conn := Function.update_self ..

lemma State.setConn_of_ne (s : State) {fd fd' : ℕ} (h : fd' ≠ fd) (conn : Option Connection) :
    (s.setConn fd conn).fd2conn fd' = s.fd2conn fd' := Function.update_of_ne h ..

inductive Event
  /-- `accept` gives out a descriptor. -/
  | accept (fd : ℕ)
  /-- A socket has events. -/
  | ready (fd : ℕ) (socket : Mask) (clocks : ℕ → Timespec) (rv : ReadResult) (wv wv' : WriteResult)
  /-- `process_timers`, with the connections that were idle too long. -/
  | timers (clock : Timespec) (idle : List ℕ)

def accepted : Connection := { wantRead := true, interest := ⟨true, false⟩ }

def step (strtod : Bytes → UInt64 × ℕ) (s : State) : Event → Eff (State × Seen)
  | .accept fd =>
    match s.fd2conn fd with
    -- the kernel does not give out a descriptor that is open
    | some _ => pure (s, {})
    | none => pure (s.setConn fd (some accepted), {})
  | .ready fd socket clocks rv wv wv' =>
    match s.fd2conn fd with
    | none => pure (s, {})
    | some conn => do
      let (g, conn, seen, destroyed) ←
        handleEvents strtod s.g clocks conn (socket.reported conn.interest) rv wv wv'
      pure ({ s with g := g }.setConn fd (if destroyed then none else some conn), seen)
  | .timers clock idle => do
    let g ← processTtlTimers s.g clock
    pure (⟨g, fun fd => if fd ∈ idle then none else s.fd2conn fd⟩, {})

/-- `try_process_one_request` on the connection of a descriptor. -/
def tryProcess (strtod : Bytes → UInt64 × ℕ) (s : State) (fd : ℕ) (clock : Timespec) :
    Eff (State × Option Executed) :=
  match s.fd2conn fd with
  | none => throw .access
  | some conn => do
    let (g, conn, r) ← tryProcessOneRequest strtod s.g clock conn
    pure ({ s with g := g }.setConn fd (some conn), r)

variable {strtod : Bytes → UInt64 × ℕ}

/-! ### Between events -/

/-- Every connection is between events, and the database stands for a store. -/
structure Steady (s : State) : Prop where
  stands : ∃ σ, Good s.g σ
  conns : ∀ fd conn, s.fd2conn fd = some conn → ∃ u o, Between conn u o

lemma steady_empty : Steady {} := ⟨⟨_, good_empty⟩, by simp⟩

lemma between_accepted : Between accepted [] [] where
  isOpen := rfl
  incoming := shows_empty
  outgoing := shows_empty
  tuned := ⟨rfl, rfl, rfl⟩
  incomplete := .inl (by simp)

lemma Steady.setConn {s : State} (h : Steady s) (fd : ℕ) {conn : Option Connection}
    (hconn : ∀ c, conn = some c → ∃ u o, Between c u o) : Steady (s.setConn fd conn) := by
  refine ⟨h.stands, fun fd' c hc => ?_⟩
  by_cases hfd : fd' = fd
  · rw [hfd, State.setConn_self] at hc
    exact hconn c hc
  · rw [State.setConn_of_ne s hfd] at hc
    exact h.conns fd' c hc

/-- An event leaves every connection between events, or brings the process down with a frame that
is too large. -/
lemma step_steady {s : State} (h : Steady s) (event : Event) :
    (∃ e, step strtod s event = .error e ∧ e = .die "request too large") ∨
      ∃ s' seen, step strtod s event = .ok (s', seen) ∧ Steady s' := by
  obtain ⟨σ, hg⟩ := h.stands
  cases event with
  | accept fd =>
    refine .inr ?_
    unfold step
    dsimp only
    cases hfd : s.fd2conn fd with
    | some conn => exact ⟨s, {}, rfl, h⟩
    | none =>
      refine ⟨_, {}, rfl, h.setConn fd fun c hc => ?_⟩
      rw [← Option.some.inj hc]
      exact ⟨[], [], between_accepted⟩
  | ready fd socket clocks rv wv wv' =>
    unfold step
    dsimp only
    cases hfd : s.fd2conn fd with
    | none => exact .inr ⟨s, {}, rfl, h⟩
    | some conn =>
      obtain ⟨u, o, hb⟩ := h.conns fd conn hfd
      rcases handleEvents_spec hg strtod clocks hb socket rv wv wv' with ⟨he, -⟩ |
        ⟨g', σ', conn', seen, done, frames, u', o', he, hg', -, -, hleft⟩
      · exact .inl ⟨_, by simp [he], rfl⟩
      · refine .inr ⟨_, seen, by dsimp only; rw [he]; rfl, ?_⟩
        have h' : Steady { s with g := g' } := ⟨⟨σ', hg'⟩, h.conns⟩
        refine h'.setConn fd fun c hc => ?_
        split_ifs at hc with hclosed
        rw [← Option.some.inj hc]
        cases hleft with
        | between hb' => exact ⟨u', o', hb'⟩
        | closing hclose _ _ _ => simp [hclose] at hclosed
  | timers clock idle =>
    obtain ⟨g', σ', he, hg', -⟩ := processTtlTimers_spec hg clock
    unfold step
    dsimp only
    refine .inr ⟨_, {}, by rw [he]; rfl, ⟨σ', hg'⟩, fun fd c hc => ?_⟩
    dsimp only at hc
    split_ifs at hc
    exact h.conns fd c hc

/-- What holds of a connection between events. -/
structure Settled (conn : Connection) : Prop where
  isOpen : conn.wantClose = false
  oneWant : conn.wantRead = !conn.wantWrite
  writes : conn.wantWrite = true ↔ conn.outgoing.unread ≠ []
  registered : conn.interest = ⟨conn.wantRead, conn.wantWrite⟩
  placeholders : conn.outgoing.placeholderStack = []
  begun : Begun maxMsg conn.incoming.unread

lemma settled_of_between {conn : Connection} {u o : Bytes} (h : Between conn u o) :
    Settled conn where
  isOpen := h.isOpen
  oneWant := by rw [h.tuned.wantRead, h.tuned.wantWrite, Bool.not_not]
  writes := by
    rw [h.tuned.wantWrite, h.outgoing.unread]
    simp
  registered := by rw [h.tuned.interest, h.tuned.wantRead, h.tuned.wantWrite]
  placeholders := h.outgoing.stack
  begun := by
    rw [h.incoming.unread]
    exact h.incomplete.begun (by decide)

lemma run_steady (strtod : Bytes → UInt64 × ℕ) (events : List Event) :
    (∃ e, run (step strtod) {} events = .error e ∧ e = .die "request too large") ∨
      ∃ s seen, run (step strtod) {} events = .ok (s, seen) ∧ Steady s :=
  run_invariant (fun _ event h => step_steady h event) steady_empty events

lemma steady_of_run {events : List Event} {s : State} {seen : List Seen}
    (h : run (step strtod) {} events = .ok (s, seen)) : Steady s := by
  rcases run_steady strtod events with ⟨e, he, -⟩ | ⟨s', seen', he, hs⟩
  · rw [h] at he
    cases he
  · rw [h] at he
    rw [(Prod.mk.inj (Except.ok.inj he)).1]
    exact hs

/-- **The connections are settled between events.** In every run from the empty server, whatever the
sockets do, no assertion fails: the process goes on, or dies of a frame that is too large. -/
theorem stays_settled (strtod : Bytes → UInt64 × ℕ) (events : List Event) :
    run (step strtod) {} events = .error (.die "request too large") ∨
      ∃ s seen, run (step strtod) {} events = .ok (s, seen) ∧
        ∀ fd conn, s.fd2conn fd = some conn → Settled conn := by
  rcases run_steady strtod events with ⟨e, he, rfl⟩ | ⟨s, seen, he, h⟩
  · exact .inl he
  · refine .inr ⟨s, seen, he, fun fd conn hc => ?_⟩
    obtain ⟨u, o, hb⟩ := h.conns fd conn hc
    exact settled_of_between hb

/-! ### Rejecting input -/

/-- The states in which `try_process_one_request` is called on the connection of a descriptor: it
has read some bytes, and perhaps executed commands in them. -/
inductive Called (strtod : Bytes → UInt64 × ℕ) (fd : ℕ) : State → Prop
  | received {events : List Event} {s : State} {seen : List Seen} {conn : Connection} (buf : Bytes)
    (he : run (step strtod) {} events = .ok (s, seen)) (hc : s.fd2conn fd = some conn) :
    Called strtod fd (s.setConn fd (some { conn with incoming := append conn.incoming buf }))
  | executed {s s' : State} {clock : Timespec} {x : Executed} (h : Called strtod fd s)
    (he : tryProcess strtod s fd clock = .ok (s', some x)) : Called strtod fd s'

/-- The buffers of every connection are in order, and the database stands for a store, whether
between events or within one. -/
structure Sound (s : State) : Prop where
  stands : ∃ σ, Good s.g σ
  buffers : ∀ fd conn, s.fd2conn fd = some conn →
    ∃ u o, Shows conn.incoming u [] ∧ Shows conn.outgoing o []

lemma Steady.sound {s : State} (h : Steady s) : Sound s where
  stands := h.stands
  buffers := by
    intro fd conn hc
    obtain ⟨u, o, hb⟩ := h.conns fd conn hc
    exact ⟨u, o, hb.incoming, hb.outgoing⟩

lemma Sound.setConn {s : State} (h : Sound s) (fd : ℕ) {conn : Connection} {u o : Bytes}
    (hin : Shows conn.incoming u []) (hout : Shows conn.outgoing o []) :
    Sound (s.setConn fd (some conn)) := by
  refine ⟨h.stands, fun fd' c hc => ?_⟩
  by_cases hfd : fd' = fd
  · rw [hfd, State.setConn_self] at hc
    rw [← Option.some.inj hc]
    exact ⟨u, o, hin, hout⟩
  · rw [State.setConn_of_ne s hfd] at hc
    exact h.buffers fd' c hc

/-- What is asked of `try_process_one_request`: it waits and changes nothing, or closes its
connection and changes nothing else, or executes the one command that the first frame holds. -/
inductive Isolated (strtod : Bytes → UInt64 × ℕ) (s : State) (fd : ℕ) (clock : Timespec)
    (conn : Connection) : Eff (State × Option Executed) → Prop
  | waits (h : Incomplete maxMsg conn.incoming.unread) :
    Isolated strtod s fd clock conn (.ok (s, none))
  | closes (h : TooLarge conn.incoming.unread ∨ Rejected conn.incoming.unread) :
    Isolated strtod s fd clock conn
      (.ok (s.setConn fd (some { conn with wantClose := true }), none))
  | executes {p rest : Bytes} {cmd : List Bytes} {g' : GlobalData} {incoming outgoing : Buffer}
    (hu : conn.incoming.unread = pack p ++ rest) (hp : Parses p ⟨s.g, clock, cmd⟩)
    (hr : respond strtod s.g clock cmd conn.outgoing = .ok (g', outgoing))
    (hrest : incoming.unread = rest) :
    Isolated strtod s fd clock conn (.ok ({ s with g := g' }.setConn fd
      (some { conn with outgoing := outgoing, incoming := incoming }), some ⟨s.g, clock, cmd⟩))

lemma setConn_same {s : State} {fd : ℕ} {conn : Connection} (hc : s.fd2conn fd = some conn) :
    s.setConn fd (some conn) = s := by
  unfold State.setConn
  rw [← hc, Function.update_eq_self]

variable {s : State} {fd : ℕ} {conn : Connection}

/-- With a header that is too large, the process dies. -/
lemma tryProcess_tooLarge (hs : Sound s) (hc : s.fd2conn fd = some conn) (clock : Timespec)
    (h : TooLarge conn.incoming.unread) :
    tryProcess strtod s fd clock = .error (.die "request too large") := by
  obtain ⟨u, o, hin, -⟩ := hs.buffers fd conn hc
  rw [hin.unread] at h
  have hhead : ofLeBytes (u.take 4) = header u := rfl
  unfold tryProcess tryProcessOneRequest
  rw [hc]
  dsimp only
  rw [hin.readableSize, hin.unread, if_neg (Nat.not_lt.mpr h.1), hhead, if_pos h.2]
  rfl

lemma isolated_of_small (hs : Sound s) (hc : s.fd2conn fd = some conn) (clock : Timespec)
    (h : ¬ TooLarge conn.incoming.unread) :
    Isolated strtod s fd clock conn (tryProcess strtod s fd clock) := by
  obtain ⟨σ, hg⟩ := hs.stands
  obtain ⟨u, o, hin, hout⟩ := hs.buffers fd conn hc
  have ht := tryProcess_spec hg strtod clock hin hout
  unfold tryProcess
  rw [hc]
  dsimp only
  generalize tryProcessOneRequest strtod s.g clock conn = r at ht
  have hu := hin.unread
  cases ht with
  | wait hwait =>
    have hsame := setConn_same hc
    show Isolated strtod s fd clock conn (.ok (s.setConn fd (some conn), none))
    rw [hsame]
    exact .waits (hu ▸ hwait)
  | die hdie => exact absurd (hu ▸ hdie) h
  | reject hrej => exact .closes (.inr (hu ▸ hrej))
  | answer hsplit hp hg' he hf hin' hout' =>
    exact .executes (hu.trans hsplit) hp he hin'.unread

lemma Called.sound (h : Called strtod fd s) : Sound s := by
  induction h with
  | received buf he hc =>
    have hs := (steady_of_run he).sound
    obtain ⟨u, o, hin, hout⟩ := hs.buffers _ _ hc
    exact hs.setConn _ (hin.append buf) hout
  | @executed s s' clock x _ he ih =>
    unfold tryProcess at he
    cases hc : s.fd2conn fd with
    | none =>
      rw [hc] at he
      cases he
    | some conn =>
      obtain ⟨σ, hg⟩ := ih.stands
      obtain ⟨u, o, hin, hout⟩ := ih.buffers fd conn hc
      have ht := tryProcess_spec hg strtod clock hin hout
      rw [hc] at he
      dsimp only at he
      generalize tryProcessOneRequest strtod s.g clock conn = r at ht he
      cases ht with
      | wait => cases he
      | die => cases he
      | reject => cases he
      | answer _ _ hg' _ _ hin' hout' =>
        cases he
        have hs : Sound { s with g := _ } := ⟨⟨_, hg'⟩, ih.buffers⟩
        exact hs.setConn fd hin' hout'

/-- **Requests are isolated exactly where the header is not too large.** -/
theorem isolated_iff (clock : Timespec) (h : Called strtod fd s) (hc : s.fd2conn fd = some conn) :
    Isolated strtod s fd clock conn (tryProcess strtod s fd clock) ↔
      conn.incoming.unread.length < 4 ∨ header conn.incoming.unread ≤ maxMsg := by
  constructor
  · intro hiso
    by_contra hno
    rw [not_or, Nat.not_lt, Nat.not_le] at hno
    rw [tryProcess_tooLarge h.sound hc clock hno] at hiso
    cases hiso
  · intro hsmall
    refine isolated_of_small h.sound hc clock fun hbig => ?_
    rcases hsmall with hlen | hle
    · exact Nat.not_lt.mpr hbig.1 hlen
    · exact Nat.not_lt.mpr hle hbig.2

def fresh (received : Bytes) : Connection := { accepted with incoming := append {} received }

def oneConn (received : Bytes) : State :=
  (({} : State).setConn 5 (some accepted)).setConn 5 (some (fresh received))

lemma called_oneConn (strtod : Bytes → UInt64 × ℕ) (received : Bytes) :
    Called strtod 5 (oneConn received) := by
  have he : run (step strtod) {} [.accept 5] = .ok (({} : State).setConn 5 (some accepted), [{}]) :=
    rfl
  exact .received received he (State.setConn_self ..)

theorem isolated_iff_begun :
    Isolated (fun _ => (0, 0)) (oneConn [3, 0]) 5 ⟨1, 0, by decide, by decide⟩ (fresh [3, 0])
      (tryProcess (fun _ => (0, 0)) (oneConn [3, 0]) 5 ⟨1, 0, by decide, by decide⟩) := by
  have hunread := (shows_empty.append [3, 0]).unread
  refine (isolated_iff _ (called_oneConn _ [3, 0]) (State.setConn_self ..)).mpr (.inl ?_)
  unfold fresh
  rw [hunread]
  decide

/-- Four bytes of `0xFF` end the process, in a state in which they can be read. -/
theorem not_isolated_of_ones :
    Called (fun _ => (0, 0)) 5 (oneConn [255, 255, 255, 255]) ∧
      ¬ Isolated (fun _ => (0, 0)) (oneConn [255, 255, 255, 255]) 5 ⟨1, 0, by decide, by decide⟩
        (fresh [255, 255, 255, 255])
        (tryProcess (fun _ => (0, 0)) (oneConn [255, 255, 255, 255]) 5
          ⟨1, 0, by decide, by decide⟩) := by
  have hcalled := called_oneConn (fun _ => (0, 0)) [255, 255, 255, 255]
  refine ⟨hcalled, fun h => ?_⟩
  have hbig : TooLarge (fresh [255, 255, 255, 255]).incoming.unread := by
    unfold fresh
    rw [(shows_empty.append [255, 255, 255, 255]).unread]
    exact ⟨by decide, by decide⟩
  rw [tryProcess_tooLarge hcalled.sound (State.setConn_self ..) _ hbig] at h
  cases h

end ByoRedis.Server
