import ByoRedis.Conn
import ByoRedis.IdleList

/-!
The event loop and its timers: the connections by descriptor, and those that are idle in a list.

What `accept`, `epoll_ctl`, `read` and `write` return, which sockets have events, and what the clock
says are inputs. Besides the memory of the process, a state has the descriptors that the kernel
keeps open for it, and the last time that was read for the idle timers.
-/

namespace ByoRedis.EventLoop

open ByoRedis.Basic ByoRedis.Database ByoRedis.Conn ByoRedis.IdleList

/-- A node of the idle list: its dummy head, or the `idle_node` of a connection. -/
inductive Node
  | head
  | conn (a : Addr)
  deriving DecidableEq, Repr

/-- `struct Conn`. Its `idle_node` is with the other nodes of the list. -/
structure Conn where
  fd : ℕ
  io : Connection
  lastActiveMs : ℕ

structure State where
  g : GlobalData := {}
  conns : Addr → Option Conn := fun _ => none
  /-- `idle_list` and the `idle_node` of every connection. -/
  idle : Nodes Node
  fd2conn : List (Option Addr) := []
  /-- No connection from here on was ever allocated. -/
  fresh : Addr := 0
  /-- The descriptors of connections that the kernel has open. -/
  opened : List ℕ := []
  /-- The last time read for the idle timers. -/
  now : ℕ := 0

def start : Eff State := do
  let idle ← dlistInit (Function.update (fun _ => none) .head (some {})) .head
  pure { idle := idle }

def State.deref (s : State) (a : Addr) : Eff Conn :=
  match s.conns a with
  | none => throw .access
  | some conn => pure conn

/-! ### Connections -/

def connDestroy (s : State) (a : Addr) : Eff State := do
  let conn ← s.deref a
  if conn.fd < s.fd2conn.length then do
    let idle ← dlistDetach s.idle (.conn a)
    pure { s with
      opened := s.opened.erase conn.fd
      fd2conn := s.fd2conn.set conn.fd none
      idle := Function.update idle (.conn a) none
      conns := Function.update s.conns a none }
  else throw .access

/-- What `accept` returns, for a connection with whether `epoll_ctl` then succeeds. -/
inductive Accept
  | conn (fd : ℕ) (clock : Timespec) (added : Bool)
  | eintr
  | again
  | error

/-- `g_data.fd2conn.resize` -/
def resize (fd2conn : List (Option Addr)) (size : ℕ) : List (Option Addr) :=
  fd2conn ++ List.replicate (size - fd2conn.length) none

/-- A connection made by `handle_accept`, before it is registered. -/
def connOf (fd : ℕ) (clock : Timespec) : Conn := ⟨fd, { wantRead := true }, getMonotonicMsec clock⟩

/-- One round of `handle_accept`, where `accept` returns a descriptor. -/
def acceptOne (s : State) (fd : ℕ) (clock : Timespec) (added : Bool) : Eff State := do
  let a := s.fresh
  let idle := Function.update s.idle (.conn a) (some {})
  let idle ← dlistInsertBefore idle .head (.conn a)
  let fd2conn := if s.fd2conn.length ≤ fd then resize s.fd2conn (fd + 1) else s.fd2conn
  match fd2conn[fd]? with
  | none => throw .access
  | some (some _) => throw .assertion
  | some none =>
    let conn := connOf fd clock
    let s := { s with
      conns := Function.update s.conns a (some conn)
      idle := idle
      fd2conn := fd2conn.set fd (some a)
      fresh := a + 1
      opened := fd :: s.opened
      now := getMonotonicMsec clock }
    if added then
      let conn := { conn with io := { conn.io with interest := ⟨true, false⟩ } }
      pure { s with conns := Function.update s.conns a (some conn) }
    else connDestroy s a

/-- `handle_accept`, with how many connections were accepted so far. After the last result the queue
is drained. -/
def handleAccept : State → ℕ → List Accept → Eff (State × ℤ)
  | s, _, [] => pure (s, 0)
  | s, accepted, .eintr :: results => handleAccept s accepted results
  | s, _, .again :: _ => pure (s, 0)
  | s, accepted, .error :: _ => pure (s, if 0 < accepted then 0 else -1)
  | s, accepted, .conn fd clock added :: results => do
    let s ← acceptOne s fd clock added
    handleAccept s (accepted + added.toNat) results

/-- What `main` does about the events of a connection. -/
def handleConn (strtod : Bytes → UInt64 × ℕ) (s : State) (a : Addr) (conn : Conn) (clock : Timespec)
    (readyMask : Mask) (clocks : ℕ → Timespec) (rv : ReadResult) (wv wv' : Write) :
    Eff (State × Seen) := do
  -- update the idle timer by moving conn to the end of the list
  let idle ← dlistDetach s.idle (.conn a)
  let idle ← dlistInsertBefore idle .head (.conn a)
  let (g, io, seen, destroyed) ← handleEvents strtod s.g clocks conn.io readyMask rv wv wv'
  let s := { s with
    g := g
    conns := Function.update s.conns a (some ⟨conn.fd, io, getMonotonicMsec clock⟩)
    idle := idle
    now := getMonotonicMsec clock }
  if destroyed then do
    let s ← connDestroy s a
    pure (s, seen)
  else pure (s, seen)

/-- What `main` does about a socket that has events, where every `write` returns. -/
def handleReady (strtod : Bytes → UInt64 × ℕ) (s : State) (fd : ℕ) (clock : Timespec)
    (socket : Mask) (clocks : ℕ → Timespec) (rv : ReadResult) (wv wv' : WriteResult) :
    Eff (State × Seen) :=
  match s.fd2conn[fd]?.join with
  | none => pure (s, {})
  | some a => do
    let conn ← s.deref a
    handleConn strtod s a conn clock (socket.reported conn.io.interest) clocks rv wv wv'

/-! ### Timers -/

/-- `k_idle_timeout_ms` -/
def idleTimeoutMs : ℕ := 5 * 1000

/-- The connection at the front of `idle_list`, where the list is not empty. -/
def firstIdle (s : State) : Eff (Option (Addr × Conn)) := do
  if ← dlistEmpty s.idle .head then pure none
  else do
    let (_, list) ← IdleList.deref s.idle (some .head)
    match list.next with
    | some (.conn a) => do
      let conn ← s.deref a
      pure (some (a, conn))
    | _ => throw .access

/-- `conn->last_active_ms + k_idle_timeout_ms` -/
def Conn.deadline (conn : Conn) : ℕ := (conn.lastActiveMs + idleTimeoutMs) % 2 ^ 64

/-- The loop of `process_timers` over idle connections. -/
def idleLoop (clock : Timespec) : ℕ → State → Eff State
  | 0, _ => throw .spin
  | fuel + 1, s => do
    match ← firstIdle s with
    | none => pure s
    | some (a, conn) =>
      if getMonotonicMsec clock ≤ conn.deadline then pure s
      else do
        let s ← connDestroy s a
        idleLoop clock fuel s

def processTimers (s : State) (clock : Timespec) : Eff State := do
  let s ← idleLoop clock (s.fresh + 1) s
  let g ← processTtlTimers s.g clock
  pure { s with g := g, now := getMonotonicMsec clock }

def castI32 (n : ℕ) : ℤ := Int.bmod n (2 ^ 32)

def nextTimerMs (s : State) (clock : Timespec) : Eff ℤ := do
  let nowMs := getMonotonicMsec clock
  let never := 2 ^ 64 - 1
  let nextMs := ((← firstIdle s).map fun x => x.2.deadline).getD never
  let nextMs :=
    match s.g.heap.a[0]? with
    | none => nextMs
    | some item => if item.val < nextMs then item.val else nextMs
  if nextMs = never then pure (-1)
  else if nextMs ≤ nowMs then pure 0
  else pure (castI32 (nextMs - nowMs))

/-! ### The loop -/

inductive Event
  /-- The listening socket is ready. -/
  | accept (results : List Accept)
  /-- A socket has events. -/
  | ready (fd : ℕ) (clock : Timespec) (socket : Mask) (clocks : ℕ → Timespec) (rv : ReadResult)
    (wv wv' : WriteResult)
  | timers (clock : Timespec)

def step (strtod : Bytes → UInt64 × ℕ) (s : State) : Event → Eff (State × Seen)
  | .accept results => do
    let (s, _) ← handleAccept s 0 results
    pure (s, {})
  | .ready fd clock socket clocks rv wv wv' =>
    handleReady strtod s fd clock socket clocks rv wv wv'
  | .timers clock => do
    let s ← processTimers s clock
    pure (s, {})

/-- `accept` returns no descriptor that is open, and the clock does not go back. -/
def Acceptable (s : State) : List Accept → Prop
  | .conn fd clock added :: results =>
    fd ∉ s.opened ∧ s.now ≤ getMonotonicMsec clock ∧
      ∀ s', acceptOne s fd clock added = .ok s' → Acceptable s' results
  | .eintr :: results => Acceptable s results
  | _ => True

/-- What is assumed of the kernel and the clock. -/
def Admissible (s : State) : Event → Prop
  | .accept results => Acceptable s results
  | .ready _ clock _ _ _ _ _ => s.now ≤ getMonotonicMsec clock
  | .timers clock => s.now ≤ getMonotonicMsec clock

/-- The states of the server between events. -/
inductive Reachable (strtod : Bytes → UInt64 × ℕ) : State → Prop
  | start {s : State} (h : start = .ok s) : Reachable strtod s
  | step {s s' : State} {event : Event} {seen : Seen} (h : Reachable strtod s)
    (ha : Admissible s event) (he : step strtod s event = .ok (s', seen)) : Reachable strtod s'

end ByoRedis.EventLoop
