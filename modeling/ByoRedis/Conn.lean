import ByoRedis.Commands

/-!
A connection: its buffers, what it wants from the event loop, and the application callbacks.

The results of `read` and `write` are inputs. A callback also returns what it did that can be
seen from outside: the commands it executed and the bytes the socket took.
-/

namespace ByoRedis.Conn

open ByoRedis.Basic ByoRedis.ByteBuffer ByoRedis.Proto ByoRedis.Database ByoRedis.Commands
open ByoRedis.Lib.LittleEndian

/-- The events registered for a socket besides `EPOLLERR`. -/
structure Interest where
  epollin : Bool := false
  epollout : Bool := false
  deriving DecidableEq, Repr

structure Connection where
  wantRead : Bool := false
  wantWrite : Bool := false
  wantClose : Bool := false
  /-- Data to be parsed by the application. -/
  incoming : Buffer := {}
  /-- Responses generated by the application. -/
  outgoing : Buffer := {}
  /-- What the kernel has registered for the socket. -/
  interest : Interest := {}
  deriving DecidableEq, Repr

/-- `epoll_update_interest`, where `epoll_ctl` succeeds. -/
def epollUpdateInterest (conn : Connection) : Connection :=
  { conn with interest := ⟨conn.wantRead, conn.wantWrite⟩ }

/-! ### Responses -/

def responseBegin (buf : Buffer) : Buffer := bufAppendU32 (pushPlaceholder buf) 0

def responseSize (buf : Buffer) : Eff ℕ := do
  let pos ← peekPlaceholder buf
  pure (buf.writableBegin - pos - 4)

/-- The part of `response_end` that puts an error in the place of a payload that is too large. -/
def limitResponse (buf : Buffer) : Eff Buffer := do
  let msgSize ← responseSize buf
  if maxMsg < msgSize then do
    let pos ← peekPlaceholder buf
    pure (outErr { buf with writableBegin := pos + 4 } .tooBig "response too big")
  else pure buf

def responseEnd (buf : Buffer) : Eff Buffer := do
  let buf ← limitResponse buf
  let msgSize ← responseSize buf
  let (buf, pos) ← popPlaceholder buf
  pure { buf with buf := overwrite buf.buf pos (leBytes 4 msgSize) }

/-- The answer to a request: the three calls of `try_process_one_request`. -/
def respond (strtod : Bytes → UInt64 × ℕ) (g : GlobalData) (clock : Timespec) (cmd : List Bytes)
    (outgoing : Buffer) : Eff (GlobalData × Buffer) := do
  let (g, outgoing) ← doRequestAndMakeResponse strtod g clock cmd (responseBegin outgoing)
  let outgoing ← responseEnd outgoing
  pure (g, outgoing)

/-! ### Requests -/

/-- The loop of `parse_req`, with the number of strings to come. -/
def parseStrs : ℕ → Bytes → Option (List Bytes × Bytes)
  | 0, data => some ([], data)
  | nstr + 1, data => do
    let (len, data) ← readU32 data
    let (s, data) ← readStr data len
    let (out, data) ← parseStrs nstr data
    pure (s :: out, data)

/-- `parse_req`, or `none` where it is negative. -/
def parseReq (data : Bytes) : Option (List Bytes) := do
  let (nstr, data) ← readU32 data
  if maxArgs < nstr then none
  else do
    let (out, data) ← parseStrs nstr data
    if data = [] then some out else none

/-- A command that was executed, with the database it met and the clock it read. -/
structure Executed where
  g : GlobalData
  clock : Timespec
  cmd : List Bytes

/-- `try_process_one_request`; `true` is the command that was executed. -/
def tryProcessOneRequest (strtod : Bytes → UInt64 × ℕ) (g : GlobalData) (clock : Timespec)
    (conn : Connection) : Eff (GlobalData × Connection × Option Executed) :=
  if conn.incoming.readableSize < 4 then pure (g, conn, none)
  else
    let len := ofLeBytes (conn.incoming.unread.take 4)
    if maxMsg < len then throw (.die "request too large")
    else if conn.incoming.readableSize < 4 + len then pure (g, conn, none)
    else
      match parseReq ((conn.incoming.unread.drop 4).take len) with
      | none => pure (g, { conn with wantClose := true }, none)
      | some cmd => do
        let (g', outgoing) ← respond strtod g clock cmd conn.outgoing
        let conn := { conn with
          outgoing := outgoing
          incoming := consume conn.incoming (4 + len) }
        pure (g', conn, some ⟨g, clock, cmd⟩)

/-- `while (try_process_one_request(conn)) {}`. Each round reads the clock anew. -/
def processRequests (strtod : Bytes → UInt64 × ℕ) : ℕ → GlobalData → (ℕ → Timespec) →
    Connection → Eff (GlobalData × Connection × List Executed)
  | 0, _, _, _ => throw .spin
  | fuel + 1, g, clocks, conn => do
    match ← tryProcessOneRequest strtod g (clocks 0) conn with
    | (g, conn, none) => pure (g, conn, [])
    | (g, conn, some x) => do
      let (g, conn, log) ← processRequests strtod fuel g (fun i => clocks (i + 1)) conn
      pure (g, conn, x :: log)

/-! ### Callbacks -/

/-- What `read` returns. No bytes are the end of the file. -/
inductive ReadResult
  | got (buf : Bytes)
  | eagain
  | error

/-- What `write` returns. -/
inductive WriteResult
  | wrote (n : ℕ)
  | eagain
  | error

/-- A call of `write`: it returns, or the peer is gone and the process gets a signal. -/
inductive Write
  | returns (rv : WriteResult)
  | sigpipe

instance : Coe WriteResult Write := ⟨.returns⟩

/-- `handle_write`, with the bytes the socket took. -/
def handleWrite (conn : Connection) (write : Write) : Eff (Connection × Bytes) :=
  if conn.outgoing.readableSize = 0 then throw .assertion
  else
    match write with
    | .sigpipe => throw .sigpipe
    | .returns .eagain => pure (epollUpdateInterest conn, [])
    | .returns .error => pure ({ conn with wantClose := true }, [])
    | .returns (.wrote n) =>
      let sent := conn.outgoing.unread.take n
      let conn := { conn with outgoing := consume conn.outgoing n }
      let conn :=
        if conn.outgoing.readableSize = 0 then
          { conn with
            wantWrite := false
            wantRead := true
            outgoing := shrinkIfWasteful conn.outgoing (1 <<< 20) }
        else conn
      pure (epollUpdateInterest conn, sent)

/-- Give memory back after the requests of a read. -/
def shrinkIncoming (incoming : Buffer) : Buffer :=
  let unread := incoming.readableSize
  if unread = 0 then shrinkIfWasteful incoming 4096
  else if 1 <<< 20 < incoming.capacity ∧ unread < incoming.capacity >>> 3 ∧ unread < 4096 then
    shrinkIfWasteful incoming 4096
  else incoming

/-- What was seen of a callback: the bytes it read, the commands it executed, and the bytes the
socket took. -/
structure Seen where
  received : Bytes := []
  executed : List Executed := []
  sent : Bytes := []

/-- Two callbacks one after the other. -/
def Seen.append (a b : Seen) : Seen :=
  ⟨a.received ++ b.received, a.executed ++ b.executed, a.sent ++ b.sent⟩

/-- `handle_read`, with the `write` it may go on to. -/
def handleRead (strtod : Bytes → UInt64 × ℕ) (g : GlobalData) (clocks : ℕ → Timespec)
    (conn : Connection) (rv : ReadResult) (wv : Write) :
    Eff (GlobalData × Connection × Seen) :=
  match rv with
  | .eagain => pure (g, conn, {})
  | .error => pure (g, { conn with wantClose := true }, {})
  | .got [] => pure (g, { conn with wantClose := true }, {})
  | .got buf => do
    let conn := { conn with incoming := append conn.incoming buf }
    let fuel := conn.incoming.readableSize + 1
    let (g, conn, log) ← processRequests strtod fuel g clocks conn
    let conn := { conn with incoming := shrinkIncoming conn.incoming }
    if 0 < conn.outgoing.readableSize then do
      let (conn, sent) ← handleWrite { conn with wantRead := false, wantWrite := true } wv
      pure (g, conn, ⟨buf, log, sent⟩)
    else pure (g, epollUpdateInterest conn, ⟨buf, log, []⟩)

/-! ### The event loop -/

structure Mask where
  epollin : Bool
  epollout : Bool
  /-- `EPOLLERR` or `EPOLLHUP` -/
  epollerr : Bool
  deriving DecidableEq, Repr

/-- The events of a socket that `epoll_wait` reports: those that are registered, and errors. -/
def Mask.reported (socket : Mask) (interest : Interest) : Mask :=
  ⟨socket.epollin && interest.epollin, socket.epollout && interest.epollout, socket.epollerr⟩

/-- What `main` does about one socket that has events: the callbacks, and whether the connection
is destroyed. The second `write` is that of `EPOLLOUT`. -/
def handleEvents (strtod : Bytes → UInt64 × ℕ) (g : GlobalData) (clocks : ℕ → Timespec)
    (conn : Connection) (ready : Mask) (rv : ReadResult) (wv wv' : Write) :
    Eff (GlobalData × Connection × Seen × Bool) := do
  let (g, conn, seen) ←
    if ready.epollin then
      if conn.wantRead then handleRead strtod g clocks conn rv wv else throw .assertion
    else pure (g, conn, {})
  let (conn, sent) ←
    if ready.epollout then
      if conn.wantWrite then handleWrite conn wv' else throw .assertion
    else pure (conn, [])
  pure (g, conn, seen.append ⟨[], [], sent⟩, ready.epollerr || conn.wantClose)

end ByoRedis.Conn
