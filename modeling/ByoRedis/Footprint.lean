import ByoRedis.BufferRuns
import ByoRedis.LoopRuns
import ByoRedis.RequestGrammar

/-!
The memory that a connection holds.

The array of a buffer doubles when bytes do not fit in it, and it is given back when little of it is
used. The bytes that are not taken in yet are less than a frame whenever `read` is called, and
nothing is read while responses wait to be sent. This bounds both buffers of a connection, in every
state of the event loop, except for the array that the responses are made in.
-/

namespace ByoRedis.Footprint

open ByoRedis.Basic ByoRedis.ByteBuffer ByoRedis.ByteBufferSpec ByoRedis.BufferRuns ByoRedis.Proto
open ByoRedis.Tlv ByoRedis.Database ByoRedis.DatabaseSpec ByoRedis.KeySpace ByoRedis.Conn
open ByoRedis.ConnSpec ByoRedis.ResponseSpec ByoRedis.StoreRuns ByoRedis.EventLoop
open ByoRedis.Registry ByoRedis.LoopRuns ByoRedis.RequestGrammar ByoRedis.Lib.Runs
open ByoRedis.Lib.LittleEndian ByoRedis.Lib.Frames

variable {strtod : Bytes → UInt64 × ℕ} {g g' : GlobalData} {σ : Store} {b : Buffer} {u o : Bytes}
  {hs : List ℕ} {conn conn' : Connection}

/-! ### The array of a buffer -/

lemma capacity_resized_of_le (h : Shows b u hs) {newCap : ℕ} (hle : u.length ≤ newCap) :
    (resized b newCap).capacity = newCap := by
  rw [resized, Buffer.capacity, List.length_append, List.length_replicate, h.unread,
    h.readableSize]
  omega

/-- Bytes that do not fit make the array twice as large as what it holds then. -/
lemma capacity_append_le (h : Shows b u hs) (data : Bytes) :
    (append b data).capacity ≤ max b.capacity (2 * (u.length + data.length)) := by
  have hv := shows_valid h
  have hsize := h.readableSize
  have hshows := h.makeRoom data.length (b.readableSize + data.length)
  have hroom := h.room (n := data.length) (by rw [hsize] : u.length + data.length ≤
    b.readableSize + data.length)
  have hsame : (append b data).capacity =
      (makeRoom b data.length (b.readableSize + data.length)).capacity := by
    have hfits := (shows_valid hshows).fits
    rw [Buffer.writableSize] at hroom
    rw [append, Buffer.capacity, overwrite, List.length_append, List.length_append,
      List.length_take, List.length_drop]
    rw [Buffer.capacity] at hroom hfits ⊢
    omega
  rw [hsame]
  unfold makeRoom
  split_ifs with h₁ h₂
  · exact Nat.le_max_left ..
  · refine le_max_of_le_left ?_
    rw [Buffer.capacity, Buffer.capacity, List.length_append, List.length_drop, h.unread, hsize]
    have hfits := hv.fits
    have hbegins := hv.begins
    rw [Buffer.readableSize] at hsize
    rw [Buffer.capacity] at hfits
    omega
  · rw [capacity_resized_of_le h (by omega)]
    have hfits := hv.fits
    have hbegins := hv.begins
    rw [Buffer.writableSize] at h₂
    rw [Buffer.readableSize] at hsize ⊢
    omega

lemma capacity_consume (b : Buffer) (n : ℕ) : (consume b n).capacity = b.capacity := by
  unfold consume
  dsimp only
  split_ifs <;> rfl

lemma capacity_shrink (h : Shows b u hs) (hardMin : ℕ) :
    (shrinkIfWasteful b hardMin).capacity ≤ b.capacity ∧
      (shrinkIfWasteful b hardMin).capacity ≤ max hardMin (u.length * 4) := by
  unfold shrinkIfWasteful
  rw [h.readableSize]
  split_ifs with hwaste
  · rw [capacity_resized_of_le h (by omega)]
    omega
  · omega

/-- After a read: less than 4096 bytes hold less than a megabyte, and none hold a page. -/
lemma capacity_shrinkIncoming (h : Shows b u []) :
    (shrinkIncoming b).capacity ≤ b.capacity ∧
      (u.length < 4096 → (shrinkIncoming b).capacity ≤ 1 <<< 20) ∧
      (u.length = 0 → (shrinkIncoming b).capacity ≤ 4096) := by
  obtain ⟨hle, hmax⟩ := capacity_shrink h 4096
  unfold shrinkIncoming
  dsimp only
  rw [h.readableSize]
  by_cases hnone : u.length = 0
  · rw [if_pos hnone]
    refine ⟨hle, fun _ => ?_, fun _ => ?_⟩ <;> omega
  · rw [if_neg hnone]
    by_cases hlarge : 1 <<< 20 < b.capacity ∧ u.length < b.capacity >>> 3 ∧ u.length < 4096
    · rw [if_pos hlarge]
      refine ⟨hle, fun _ => ?_, fun hzero => absurd hzero hnone⟩
      omega
    · rw [if_neg hlarge]
      refine ⟨le_rfl, fun hfew => ?_, fun hzero => absurd hzero hnone⟩
      rw [Nat.shiftRight_eq_div_pow] at hlarge
      omega

/-! ### Requests -/

lemma tryProcess_buffers {clock : Timespec} {r : Option Executed}
    (h : tryProcessOneRequest strtod g clock conn = .ok (g', conn', r)) :
    conn'.incoming.capacity = conn.incoming.capacity ∧
      (r = none → conn'.outgoing = conn.outgoing) := by
  unfold tryProcessOneRequest at h
  dsimp only at h
  split_ifs at h
  · obtain ⟨-, h⟩ := Prod.mk.inj (Except.ok.inj h)
    obtain ⟨rfl, rfl⟩ := Prod.mk.inj h
    exact ⟨rfl, fun _ => rfl⟩
  · obtain ⟨-, h⟩ := Prod.mk.inj (Except.ok.inj h)
    obtain ⟨rfl, rfl⟩ := Prod.mk.inj h
    exact ⟨rfl, fun _ => rfl⟩
  · cases hparse : parseReq ((conn.incoming.unread.drop 4).take
        (ofLeBytes (conn.incoming.unread.take 4))) with
    | none =>
      rw [hparse] at h
      obtain ⟨-, h⟩ := Prod.mk.inj (Except.ok.inj h)
      obtain ⟨rfl, rfl⟩ := Prod.mk.inj h
      exact ⟨rfl, fun _ => rfl⟩
    | some cmd =>
      rw [hparse] at h
      obtain ⟨⟨g₁, outgoing⟩, -, h⟩ := bind_eq_ok.mp h
      obtain ⟨-, h⟩ := Prod.mk.inj (Except.ok.inj h)
      obtain ⟨rfl, rfl⟩ := Prod.mk.inj h
      exact ⟨capacity_consume _ _, fun hnone => absurd hnone (Option.some_ne_none _)⟩

lemma processRequests_buffers {fuel : ℕ} {clocks : ℕ → Timespec} {log : List Executed}
    (h : processRequests strtod fuel g clocks conn = .ok (g', conn', log)) :
    conn'.incoming.capacity = conn.incoming.capacity ∧
      (log = [] → conn'.outgoing = conn.outgoing) := by
  induction fuel generalizing g g' conn conn' clocks log with
  | zero => simp [processRequests] at h
  | succ fuel ih =>
    unfold processRequests at h
    obtain ⟨⟨g₁, conn₁, r⟩, htry, h⟩ := bind_eq_ok.mp h
    obtain ⟨hcap, hsame⟩ := tryProcess_buffers htry
    cases r with
    | none =>
      obtain ⟨-, h⟩ := Prod.mk.inj (Except.ok.inj h)
      obtain ⟨rfl, rfl⟩ := Prod.mk.inj h
      exact ⟨hcap, fun _ => hsame rfl⟩
    | some x =>
      obtain ⟨⟨g₂, conn₂, log₂⟩, hrest, h⟩ := bind_eq_ok.mp h
      obtain ⟨-, h⟩ := Prod.mk.inj (Except.ok.inj h)
      obtain ⟨rfl, rfl⟩ := Prod.mk.inj h
      exact ⟨(ih hrest).1.trans hcap, fun hnil => absurd hnil (List.cons_ne_nil x log₂)⟩

lemma frame_length (v : Value) : 4 ≤ (frame v).length ∧ (frame v).length ≤ 4 + maxMsg := by
  rw [frame, pack_length]
  have := framed_length v
  omega

/-- Each request has a response, which is no larger than a frame can be. -/
lemma responses_length (hg : Good g σ) {log : List Executed} {frames : List Bytes}
    (h : run (serve strtod) g (opsOf log) = .ok (g', frames)) :
    log.length * 4 ≤ frames.flatten.length ∧
      frames.flatten.length ≤ log.length * (4 + maxMsg) := by
  have hall := outs_framed hg h
  rw [opsOf, List.forall₂_map_left_iff] at hall
  clear h
  induction hall with
  | nil => simp
  | cons hf _ ih =>
    obtain ⟨v, -, rfl⟩ := hf _ _ rfl
    have := frame_length v
    rw [List.flatten_cons, List.length_append, List.length_cons, Nat.succ_mul, Nat.succ_mul]
    omega

/-- A request that is executed takes eight bytes at least. -/
lemma requests_length {done : List Bytes} {xs : List Executed}
    (h : List.Forall₂ Parses done xs) : 8 * xs.length ≤ (packAll done).length := by
  induction h with
  | nil => simp
  | @cons p x done xs hp _ ih =>
    obtain ⟨⟨nstr, rest⟩, hn, -⟩ := Option.bind_eq_some_iff.mp hp.2
    obtain ⟨rfl, -⟩ := readU32_eq_some hn
    rw [packAll_cons, List.length_append, pack_length, List.length_append, leBytes_length,
      List.length_cons]
    omega

/-! ### Callbacks -/

/-- How many bytes `read` is asked for. -/
def readMost : ℕ := 64 * 1024

/-- More bytes than a connection has while requests are executed: less than a frame, and those of
one `read`. -/
def heldMost : ℕ := 4 + maxMsg + readMost

def Fits : ReadResult → Prop
  | .got buf => buf.length ≤ readMost
  | _ => True

/-- What a connection holds between events: twice what it can have unread at most for requests, a
megabyte where little is unread and a page where nothing is; a megabyte for responses where none is
unsent, and no more bytes unsent than the largest responses to as many requests as it holds have. -/
structure Modest (conn : Connection) : Prop where
  incoming : conn.incoming.capacity ≤ 2 * heldMost
  little : conn.incoming.readableSize < 4096 → conn.incoming.capacity ≤ 1 <<< 20
  drained : conn.incoming.readableSize = 0 → conn.incoming.capacity ≤ 4096
  sent : conn.outgoing.readableSize = 0 → conn.outgoing.capacity ≤ 1 <<< 20
  unsent : conn.outgoing.readableSize ≤ heldMost / 8 * (4 + maxMsg)

lemma incomplete_length (h : Incomplete maxMsg u) : u.length < 4 + maxMsg := by
  rcases h with h | ⟨h₁, h₂⟩ <;> omega

/-- **`handle_write`** gives the array for responses back when all of them are sent. -/
lemma handleWrite_outgoing {rv : WriteResult} {sent : Bytes} (hout : Shows conn.outgoing o [])
    (h : handleWrite conn rv = .ok (conn', sent)) : conn'.incoming = conn.incoming ∧
      conn'.outgoing.readableSize ≤ conn.outgoing.readableSize ∧
      (conn'.outgoing.readableSize = 0 → conn'.outgoing.capacity ≤ 1 <<< 20) := by
  unfold handleWrite at h
  by_cases hnone : conn.outgoing.readableSize = 0
  · simp [hnone] at h
  rw [if_neg hnone] at h
  cases rv with
  | eagain | error =>
    obtain ⟨rfl, -⟩ := Prod.mk.inj (Except.ok.inj h)
    exact ⟨rfl, le_rfl, fun hzero => absurd hzero hnone⟩
  | wrote n =>
    obtain ⟨rfl, -⟩ := Prod.mk.inj (Except.ok.inj h)
    have hcons := hout.consume n
    have hle : (o.drop n).length ≤ o.length := by
      rw [List.length_drop]
      omega
    dsimp only
    by_cases hall : (consume conn.outgoing n).readableSize = 0
    · rw [if_pos hall]
      have hshrink := hcons.shrink (1 <<< 20)
      obtain ⟨-, hcap⟩ := capacity_shrink hcons (1 <<< 20)
      rw [hcons.readableSize] at hall
      refine ⟨rfl, ?_, fun _ => ?_⟩
      · simp only [epollUpdateInterest, hshrink.readableSize, hout.readableSize]
        exact hle
      · simp only [epollUpdateInterest]
        omega
    · rw [if_neg hall]
      refine ⟨rfl, ?_, fun hzero => absurd hzero hall⟩
      simp only [epollUpdateInterest, hcons.readableSize, hout.readableSize]
      exact hle

lemma Modest.write {rv : WriteResult} {sent : Bytes} (hm : Modest conn)
    (hout : Shows conn.outgoing o []) (h : handleWrite conn rv = .ok (conn', sent)) :
    Modest conn' := by
  obtain ⟨hin, hle, hsent⟩ := handleWrite_outgoing hout h
  exact ⟨hin ▸ hm.incoming, hin ▸ hm.little, hin ▸ hm.drained, hsent, hle.trans hm.unsent⟩

/-- What the requests of a read leave, when the array for them was given back. -/
lemma Modest.requests {clocks : ℕ → Timespec} {buf : Bytes} {log : List Executed} (hm : Modest conn)
    (hg : Good g σ) (hb : Between conn u []) (hfits : buf.length ≤ readMost)
    (h : processRequests strtod ((append conn.incoming buf).readableSize + 1) g clocks
      { conn with incoming := append conn.incoming buf } = .ok (g', conn', log)) :
    Modest { conn' with incoming := shrinkIncoming conn'.incoming } ∧
      ∃ o', Shows conn'.outgoing o' [] := by
  have hin := hb.incoming.append buf
  have hlen := incomplete_length hb.incomplete
  rw [hin.readableSize] at h
  obtain ⟨hcap, hsame⟩ := processRequests_buffers h
  obtain ⟨outs, hexec⟩ := @processRequests_runs _ _ _ _ _ _
    { conn with incoming := append conn.incoming buf } _ _ hg _ _ hin hb.outgoing h
  rcases processRequests_spec hg strtod clocks { conn with incoming := append conn.incoming buf }
    hin hb.outgoing (Nat.lt_succ_self _) with
    ⟨hdie, -⟩ | ⟨g₁, σ₁, conn₁, log₁, done, frames, u', he, -, hflow, hin₁, hout₁, -⟩
  · rw [hdie] at h
    cases h
  obtain ⟨rfl, he⟩ := Prod.mk.inj (Except.ok.inj (he.symm.trans h))
  obtain ⟨rfl, rfl⟩ := Prod.mk.inj he
  rw [List.nil_append] at hout₁
  obtain ⟨hleast, hmost⟩ := responses_length hg (hexec.of_answered hflow.answered)
  have hrequests : 8 * log₁.length ≤ heldMost := by
    have hreceived := congrArg List.length hflow.received
    have hdone : 8 * log₁.length ≤ (packAll done).length := requests_length hflow.parsed
    simp only [List.length_append, List.append_nil] at hreceived
    unfold heldMost
    omega
  have hgrown := capacity_append_le hb.incoming buf
  obtain ⟨hless, hlittle, hnone⟩ := capacity_shrinkIncoming hin₁
  refine ⟨⟨?_, ?_, ?_, ?_, ?_⟩, _, hout₁⟩
  · have := hm.incoming
    dsimp only at hcap ⊢
    unfold heldMost at this ⊢
    omega
  · rwa [(shows_shrinkIncoming hin₁).readableSize]
  · rwa [(shows_shrinkIncoming hin₁).readableSize]
  · intro hzero
    rw [hout₁.readableSize] at hzero
    have hlog : log₁ = [] := List.length_eq_zero_iff.mp (by omega)
    have hout : conn₁.outgoing = conn.outgoing := hsame hlog
    dsimp only
    rw [hout]
    exact hm.sent (by rw [hb.outgoing.readableSize]; rfl)
  · dsimp only
    rw [hout₁.readableSize]
    exact hmost.trans (Nat.mul_le_mul_right _ (by omega))

/-- **`handle_read`** leaves no more than a frame could need. -/
lemma Modest.read {clocks : ℕ → Timespec} {rv : ReadResult} {wv : WriteResult} {seen : Seen}
    (hm : Modest conn) (hg : Good g σ) (hb : Between conn u []) (hfits : Fits rv)
    (h : handleRead strtod g clocks conn rv wv = .ok (g', conn', seen)) : Modest conn' := by
  have hsame : ∀ {g₁ : GlobalData} {c c' : Connection} {seen' : Seen}, Modest c →
      (.ok (g₁, c, seen') : Eff _) = .ok (g', c', seen) → Modest c' := by
    intro g₁ c c' seen' hc he
    obtain ⟨-, he⟩ := Prod.mk.inj (Except.ok.inj he)
    rwa [← (Prod.mk.inj he).1]
  have hclosed : Modest { conn with wantClose := true } :=
    ⟨hm.incoming, hm.little, hm.drained, hm.sent, hm.unsent⟩
  cases rv with
  | eagain => exact hsame hm h
  | error => exact hsame hclosed h
  | got buf =>
    cases buf with
    | nil => exact hsame hclosed h
    | cons x xs =>
      obtain ⟨⟨g₁, conn₁, log⟩, hreq, h⟩ := bind_eq_ok.mp h
      obtain ⟨hleft, o, hout⟩ := hm.requests hg hb hfits hreq
      have hwaits : ∀ r w i, Modest { conn₁ with
          incoming := shrinkIncoming conn₁.incoming, wantRead := r, wantWrite := w,
          interest := i } := fun r w i =>
        ⟨hleft.incoming, hleft.little, hleft.drained, hleft.sent, hleft.unsent⟩
      dsimp only at h
      split_ifs at h
      · obtain ⟨⟨conn₂, sent⟩, hwrite, h⟩ := bind_eq_ok.mp h
        have hw := (hwaits false true conn₁.interest).write hout hwrite
        exact hsame hw h
      · exact hsame (hwaits _ _ _) h

/-- **One event of a socket.** -/
lemma Modest.events {clocks : ℕ → Timespec} {socket : Mask} {rv : ReadResult}
    {wv wv' : WriteResult} {seen : Seen} {destroyed : Bool} (hm : Modest conn) (hg : Good g σ)
    (hb : Between conn u o) (hfits : Fits rv)
    (h : handleEvents strtod g clocks conn (socket.reported conn.interest) rv wv wv' =
      .ok (g', conn', seen, destroyed)) : Modest conn' := by
  have hr := hb.tuned.wantRead
  have hw := hb.tuned.wantWrite
  have hend : ∀ {g₁ : GlobalData} {c : Connection} {seen' : Seen} {d : Bool}, Modest c →
      (.ok (g₁, c, seen', d) : Eff _) = .ok (g', conn', seen, destroyed) → Modest conn' := by
    intro g₁ c seen' d hc he
    obtain ⟨-, he⟩ := Prod.mk.inj (Except.ok.inj he)
    rwa [← (Prod.mk.inj he).1]
  unfold handleEvents Mask.reported at h
  rw [hb.tuned.interest] at h
  dsimp only at h
  by_cases ho : o = []
  · subst ho
    rw [List.isEmpty_nil] at hr
    rw [List.isEmpty_nil, Bool.and_true, Bool.not_true, Bool.and_false] at h
    by_cases hready : socket.epollin = true
    · rw [if_pos hready, if_pos hr] at h
      obtain ⟨⟨g₁, conn₁, seen₁⟩, hread, h⟩ := bind_eq_ok.mp h
      exact hend (hm.read hg hb hfits hread) h
    · rw [if_neg hready] at h
      exact hend hm h
  · have he : o.isEmpty = false := by simpa using ho
    rw [he, Bool.not_false] at hw
    rw [he, Bool.and_false, if_neg Bool.false_ne_true, Bool.not_false, Bool.and_true] at h
    rw [pure_eq_ok, ok_bind] at h
    dsimp only at h
    by_cases hready : socket.epollout = true
    · rw [if_pos hready, if_pos hw] at h
      obtain ⟨⟨conn₁, sent⟩, hwrite, h⟩ := bind_eq_ok.mp h
      exact hend (hm.write hb.outgoing hwrite) h
    · rw [if_neg hready] at h
      exact hend hm h

/-! ### The event loop -/

variable {s s' : State} {a : Addr}

def Event.Reads : Event → Prop
  | .ready _ _ _ _ rv _ _ => Fits rv
  | _ => True

/-- The states of the server between events, where every `read` returns no more than it is asked
for. -/
inductive Fed (strtod : Bytes → UInt64 × ℕ) : State → Prop
  | start {s : State} (h : start = .ok s) : Fed strtod s
  | step {s s' : State} {event : Event} {seen : Seen} (h : Fed strtod s)
    (ha : Admissible s event) (hr : Event.Reads event)
    (he : step strtod s event = .ok (s', seen)) : Fed strtod s'

lemma reachable_of_fed (h : Fed strtod s) : EventLoop.Reachable strtod s := by
  induction h with
  | start h => exact .start h
  | step _ ha _ he ih => exact .step ih ha he

lemma connDestroy_conns (h : connDestroy s a = .ok s') :
    s'.conns = Function.update s.conns a none := by
  unfold connDestroy at h
  obtain ⟨conn, -, h⟩ := bind_eq_ok.mp h
  split_ifs at h
  obtain ⟨idle, -, h⟩ := bind_eq_ok.mp h
  rw [← Except.ok.inj h]

lemma handleReady_io {fd : ℕ} {clock : Timespec} {socket : Mask} {clocks : ℕ → Timespec}
    {rv : ReadResult} {wv wv' : WriteResult} {seen : Seen} {c : EventLoop.Conn}
    (hfd : s.fd2conn[fd]?.join = some a) (hc : s.conns a = some c)
    (h : handleReady strtod s fd clock socket clocks rv wv wv' = .ok (s', seen)) :
    ∃ g io destroyed,
      handleEvents strtod s.g clocks c.io (socket.reported c.io.interest) rv wv wv' =
        .ok (g, io, seen, destroyed) ∧ ∀ c', s'.conns a = some c' → c'.io = io := by
  unfold handleReady handleConn at h
  rw [hfd] at h
  simp only [State.deref, hc, pure_eq_ok, ok_bind] at h
  obtain ⟨m₁, -, h⟩ := bind_eq_ok.mp h
  obtain ⟨m₂, -, h⟩ := bind_eq_ok.mp h
  obtain ⟨⟨g₁, io, seen₁, destroyed⟩, he, h⟩ := bind_eq_ok.mp h
  dsimp only at h
  split_ifs at h with hd
  · obtain ⟨s₁, hgone, h⟩ := bind_eq_ok.mp h
    obtain ⟨rfl, rfl⟩ := Prod.mk.inj (Except.ok.inj h)
    refine ⟨g₁, io, destroyed, he, fun c' hc' => ?_⟩
    rw [connDestroy_conns hgone, Function.update_self] at hc'
    cases hc'
  · obtain ⟨rfl, rfl⟩ := Prod.mk.inj (Except.ok.inj h)
    refine ⟨g₁, io, destroyed, he, fun c' hc' => ?_⟩
    dsimp only at hc'
    rw [Function.update_self] at hc'
    rw [← Option.some.inj hc']

lemma modest_accepted : Modest Server.accepted := by
  have hin : Server.accepted.incoming.capacity = 4096 := List.length_replicate
  have hout : Server.accepted.outgoing.capacity = 4096 := List.length_replicate
  refine ⟨?_, fun _ => ?_, fun _ => hin.le, fun _ => ?_, Nat.zero_le _⟩
  · rw [hin]
    unfold heldMost readMost
    omega
  · omega
  · omega

lemma modest_of_fed (h : Fed strtod s) : ∀ a c, s.conns a = some c → Modest c.io := by
  induction h with
  | start h =>
    intro a c hc
    obtain ⟨idle, -, h⟩ := bind_eq_ok.mp h
    obtain rfl := Except.ok.inj h
    cases hc
  | @step s s' event seen hfed ha hr he ih =>
    have hs := sound_of_reachable (reachable_of_fed hfed)
    intro b c' hc'
    cases step_cases hs ha he with
    | accept _ hj =>
      rcases hj.conns b c' hc' with hold | ⟨-, hio⟩
      · exact ih b c' hold
      · rw [hio]
        exact modest_accepted
    | nobody _ => exact ih b c' hc'
    | @peer fd clock socket clocks rv wv wv' a c _ _ u o u' o' done frames hfd hc hb hh _ _ _ =>
      by_cases hba : b = a
      · subst hba
        obtain ⟨σ, hg⟩ := hs.stands
        obtain ⟨g, io, destroyed, hevents, hio⟩ := handleReady_io hfd hc he
        rw [hio c' hc']
        exact (ih b c hc).events hg hb hr hevents
      · rw [hh.others b hba] at hc'
        exact ih b c' hc'
    | timers _ hconns _ =>
      rw [hconns] at hc'
      exact ih b c' (Option.eq_some_of_filter_eq_some hc')

/-- **Bounded buffers.** In every state of the event loop, whatever the peers send and however much
of the responses they take, a connection has less than a frame unread and holds no more memory for
it than twice that and one read, a megabyte where less than 4096 bytes are unread, and a page where
none are; and where no response is unsent it holds a megabyte at most for responses. -/
theorem buffers_bounded (h : Fed strtod s) {c : EventLoop.Conn} (hc : s.conns a = some c) :
    c.io.incoming.readableSize < 4 + maxMsg ∧ Modest c.io := by
  obtain ⟨u, o, hb⟩ := (sound_of_reachable (reachable_of_fed h)).between a c hc
  refine ⟨?_, modest_of_fed h a c hc⟩
  rw [hb.incoming.readableSize]
  exact incomplete_length hb.incomplete

/-- A request and a part of the next one are read, and the response is not sent yet. -/
theorem buffers_bounded_waiting : ∃ (s : State) (c : EventLoop.Conn), s.conns 0 = some c ∧
    (c.io.incoming.readableSize, c.io.outgoing.readableSize) = (3, 5) ∧
      c.io.incoming.readableSize < 4 + maxMsg ∧ Modest c.io := by
  let f : Bytes → UInt64 × ℕ := fun _ => (0, 0)
  let buf : Bytes := pack (RequestSpec.payload [str "get", str "k"]) ++ [9, 0, 0]
  let reads : Event :=
    .ready 5 (second 1) ⟨true, false, false⟩ (fun _ => second 1) (.got buf) .eagain .eagain
  have hall : (do
      let s₀ ← start
      let r₁ ← step f s₀ (joinsAt 5 1)
      let r₂ ← step f r₁.1 reads
      pure ((s₀.opened, s₀.now, r₁.1.now), (r₂.1.conns 0).map fun (c : EventLoop.Conn) =>
        (c.io.incoming.readableSize, c.io.outgoing.readableSize)) : Eff _) =
      .ok (([], 0, 1000), some (3, 5)) := by
    decide +kernel
  obtain ⟨s₀, h₀, hall⟩ := bind_eq_ok.mp hall
  obtain ⟨⟨s₁, x₁⟩, h₁, hall⟩ := bind_eq_ok.mp hall
  obtain ⟨⟨s₂, x₂⟩, h₂, hall⟩ := bind_eq_ok.mp hall
  obtain ⟨hfacts, hsizes⟩ := Prod.mk.inj (Except.ok.inj hall)
  simp only [Prod.mk.injEq] at hfacts
  obtain ⟨ho, hn₀, hn₁⟩ := hfacts
  obtain ⟨c, hc, hsizes⟩ := Option.map_eq_some_iff.mp hsizes
  have hfed : Fed f s₁ :=
    .step (.start h₀) (admissible_joinsAt (by simp [ho]) (by simp [hn₀])) trivial h₁
  have ha : Admissible s₁ reads := hn₁.le
  have hfits : buf.length ≤ readMost := by decide
  exact ⟨s₂, c, hc, hsizes, buffers_bounded (hfed.step ha hfits h₂) hc⟩

end ByoRedis.Footprint
