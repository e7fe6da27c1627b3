import ByoRedis.ResponseSpec

/-!
What the callbacks of a connection do with the bytes that pass through it.

A callback takes whole frames off the bytes received, executes the commands in them, and appends
the frames of their responses to the bytes to send. The layout of the buffers does not matter.
-/

namespace ByoRedis.ConnSpec

open ByoRedis.Basic ByoRedis.ByteBuffer ByoRedis.ByteBufferSpec ByoRedis.Proto ByoRedis.Tlv
open ByoRedis.Database ByoRedis.DatabaseSpec ByoRedis.Commands ByoRedis.KeySpace ByoRedis.Conn
open ByoRedis.ResponseSpec ByoRedis.Lib.Runs ByoRedis.Lib.LittleEndian ByoRedis.Lib.Frames

/-- The response frame of a command as it was executed. -/
def responseOf (strtod : Bytes → UInt64 × ℕ) (x : Executed) : Eff Bytes := do
  let (_, outgoing) ← respond strtod x.g x.clock x.cmd {}
  pure outgoing.unread

/-- A payload that is not too large holds the command executed. -/
def Parses (p : Bytes) (x : Executed) : Prop := p.length ≤ maxMsg ∧ parseReq p = some x.cmd

/-- The bytes have a whole frame at their front that is not a request. -/
def Rejected (u : Bytes) : Prop :=
  ∃ p rest : Bytes, p.length ≤ maxMsg ∧ u = pack p ++ rest ∧ parseReq p = none

/-- The bytes have a header at their front that is too large. -/
def TooLarge (u : Bytes) : Prop := 4 ≤ u.length ∧ maxMsg < header u

variable {strtod : Bytes → UInt64 × ℕ} {g : GlobalData} {σ : Store} {conn : Connection}
  {u o : Bytes}

/-- What `try_process_one_request` does with the bytes `u` received and the bytes `o` to send. -/
inductive Tried (strtod : Bytes → UInt64 × ℕ) (g : GlobalData) (clock : Timespec)
    (conn : Connection) (u o : Bytes) : Eff (GlobalData × Connection × Option Executed) → Prop
  | wait (h : Incomplete maxMsg u) : Tried strtod g clock conn u o (.ok (g, conn, none))
  | die (h : TooLarge u) : Tried strtod g clock conn u o (.error (.die "request too large"))
  | reject (h : Rejected u) :
    Tried strtod g clock conn u o (.ok (g, { conn with wantClose := true }, none))
  | answer {p rest f : Bytes} {cmd : List Bytes} {g' : GlobalData} {σ' : Store}
    {incoming outgoing : Buffer} (hu : u = pack p ++ rest) (hp : Parses p ⟨g, clock, cmd⟩)
    (hg' : Good g' σ') (he : respond strtod g clock cmd conn.outgoing = .ok (g', outgoing))
    (hf : responseOf strtod ⟨g, clock, cmd⟩ = .ok f)
    (hin : Shows incoming rest []) (hout : Shows outgoing (o ++ f) []) :
    Tried strtod g clock conn u o
      (.ok (g', { conn with outgoing := outgoing, incoming := incoming }, some ⟨g, clock, cmd⟩))

/-- **`try_process_one_request`** waits, dies, rejects a frame, or answers the request in it. -/
theorem tryProcess_spec (hg : Good g σ) (strtod : Bytes → UInt64 × ℕ) (clock : Timespec)
    (hin : Shows conn.incoming u []) (hout : Shows conn.outgoing o []) :
    Tried strtod g clock conn u o (tryProcessOneRequest strtod g clock conn) := by
  unfold tryProcessOneRequest
  rw [hin.readableSize, hin.unread]
  dsimp only
  by_cases h4 : u.length < 4
  · rw [if_pos h4]
    exact .wait (.inl h4)
  · rw [if_neg h4]
    have hhead : ofLeBytes (u.take 4) = header u := rfl
    rw [hhead]
    by_cases hbig : maxMsg < header u
    · rw [if_pos hbig]
      exact .die ⟨Nat.le_of_not_lt h4, hbig⟩
    · rw [if_neg hbig]
      by_cases hshort : u.length < 4 + header u
      · rw [if_pos hshort]
        exact .wait (.inr ⟨Nat.le_of_not_lt hbig, hshort⟩)
      · rw [if_neg hshort]
        obtain ⟨hlen, hu⟩ := eq_pack_append (Nat.le_of_not_lt h4) (Nat.le_of_not_lt hshort)
        generalize hp : (u.drop 4).take (header u) = p at hlen hu
        cases hparse : parseReq p with
        | none => exact .reject ⟨p, _, by omega, hu, hparse⟩
        | some cmd =>
          obtain ⟨g', v, σ', hg', -, -, hact⟩ := respond_spec hg strtod clock cmd
          obtain ⟨outgoing, he, hs⟩ := hact _ _ _ hout
          obtain ⟨b, heb, hb⟩ := hact _ _ _ shows_empty
          dsimp only
          rw [he]
          refine .answer hu ⟨by omega, hparse⟩ hg' he ?_ (hin.consume _) hs
          unfold responseOf
          dsimp only
          rw [heb, ok_bind, hb.unread]
          rfl

/-! ### The bytes that pass through -/

/-- Bytes `u` received and `o` to send, after more were received and sent: the frames `done` were
executed and answered with `frames`. -/
structure Flow (strtod : Bytes → UInt64 × ℕ) (u o : Bytes) (seen : Seen) (done frames : List Bytes)
    (u' o' : Bytes) : Prop where
  received : u ++ seen.received = packAll done ++ u'
  parsed : List.Forall₂ Parses done seen.executed
  answered : List.Forall₂ (fun x f => responseOf strtod x = .ok f) seen.executed frames
  sent : o ++ frames.flatten = seen.sent ++ o'

lemma Flow.refl (strtod : Bytes → UInt64 × ℕ) (u o : Bytes) : Flow strtod u o {} [] [] u o :=
  ⟨by simp, .nil, .nil, by simp⟩

lemma Flow.trans {u' o' u'' o'' : Bytes} {a b : Seen} {done done' frames frames' : List Bytes}
    (h : Flow strtod u o a done frames u' o') (h' : Flow strtod u' o' b done' frames' u'' o'') :
    Flow strtod u o (a.append b) (done ++ done') (frames ++ frames') u'' o'' where
  received := by
    unfold Seen.append
    dsimp only
    rw [← List.append_assoc, h.received, List.append_assoc, h'.received, packAll_append,
      List.append_assoc]
  parsed := List.rel_append h.parsed h'.parsed
  answered := List.rel_append h.answered h'.answered
  sent := by
    unfold Seen.append
    dsimp only
    rw [List.flatten_append, ← List.append_assoc, h.sent, List.append_assoc, h'.sent,
      List.append_assoc]

lemma Flow.small {u' o' : Bytes} {seen : Seen} {done frames : List Bytes}
    (h : Flow strtod u o seen done frames u' o') : ∀ p ∈ done, p.length ≤ maxMsg := by
  have := h.parsed
  clear h
  generalize seen.executed = xs at this
  induction this with
  | nil => simp
  | cons hp _ ih => exact List.forall_mem_cons.mpr ⟨hp.1, ih⟩

/-- Where the loop over requests stops: without a whole frame, or at one that is not a request. -/
def Stopped (conn conn' : Connection) (u : Bytes) : Prop :=
  (conn'.wantClose = conn.wantClose ∧ Incomplete maxMsg u) ∨ (conn'.wantClose = true ∧ Rejected u)

/-- What the loop over requests leaves alone. -/
def SameWants (conn conn' : Connection) : Prop :=
  conn'.wantRead = conn.wantRead ∧ conn'.wantWrite = conn.wantWrite ∧
    conn'.interest = conn.interest

/-- **The loop over requests** answers every whole frame, up to one that is not a request, or
dies. -/
theorem processRequests_spec {fuel : ℕ} (hg : Good g σ) (strtod : Bytes → UInt64 × ℕ)
    (clocks : ℕ → Timespec) (conn : Connection) (hin : Shows conn.incoming u [])
    (hout : Shows conn.outgoing o []) (hf : u.length < fuel) :
    (processRequests strtod fuel g clocks conn = .error (.die "request too large") ∧
      ∃ done rest, (∀ p ∈ done, p.length ≤ maxMsg) ∧ u = packAll done ++ rest ∧ TooLarge rest) ∨
    ∃ g' σ' conn' log done frames u',
      processRequests strtod fuel g clocks conn = .ok (g', conn', log) ∧ Good g' σ' ∧
        Flow strtod u o ⟨[], log, []⟩ done frames u' (o ++ frames.flatten) ∧
        Shows conn'.incoming u' [] ∧ Shows conn'.outgoing (o ++ frames.flatten) [] ∧
        Stopped conn conn' u' ∧ SameWants conn conn' := by
  induction fuel generalizing g σ conn u o clocks with
  | zero => omega
  | succ fuel ih =>
    unfold processRequests
    have ht := tryProcess_spec hg strtod (clocks 0) hin hout
    generalize tryProcessOneRequest strtod g (clocks 0) conn = r at ht
    cases ht with
    | wait h =>
      refine .inr ⟨g, σ, conn, [], [], [], u, rfl, hg, ?_, hin, ?_, .inl ⟨rfl, h⟩, rfl, rfl, rfl⟩
      · exact ⟨by simp, .nil, .nil, by simp⟩
      · simpa using hout
    | die h => exact .inl ⟨rfl, [], u, by simp, rfl, h⟩
    | reject h =>
      refine .inr ⟨g, σ, _, [], [], [], u, rfl, hg, ?_, hin, ?_, .inr ⟨rfl, h⟩, rfl, rfl, rfl⟩
      · exact ⟨by simp, .nil, .nil, by simp⟩
      · simpa using hout
    | @answer p rest f cmd g' σ' incoming outgoing hu hp hg' _ hresp hin' hout' =>
      have hlen : rest.length < fuel := by
        have := congrArg List.length hu
        rw [List.length_append, pack_length] at this
        omega
      rw [ok_bind]
      dsimp only
      rcases ih hg' (fun i => clocks (i + 1))
        { conn with outgoing := outgoing, incoming := incoming } hin' hout' hlen with
        ⟨he, done, rest', hd, hrest, hbig⟩ |
        ⟨g₁, σ₁, conn', log, done, frames, u', he, hg₁, hflow, hin₁, hout₁, hstop, hsame⟩
      · refine .inl ⟨by rw [he]; rfl, p :: done, rest', ?_, ?_, hbig⟩
        · exact List.forall_mem_cons.mpr ⟨hp.1, hd⟩
        · rw [hu, hrest, packAll_cons, List.append_assoc]
      · rw [List.append_assoc] at hout₁
        refine .inr ⟨g₁, σ₁, conn', _, p :: done, f :: frames, u', by rw [he]; rfl, hg₁, ?_, hin₁,
          hout₁, hstop, hsame⟩
        refine ⟨?_, .cons hp hflow.parsed, .cons hresp hflow.answered, rfl⟩
        have := hflow.received
        rw [List.append_nil] at this ⊢
        rw [hu, this, packAll_cons, List.append_assoc]

/-! ### Reading and writing -/

/-- The wants of a connection, and what the kernel has registered, go by whether there is something
to send. -/
structure Tuned (conn : Connection) (o : Bytes) : Prop where
  wantRead : conn.wantRead = o.isEmpty
  wantWrite : conn.wantWrite = !o.isEmpty
  interest : conn.interest = ⟨o.isEmpty, !o.isEmpty⟩

lemma isEmpty_of_length {x : Bytes} (h : x.length = 0) : x.isEmpty = true := by
  rw [List.length_eq_zero_iff] at h
  rw [h]
  rfl

lemma isEmpty_of_length_ne {x : Bytes} (h : x.length ≠ 0) : x.isEmpty = false := by
  cases x with
  | nil => exact absurd rfl h
  | cons b x => rfl

/-- **`handle_write`** sends bytes from the front. Its assertion holds. -/
theorem handleWrite_spec (conn : Connection) (hout : Shows conn.outgoing o []) (ho : o ≠ [])
    (hr : conn.wantRead = false) (hw : conn.wantWrite = true) (rv : WriteResult) :
    ∃ conn' sent o', handleWrite conn rv = .ok (conn', sent) ∧ o = sent ++ o' ∧
      Shows conn'.outgoing o' [] ∧ conn'.incoming = conn.incoming ∧
      (rv = .error ∧ conn'.wantClose = true ∨
        rv ≠ .error ∧ conn'.wantClose = conn.wantClose ∧ Tuned conn' o') := by
  have hlen : o.length ≠ 0 := fun h => ho (List.length_eq_zero_iff.mp h)
  unfold handleWrite
  rw [hout.readableSize, if_neg hlen]
  cases rv with
  | eagain =>
    refine ⟨_, [], o, rfl, rfl, hout, rfl, .inr ⟨by simp, rfl, ?_⟩⟩
    have he := isEmpty_of_length_ne hlen
    exact ⟨by rw [he]; exact hr, by rw [he]; exact hw, by simp [epollUpdateInterest, he, hr, hw]⟩
  | error => exact ⟨_, [], o, rfl, rfl, hout, rfl, .inl ⟨rfl, rfl⟩⟩
  | wrote n =>
    have hcons := hout.consume n
    dsimp only
    rw [hout.unread, hcons.readableSize]
    by_cases hall : (o.drop n).length = 0
    · rw [if_pos hall]
      have he := isEmpty_of_length hall
      refine ⟨_, o.take n, o.drop n, rfl, (List.take_append_drop n o).symm, hcons.shrink _, rfl,
        .inr ⟨by simp, rfl, ?_⟩⟩
      exact ⟨by rw [he]; rfl, by rw [he]; rfl, by rw [he]; rfl⟩
    · rw [if_neg hall]
      have he := isEmpty_of_length_ne hall
      refine ⟨_, o.take n, o.drop n, rfl, (List.take_append_drop n o).symm, hcons, rfl,
        .inr ⟨by simp, rfl, ?_⟩⟩
      exact ⟨by rw [he]; exact hr, by rw [he]; exact hw, by simp [epollUpdateInterest, he, hr, hw]⟩

lemma shows_shrinkIncoming {b : Buffer} (h : Shows b u []) : Shows (shrinkIncoming b) u [] := by
  unfold shrinkIncoming
  dsimp only
  split_ifs
  · exact h.shrink _
  · exact h.shrink _
  · exact h

/-- A connection between events. -/
structure Between (conn : Connection) (u o : Bytes) : Prop where
  isOpen : conn.wantClose = false
  incoming : Shows conn.incoming u []
  outgoing : Shows conn.outgoing o []
  tuned : Tuned conn o
  incomplete : Incomplete maxMsg u

/-- The bytes of a connection are told by its buffers. -/
lemma Between.unique {u' o' : Bytes} (h : Between conn u o) (h' : Between conn u' o') :
    u = u' ∧ o = o' :=
  ⟨h.incoming.unread.symm.trans h'.incoming.unread, h.outgoing.unread.symm.trans h'.outgoing.unread⟩

/-- Why a connection may be closed: a frame that is not a request, or a failure of the socket. -/
def Cause (u : Bytes) (rv : ReadResult) (wv : WriteResult) : Prop :=
  Rejected u ∨ rv = .error ∨ rv = .got [] ∨ wv = .error

/-- What callbacks leave: a connection between events, or one to be closed. -/
inductive Left (conn : Connection) (u o : Bytes) (why : Prop) : Prop
  | between (h : Between conn u o)
  | closing (h : conn.wantClose = true) (hin : Shows conn.incoming u [])
    (hout : Shows conn.outgoing o []) (hwhy : why)

/-- The bytes received are those that `read` gave, or none. -/
def Took (rv : ReadResult) (seen : Seen) : Prop := seen.received = [] ∨ rv = .got seen.received

/-- The bytes received bring the process down. -/
def Fatal (u : Bytes) (rv : ReadResult) : Prop :=
  ∃ (buf rest : Bytes) (done : List Bytes), rv = .got buf ∧ (∀ p ∈ done, p.length ≤ maxMsg) ∧
    u ++ buf = packAll done ++ rest ∧ TooLarge rest

/-- The end of `handle_read`: the answers are sent, if there are any, and the connection is left
between events or to be closed. -/
lemma answers_sent (conn : Connection) {a buf : Bytes} {log : List Executed} {rv : ReadResult}
    (hin : Shows conn.incoming u []) (hout : Shows conn.outgoing a [])
    (hr : conn.wantRead = true) (hw : conn.wantWrite = false)
    (hstop : conn.wantClose = false ∧ Incomplete maxMsg u ∨ conn.wantClose = true ∧ Rejected u)
    (wv : WriteResult) :
    ∃ conn' sent o', a = sent ++ o' ∧ Left conn' u o' (Cause u rv wv) ∧
      (do
        if 0 < conn.outgoing.readableSize then do
          let (conn, sent) ← handleWrite { conn with wantRead := false, wantWrite := true } wv
          pure (g, conn, ⟨buf, log, sent⟩)
        else pure (g, epollUpdateInterest conn, ⟨buf, log, []⟩)) =
          (.ok (g, conn', ⟨buf, log, sent⟩) : Eff (GlobalData × Connection × Seen)) := by
  rw [hout.readableSize]
  by_cases hsome : 0 < a.length
  · rw [if_pos hsome]
    obtain ⟨conn', sent, o', hwrite, ho, hout', hkeep, hend⟩ := handleWrite_spec
      { conn with wantRead := false, wantWrite := true } hout (List.ne_nil_of_length_pos hsome)
      rfl rfl wv
    refine ⟨conn', sent, o', ho, ?_, by rw [hwrite]; rfl⟩
    have hin' : Shows conn'.incoming u [] := by rwa [hkeep]
    rcases hend with ⟨rfl, hclose⟩ | ⟨-, hsame, htuned⟩
    · exact .closing hclose hin' hout' (.inr (.inr (.inr rfl)))
    · rcases hstop with ⟨hopen, hinc⟩ | ⟨hclose, hrej⟩
      · exact .between ⟨hsame.trans hopen, hin', hout', htuned, hinc⟩
      · exact .closing (hsame.trans hclose) hin' hout' (.inl hrej)
  · rw [if_neg hsome]
    obtain rfl : a = [] := List.length_eq_zero_iff.mp (by omega)
    refine ⟨_, [], [], rfl, ?_, rfl⟩
    rcases hstop with ⟨hopen, hinc⟩ | ⟨hclose, hrej⟩
    · exact .between ⟨hopen, hin, hout, ⟨hr, hw, by simp [epollUpdateInterest, hr, hw]⟩, hinc⟩
    · exact .closing hclose hin hout (.inl hrej)

/-- **`handle_read`** takes bytes in and answers the whole frames in them. -/
theorem handleRead_spec (hg : Good g σ) (strtod : Bytes → UInt64 × ℕ) (clocks : ℕ → Timespec)
    (hb : Between conn u []) (rv : ReadResult) (wv : WriteResult) :
    (handleRead strtod g clocks conn rv wv = .error (.die "request too large") ∧ Fatal u rv) ∨
    ∃ g' σ' conn' seen done frames u' o',
      handleRead strtod g clocks conn rv wv = .ok (g', conn', seen) ∧ Good g' σ' ∧
        Flow strtod u [] seen done frames u' o' ∧ Took rv seen ∧
        Left conn' u' o' (Cause u' rv wv) := by
  cases rv with
  | eagain =>
    exact .inr ⟨g, σ, conn, {}, [], [], u, [], rfl, hg, .refl strtod u [], .inl rfl,
      .between hb⟩
  | error =>
    exact .inr ⟨g, σ, _, {}, [], [], u, [], rfl, hg, .refl strtod u [], .inl rfl,
      .closing rfl hb.incoming hb.outgoing (.inr (.inl rfl))⟩
  | got buf =>
    cases buf with
    | nil =>
      exact .inr ⟨g, σ, _, {}, [], [], u, [], rfl, hg, .refl strtod u [], .inl rfl,
        .closing rfl hb.incoming hb.outgoing (.inr (.inr (.inl rfl)))⟩
    | cons b bs =>
      have hin := hb.incoming.append (b :: bs)
      unfold handleRead
      dsimp only
      rw [hin.readableSize]
      rcases processRequests_spec hg strtod clocks
        { conn with incoming := append conn.incoming (b :: bs) } hin hb.outgoing
        (Nat.lt_succ_self _) with
        ⟨he, done, rest, hd, hu, hbig⟩ |
        ⟨g', σ', conn₁, log, done, frames, u', he, hg', hflow, hin₁, hout₁, hstop, hr, hw, hi⟩
      · exact .inl ⟨by rw [he]; rfl, _, rest, done, rfl, hd, hu, hbig⟩
      · rw [he, ok_bind]
        rw [List.nil_append] at hout₁
        have hreceived : u ++ b :: bs = packAll done ++ u' := by
          rw [← hflow.received, List.append_nil]
        have hstop' := hstop.imp_left fun h => And.intro (h.1.trans hb.isOpen) h.2
        obtain ⟨conn₂, sent, o', ho, hleft, hsent⟩ := answers_sent
          { conn₁ with incoming := shrinkIncoming conn₁.incoming } (shows_shrinkIncoming hin₁)
          hout₁ (hr.trans hb.tuned.wantRead) (hw.trans hb.tuned.wantWrite) hstop' wv
        exact .inr ⟨g', σ', conn₂, ⟨b :: bs, log, sent⟩, done, frames, u', o', hsent, hg',
          ⟨hreceived, hflow.parsed, hflow.answered, ho⟩, .inr rfl, hleft⟩

/-- **One event of a socket**, reported as it is registered. The assertions hold. -/
theorem handleEvents_spec (hg : Good g σ) (strtod : Bytes → UInt64 × ℕ) (clocks : ℕ → Timespec)
    (hb : Between conn u o) (socket : Mask) (rv : ReadResult) (wv wv' : WriteResult) :
    (handleEvents strtod g clocks conn (socket.reported conn.interest) rv wv wv' =
      .error (.die "request too large") ∧ Fatal u rv) ∨
    ∃ g' σ' conn' seen done frames u' o',
      handleEvents strtod g clocks conn (socket.reported conn.interest) rv wv wv' =
        .ok (g', conn', seen, socket.epollerr || conn'.wantClose) ∧ Good g' σ' ∧
        Flow strtod u o seen done frames u' o' ∧ Took rv seen ∧
        Left conn' u' o' (Cause u' rv wv ∨ wv' = .error) := by
  have hi := hb.tuned.interest
  unfold handleEvents Mask.reported
  rw [hi]
  dsimp only
  by_cases ho : o = []
  · subst ho
    have hr : conn.wantRead = true := hb.tuned.wantRead
    by_cases hready : socket.epollin = true
    · rcases handleRead_spec hg strtod clocks hb rv wv with ⟨he, hfatal⟩ |
        ⟨g', σ', conn', seen, done, frames, u', o', he, hg', hflow, htook, hleft⟩
      · exact .inl ⟨by simp [hready, hr, he], hfatal⟩
      · refine .inr ⟨g', σ', conn', seen.append ⟨[], [], []⟩, done ++ [], frames ++ [], u', o', ?_,
          hg', hflow.trans (.refl strtod u' o'), ?_, ?_⟩
        · simp [hready, hr, he]
        · unfold Took Seen.append at *
          rwa [List.append_nil]
        · cases hleft with
          | between h => exact .between h
          | closing h hin hout hwhy => exact .closing h hin hout (.inl hwhy)
    · refine .inr ⟨g, σ, conn, {}, [], [], u, [], ?_, hg, .refl strtod u [], .inl rfl,
        .between hb⟩
      simp [hready, Seen.append]
  · have he : o.isEmpty = false := by simpa using ho
    have hr : conn.wantRead = false := hb.tuned.wantRead.trans he
    have hw : conn.wantWrite = true := by rw [hb.tuned.wantWrite, he]; rfl
    by_cases hready : socket.epollout = true
    · obtain ⟨conn', sent, o', hwrite, hsplit, hout, hkeep, hend⟩ :=
        handleWrite_spec conn hb.outgoing ho hr hw wv'
      refine .inr ⟨g, σ, conn', ({} : Seen).append ⟨[], [], sent⟩, [], [], u, o', ?_, hg,
        ⟨by simp [Seen.append], .nil, .nil, by simpa [Seen.append] using hsplit⟩, .inl rfl, ?_⟩
      · simp [he, hready, hw, hwrite]
      · have hin : Shows conn'.incoming u [] := by
          rw [hkeep]
          exact hb.incoming
        rcases hend with ⟨hfail, hclose⟩ | ⟨-, hsame, htuned⟩
        · exact .closing hclose hin hout (.inr hfail)
        · exact .between ⟨hsame.trans hb.isOpen, hin, hout, htuned, hb.incomplete⟩
    · refine .inr ⟨g, σ, conn, {}, [], [], u, o, ?_, hg, .refl strtod u o, .inl rfl,
        .between hb⟩
      simp [he, hready, Seen.append]

end ByoRedis.ConnSpec
