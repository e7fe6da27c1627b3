import ByoRedis.Server
import ByoRedis.StoreRuns

/-!
One connection and the stream of its peer.

The peer's bytes arrive in chunks of any size and responses leave in writes of any size, among
the commands of other connections and rounds of timers. What is executed and sent goes by the
bytes of the stream alone.
-/

namespace ByoRedis.Stream

open ByoRedis.Basic ByoRedis.ByteBuffer ByoRedis.ByteBufferSpec ByoRedis.Proto ByoRedis.Database
open ByoRedis.DatabaseSpec ByoRedis.KeySpace ByoRedis.Conn ByoRedis.ConnSpec ByoRedis.Server
open ByoRedis.StoreRuns ByoRedis.Lib.Runs ByoRedis.Lib.Frames

/-- A connection of a server, and the bytes of its peer that it has not read. -/
structure Link where
  g : GlobalData
  conn : Connection := accepted
  closed : Bool := false
  inbox : Bytes

/-- What can happen next. A chunk or a write of no size is `EAGAIN`. -/
inductive Turn
  | io (readable writable : Bool) (clocks : ℕ → Timespec) (chunk wrote wrote' : Option ℕ)
  | other (op : Op)

/-- What `read` returns, at most 64 KiB of what there is. -/
def readResult (inbox : Bytes) : Option ℕ → ReadResult
  | none => .eagain
  | some n => if inbox.take (min n (64 * 1024)) = [] then .eagain
    else .got (inbox.take (min n (64 * 1024)))

def writeResult : Option ℕ → WriteResult
  | none => .eagain
  | some n => .wrote n

/-- The event loop for this connection, while it is open, and what others do to the store. -/
def turn (strtod : Bytes → UInt64 × ℕ) (l : Link) : Turn → Eff (Link × Seen)
  | .io readable writable clocks chunk wrote wrote' =>
    if l.closed then pure (l, {})
    else do
      let socket : Mask := ⟨readable, writable, false⟩
      let (g, conn, seen, destroyed) ← handleEvents strtod l.g clocks l.conn
        (socket.reported l.conn.interest) (readResult l.inbox chunk) (writeResult wrote)
        (writeResult wrote')
      pure (⟨g, conn, destroyed, l.inbox.drop seen.received.length⟩, seen)
  | .other op => do
    let (g, _) ← serve strtod l.g op
    pure ({ l with g := g }, {})

def total (seen : List Seen) : Seen := seen.foldr Seen.append {}

/-! ### What the bytes of a stream say -/

/-- The commands of the well-formed frames within the first `n` bytes, up to one that is not. -/
def served : List Bytes → ℕ → List (List Bytes)
  | [], _ => []
  | p :: ps, n =>
    if n < 4 + p.length then []
    else
      match parseReq p with
      | none => []
      | some cmd => cmd :: served ps (n - (4 + p.length))

/-- There is a frame within the first `n` bytes that is not a request. -/
def refused : List Bytes → ℕ → Bool
  | [], _ => false
  | p :: ps, n =>
    if n < 4 + p.length then false
    else
      match parseReq p with
      | none => true
      | some _ => refused ps (n - (4 + p.length))

lemma served_append {done : List Bytes} {xs : List Executed} (h : List.Forall₂ Parses done xs)
    (qs : List Bytes) (n : ℕ) :
    served (done ++ qs) ((packAll done).length + n) = xs.map Executed.cmd ++ served qs n ∧
      refused (done ++ qs) ((packAll done).length + n) = refused qs n := by
  induction h with
  | nil => simp
  | @cons p x ps xs hp _ ih =>
    have hlen : ¬ (packAll (p :: ps)).length + n < 4 + p.length := by
      rw [packAll_cons, List.length_append, pack_length]
      omega
    have hrest : (packAll (p :: ps)).length + n - (4 + p.length) = (packAll ps).length + n := by
      rw [packAll_cons, List.length_append, pack_length]
      omega
    simp only [List.cons_append, served, refused, if_neg hlen, hp.2, hrest, ih, List.map_cons,
      and_self]

/-- Nothing is served of a stream whose first frame is not whole. -/
lemma served_incomplete {qs : List Bytes} (hq : ∀ q ∈ qs, q.length ≤ maxMsg) {u v : Bytes}
    (h : Incomplete maxMsg u) (he : u ++ v = packAll qs) :
    served qs u.length = [] ∧ refused qs u.length = false := by
  cases qs with
  | nil => exact ⟨rfl, rfl⟩
  | cons q qs =>
    have hle := hq q List.mem_cons_self
    have hlt : u.length < 4 + q.length := by
      refine h.lt ?_ he
      exact Nat.lt_of_le_of_lt hle (by decide)
    simp only [served, refused, if_pos hlt, and_self]

/-- A stream whose first frame is not a request is refused there. -/
lemma served_rejected {qs : List Bytes} (hq : ∀ q ∈ qs, q.length ≤ maxMsg) {u v : Bytes}
    (h : Rejected u) (he : u ++ v = packAll qs) {n : ℕ} (hn : u.length ≤ n) :
    served qs n = [] ∧ refused qs n = true := by
  obtain ⟨p, rest, hp, rfl, hparse⟩ := h
  cases qs with
  | nil =>
    have := congrArg List.length he
    simp only [List.length_append, pack_length, packAll_nil, List.length_nil] at this
    omega
  | cons q qs =>
    rw [packAll_cons, List.append_assoc] at he
    obtain ⟨rfl, -⟩ := pack_inj (Nat.lt_of_le_of_lt hp (by decide))
      (Nat.lt_of_le_of_lt (hq q List.mem_cons_self) (by decide)) he
    rw [List.length_append, pack_length] at hn
    have hlen : ¬ n < 4 + p.length := by omega
    simp only [served, refused, if_neg hlen, hparse, and_self]

/-! ### Turns -/

/-- What holds between turns: the payloads `qs` are still to be executed, of which the bytes `u`
were received, and the bytes `o` are still to be sent. -/
structure Linked (l : Link) (qs : List Bytes) (u o : Bytes) : Prop where
  stands : ∃ σ, Good l.g σ
  small : ∀ q ∈ qs, q.length ≤ maxMsg
  left : u ++ l.inbox = packAll qs
  outgoing : Shows l.conn.outgoing o []
  going : l.closed = false ∧ Between l.conn u o ∨
    l.closed = true ∧ l.conn.wantClose = true ∧ Rejected u

/-- What one or more turns do. -/
structure Turned (strtod : Bytes → UInt64 × ℕ) (l : Link) (qs : List Bytes) (u o : Bytes)
    (l' : Link) (seen : Seen) (qs' done frames : List Bytes) (u' o' : Bytes) : Prop where
  flow : Flow strtod u o seen done frames u' o'
  payloads : qs = done ++ qs'
  inbox : seen.received ++ l'.inbox = l.inbox
  linked : Linked l' qs' u' o'

variable {strtod : Bytes → UInt64 × ℕ} {l : Link} {qs : List Bytes} {u o : Bytes}

lemma Linked.same (h : Linked l qs u o) : Turned strtod l qs u o l {} qs [] [] u o :=
  ⟨.refl strtod u o, rfl, rfl, h⟩

lemma took_front {inbox : Bytes} {chunk : Option ℕ} {seen : Seen}
    (h : Took (readResult inbox chunk) seen) :
    seen.received ++ inbox.drop seen.received.length = inbox := by
  rcases h with h | h
  · rw [h]
    rfl
  · cases chunk with
    | none => cases h
    | some n =>
      unfold readResult at h
      dsimp only at h
      split_ifs at h
      rw [← ReadResult.got.inj h]
      exact List.prefix_iff_eq_append.mp (List.take_prefix _ inbox)

lemma not_tooLarge {rest more : Bytes} (hq : ∀ q ∈ qs, q.length ≤ maxMsg)
    (he : rest ++ more = packAll qs) : ¬ TooLarge rest := by
  rintro ⟨h4, hbig⟩
  cases qs with
  | nil =>
    have := congrArg List.length he
    rw [List.length_append, packAll_nil, List.length_nil] at this
    omega
  | cons r rs =>
    have hr := hq r List.mem_cons_self
    rw [← header_append h4, he, packAll_cons,
      header_pack (Nat.lt_of_le_of_lt hr (by decide))] at hbig
    omega

lemma not_fatal_got {buf more : Bytes} (hq : ∀ q ∈ qs, q.length ≤ maxMsg)
    (he : u ++ (buf ++ more) = packAll qs) : ¬ Fatal u (.got buf) := by
  rintro ⟨buf', rest, done, hbuf, hd, hu, hbig⟩
  obtain rfl := ReadResult.got.inj hbuf
  rw [← List.append_assoc, hu, List.append_assoc] at he
  obtain ⟨rs, rfl, hrest⟩ := packAll_front
    (fun p hp => Nat.lt_of_le_of_lt (hd p hp) (by decide))
    (fun q hq' => Nat.lt_of_le_of_lt (hq q hq') (by decide)) he
  exact not_tooLarge (fun q hq' => hq q (List.mem_append_right _ hq')) hrest hbig

lemma not_fatal {inbox : Bytes} {chunk : Option ℕ} (hq : ∀ q ∈ qs, q.length ≤ maxMsg)
    (he : u ++ inbox = packAll qs) : ¬ Fatal u (readResult inbox chunk) := by
  intro hfatal
  obtain ⟨buf, -, -, hbuf, -⟩ := id hfatal
  have htook : Took (readResult inbox chunk) ⟨buf, [], []⟩ := .inr hbuf
  have hfront : buf ++ inbox.drop buf.length = inbox := took_front htook
  rw [← hfront] at he
  rw [hbuf] at hfatal
  exact not_fatal_got hq he hfatal

lemma rejected_of_cause {inbox : Bytes} {chunk wrote wrote' : Option ℕ}
    (h : Cause u (readResult inbox chunk) (writeResult wrote) ∨ writeResult wrote' = .error) :
    Rejected u := by
  have hw : ∀ w, writeResult w ≠ .error := by
    intro w hw
    cases w <;> cases hw
  rcases h with (h | h | h | h) | h
  · exact h
  · unfold readResult at h
    split at h
    · cases h
    · split_ifs at h
  · unfold readResult at h
    split at h
    · cases h
    · split_ifs at h with hnil
      exact absurd (ReadResult.got.inj h) hnil
  · exact absurd h (hw _)
  · exact absurd h (hw _)

/-- **One turn** succeeds, and executes the next whole frames of the stream. -/
theorem turn_spec (h : Linked l qs u o) (strtod : Bytes → UInt64 × ℕ) (t : Turn) :
    ∃ l' seen qs' done frames u' o', turn strtod l t = .ok (l', seen) ∧
      Turned strtod l qs u o l' seen qs' done frames u' o' := by
  obtain ⟨σ, hg⟩ := h.stands
  cases t with
  | other op =>
    obtain ⟨g', out, σ', he, hg'⟩ := serve_good hg strtod op
    refine ⟨{ l with g := g' }, {}, qs, [], [], u, o, ?_, .refl strtod u o, rfl, rfl, ?_⟩
    · simp only [turn, he, ok_bind, pure_eq_ok]
    · exact ⟨⟨σ', hg'⟩, h.small, h.left, h.outgoing, h.going⟩
  | io readable writable clocks chunk wrote wrote' =>
    rcases h.going with ⟨hopen, hb⟩ | ⟨hclosed, hrej⟩
    · rcases handleEvents_spec hg strtod clocks hb ⟨readable, writable, false⟩
        (readResult l.inbox chunk) (writeResult wrote) (writeResult wrote') with
        ⟨-, hfatal⟩ | ⟨g', σ', conn', seen, done, frames, u', o', he, hg', hflow, htook, hleft⟩
      · exact absurd hfatal (not_fatal h.small h.left)
      · have hfront := took_front htook
        have hsplit : packAll done ++ (u' ++ l.inbox.drop seen.received.length) = packAll qs := by
          rw [← h.left, ← List.append_assoc, ← hflow.received, List.append_assoc, hfront]
        obtain ⟨qs', rfl, hleft'⟩ := packAll_front
          (fun p hp => Nat.lt_of_le_of_lt (hflow.small p hp) (by decide))
          (fun q hq => Nat.lt_of_le_of_lt (h.small q hq) (by decide)) hsplit
        refine ⟨⟨g', conn', false || conn'.wantClose, l.inbox.drop seen.received.length⟩, seen, qs',
          done, frames, u', o', ?_, hflow, rfl, hfront, ⟨σ', hg'⟩,
          fun q hq => h.small q (List.mem_append_right _ hq), hleft', ?_, ?_⟩
        · simp only [turn, hopen, Bool.false_eq_true, if_false, he, ok_bind, pure_eq_ok]
        · cases hleft with
          | between hb' => exact hb'.outgoing
          | closing _ _ hout _ => exact hout
        · cases hleft with
          | between hb' => exact .inl ⟨hb'.isOpen, hb'⟩
          | closing hclose _ _ hwhy => exact .inr ⟨hclose, hclose, rejected_of_cause hwhy⟩
    · exact ⟨l, {}, qs, [], [], u, o, by simp only [turn, hclosed, if_true, pure_eq_ok], h.same⟩

lemma run_turns (strtod : Bytes → UInt64 × ℕ) (turns : List Turn) (h : Linked l qs u o) :
    ∃ l' seen qs' done frames u' o', run (turn strtod) l turns = .ok (l', seen) ∧
      Turned strtod l qs u o l' (total seen) qs' done frames u' o' := by
  induction turns generalizing l qs u o with
  | nil => exact ⟨l, [], qs, [], [], u, o, rfl, h.same⟩
  | cons t turns ih =>
    obtain ⟨l₁, a, qs₁, done₁, frames₁, u₁, o₁, he₁, h₁⟩ := turn_spec h strtod t
    obtain ⟨l₂, seen, qs₂, done₂, frames₂, u₂, o₂, he₂, h₂⟩ := ih h₁.linked
    refine ⟨l₂, a :: seen, qs₂, done₁ ++ done₂, frames₁ ++ frames₂, u₂, o₂, ?_,
      h₁.flow.trans h₂.flow, ?_, ?_, h₂.linked⟩
    · rw [run_cons he₁, he₂]
    · rw [h₁.payloads, h₂.payloads, List.append_assoc]
    · rw [← h₁.inbox, ← h₂.inbox]
      exact List.append_assoc ..

/-! ### The whole stream -/

def start (g : GlobalData) (payloads : List Bytes) : Link := { g := g, inbox := packAll payloads }

/-- What a schedule comes to: the commands executed, the bytes sent or still to send, and whether
the connection is closed are told by the stream and by how much of it was received. Once all of it
was received, or the connection is closed, they are told by the stream alone. -/
structure Reassembled (strtod : Bytes → UInt64 × ℕ) (payloads : List Bytes) (l : Link)
    (seen : Seen) : Prop where
  received : seen.received ++ l.inbox = packAll payloads
  executed : seen.executed.map Executed.cmd = served payloads seen.received.length
  closes : l.conn.wantClose = refused payloads seen.received.length
  sent : ∃ frames, List.Forall₂ (fun x f => responseOf strtod x = .ok f) seen.executed frames ∧
    seen.sent ++ l.conn.outgoing.unread = frames.flatten
  final : l.inbox = [] ∨ l.conn.wantClose = true →
    seen.executed.map Executed.cmd = served payloads (packAll payloads).length ∧
      l.conn.wantClose = refused payloads (packAll payloads).length

lemma linked_start {g : GlobalData} {σ : Store} (hg : Good g σ) {payloads : List Bytes}
    (hsmall : ∀ p ∈ payloads, p.length ≤ maxMsg) : Linked (start g payloads) payloads [] [] where
  stands := ⟨σ, hg⟩
  small := hsmall
  left := rfl
  outgoing := shows_empty
  going := .inl ⟨rfl, between_accepted⟩

/-- **Reassembly does not depend on segmentation.** -/
theorem reassembles (strtod : Bytes → UInt64 × ℕ) {g : GlobalData} {σ : Store} (hg : Good g σ)
    {payloads : List Bytes} (hsmall : ∀ p ∈ payloads, p.length ≤ maxMsg) (turns : List Turn) :
    ∃ l seen, run (turn strtod) (start g payloads) turns = .ok (l, seen) ∧
      Reassembled strtod payloads l (total seen) := by
  obtain ⟨l, seen, qs, done, frames, u, o, he, hflow, hpay, hinbox, hl⟩ :=
    run_turns strtod turns (linked_start hg hsmall)
  refine ⟨l, seen, he, ?_⟩
  generalize total seen = all at hflow hinbox ⊢
  have hreceived : all.received = packAll done ++ u := hflow.received
  have hlen : all.received.length = (packAll done).length + u.length := by
    rw [hreceived, List.length_append]
  have hall : (packAll payloads).length =
      (packAll done).length + (u.length + l.inbox.length) := by
    rw [hpay, packAll_append, List.length_append, ← hl.left, List.length_append]
  have happ := served_append hflow.parsed qs
  -- what the rest of the stream gives, received so far or whole
  have hrest : served qs u.length = [] ∧ refused qs u.length = l.conn.wantClose ∧
      (l.conn.wantClose = true → served qs (u.length + l.inbox.length) = [] ∧
        refused qs (u.length + l.inbox.length) = true) := by
    rcases hl.going with ⟨-, hb⟩ | ⟨-, hclose, hrej⟩
    · obtain ⟨h1, h2⟩ := served_incomplete hl.small hb.incomplete hl.left
      rw [hb.isOpen]
      exact ⟨h1, h2, fun h => by simp at h⟩
    · obtain ⟨h1, h2⟩ := served_rejected hl.small hrej hl.left (Nat.le_refl u.length)
      rw [hclose]
      exact ⟨h1, h2, fun _ => served_rejected hl.small hrej hl.left (Nat.le_add_right ..)⟩
  refine ⟨hinbox, ?_, ?_, ⟨frames, hflow.answered, ?_⟩, fun hend => ?_⟩
  · rw [hlen, hpay, (happ u.length).1, hrest.1, List.append_nil]
  · rw [hlen, hpay, (happ u.length).2, hrest.2.1]
  · rw [hl.outgoing.unread, ← hflow.sent, List.nil_append]
  · rw [hall, hpay, (happ _).1, (happ _).2]
    rcases hend with hnil | hclose
    · rw [hnil, List.length_nil, Nat.add_zero, hrest.1, hrest.2.1, List.append_nil]
      exact ⟨rfl, rfl⟩
    · obtain ⟨h1, h2⟩ := hrest.2.2 hclose
      rw [h1, h2, List.append_nil]
      exact ⟨rfl, hclose⟩

/-- Two requests on the empty server, the first cut within its header. -/
theorem reassembles_get :
    let payload : Bytes := [1, 0, 0, 0, 4, 0, 0, 0, 107, 101, 121, 115]
    let clocks : ℕ → Timespec := fun _ => ⟨1, 0, by decide, by decide⟩
    ∃ l seen, run (turn fun _ => (0, 0)) (start {} [payload, payload])
      [.io true false clocks (some 3) none none, .io true false clocks none none none,
        .io true false clocks (some 50) (some 2) none,
        .io false true clocks none none (some 9)] = .ok (l, seen) ∧
      Reassembled (fun _ => (0, 0)) [payload, payload] l (total seen) := by
  intro payload clocks
  have hsmall : ∀ p ∈ [payload, payload], p.length ≤ maxMsg := by decide
  exact reassembles (fun _ => (0, 0)) good_empty hsmall _

end ByoRedis.Stream
