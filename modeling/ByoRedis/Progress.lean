import ByoRedis.Lib.Liveness
import ByoRedis.Network
import ByoRedis.Stream

/-!
The clients come to the end of their scripts.

What is left to do for a client is a measure that no step of the system raises, and while its
connection is there, the client or the server can do some of it. So nobody waits for the other for
ever, and a client whose turns are not put off for ever is served to its end.
-/

namespace ByoRedis.Progress

open ByoRedis.Basic ByoRedis.Proto ByoRedis.Tlv ByoRedis.Database ByoRedis.Conn ByoRedis.ConnSpec
open ByoRedis.KeySpace ByoRedis.StoreRuns
open ByoRedis.EventLoop ByoRedis.Registry ByoRedis.LoopRuns ByoRedis.History ByoRedis.Client
open ByoRedis.ClientSpec ByoRedis.RequestSpec ByoRedis.ResponseSpec ByoRedis.Session
open ByoRedis.Network ByoRedis.Lib.Runs ByoRedis.Lib.Frames ByoRedis.Lib.LittleEndian
open ByoRedis.Lib.Labels ByoRedis.Lib.Liveness

/-! ### What is left to do -/

/-- The commands to come, and how far the client is with this one. -/
def rank (c : Process) : ℕ :=
  match c.phase with
  | .head => 2 * c.todo.length + 1
  | .stopped _ => 0
  | _ => 2 * c.todo.length + 2

/-- How much of a request is left to write. -/
def unwritten (c : Process) : ℕ :=
  match c.phase with
  | .writing left => left.length
  | _ => 0

def unsent (s : State) (a : Addr) : Bytes :=
  match s.conns a with
  | none => []
  | some c => c.io.outgoing.unread

/-- What is left to do for a client: commands first, then bytes on their way to the server, and then
bytes on their way back. A byte counts twice before it is on its way. -/
def work (net : Net) (a : Addr) : ℕ ×ₗ ℕ ×ₗ ℕ :=
  toLex (rank (net.peers a).client,
    toLex (2 * unwritten (net.peers a).client + (net.peers a).up.length,
      2 * (unsent net.server a).length + (net.peers a).down.length))

variable {strtod : Bytes → UInt64 × ℕ} {scripts : Addr → List (List Bytes)} {net net' : Net}
  {a b : Addr} {c c' : Process} {d : Moved} {r : Returns}

lemma work_lt_of_rank (h : rank (net'.peers a).client < rank (net.peers a).client) :
    work net' a < work net a := Prod.Lex.toLex_lt_toLex.mpr (.inl h)

lemma work_lt_of_up (h : rank (net'.peers a).client = rank (net.peers a).client)
    (hup : 2 * unwritten (net'.peers a).client + (net'.peers a).up.length <
      2 * unwritten (net.peers a).client + (net.peers a).up.length) :
    work net' a < work net a :=
  Prod.Lex.toLex_lt_toLex.mpr (.inr ⟨h, Prod.Lex.toLex_lt_toLex.mpr (.inl hup)⟩)

lemma work_lt_of_down (h : rank (net'.peers a).client = rank (net.peers a).client)
    (hup : 2 * unwritten (net'.peers a).client + (net'.peers a).up.length =
      2 * unwritten (net.peers a).client + (net.peers a).up.length)
    (hdown : 2 * (unsent net'.server a).length + (net'.peers a).down.length <
      2 * (unsent net.server a).length + (net.peers a).down.length) :
    work net' a < work net a :=
  Prod.Lex.toLex_lt_toLex.mpr (.inr ⟨h, Prod.Lex.toLex_lt_toLex.mpr (.inr ⟨hup, hdown⟩)⟩)

/-- Nothing happened to the client and its connection, which is maybe gone. -/
structure Same (net net' : Net) (a : Addr) : Prop where
  peers : net'.peers a = net.peers a
  unsent : unsent net'.server a = unsent net.server a ∨ net'.server.conns a = none

lemma Same.work_le (h : Same net net' a) : work net' a ≤ work net a := by
  unfold work
  rw [h.peers, Prod.Lex.toLex_le_toLex]
  refine .inr ⟨rfl, Prod.Lex.toLex_le_toLex.mpr ?_⟩
  rcases h.unsent with heq | hnone
  · rw [heq]
    exact .inr ⟨rfl, le_refl _⟩
  · have hnil : Progress.unsent net'.server a = [] := by
      unfold Progress.unsent
      rw [hnone]
    rw [hnil]
    refine .inr ⟨rfl, ?_⟩
    dsimp only [List.length_nil]
    omega

/-! ### A step of the client -/

/-- What a step of the client does for it. -/
inductive Advanced (c c' : Process) (d : Moved) : Prop
  | stopped {err : ℤ} (h : c.phase = .stopped err) (hc : c' = c) (hd : d = {})
  | next (h : rank c' < rank c)
  | wrote (hrank : rank c' = rank c) (hleft : unwritten c = unwritten c' + d.written.length)
    (hd : 0 < d.written.length)
  | read (hrank : rank c' = rank c) (hleft : unwritten c' = unwritten c) (hw : d.written = [])
    (hd : 0 < d.read.length)

lemma rank_stop {err : ℤ} (hne : ∀ e, c.phase ≠ .stopped e) : rank (c.stop err) < rank c := by
  have hzero : rank (c.stop err) = 0 := rfl
  rw [hzero]
  unfold rank
  cases hp : c.phase with
  | stopped e => exact absurd hp (hne e)
  | _ => exact Nat.succ_pos _

lemma rank_print {data : Bytes} (h : c.print data = .ok c') :
    rank c' < 2 * c.todo.length + 2 := by
  unfold Process.print at h
  obtain ⟨⟨rv, out⟩, -, h⟩ := bind_eq_ok.mp h
  obtain rfl := Except.ok.inj h
  unfold rank
  dsimp only
  generalize (if 0 < rv ∧ rv ≠ data.length then -1 else rv) = err
  by_cases hneg : err < 0
  · rw [if_pos hneg]
    exact Nat.succ_pos _
  · rw [if_neg hneg]
    exact Nat.lt_succ_self _

lemma rank_readBody {hd : Bytes} (h : c.readBody hd = .ok c') :
    rank c' < 2 * c.todo.length + 2 ∨ rank c' = 2 * c.todo.length + 2 ∧ unwritten c' = 0 := by
  unfold Process.readBody at h
  dsimp only at h
  split_ifs at h
  · obtain rfl := Except.ok.inj h
    exact .inl (Nat.succ_pos _)
  · exact .inl (rank_print h)
  · obtain rfl := Except.ok.inj h
    exact .inr ⟨rfl, rfl⟩

lemma rank_send (h : c.send = .ok c') : rank c' < 2 * c.todo.length + 1 := by
  unfold Process.send at h
  cases ht : c.todo with
  | nil =>
    rw [ht] at h
    obtain rfl := Except.ok.inj h
    exact Nat.succ_pos _
  | cons cmd todo =>
    rw [ht] at h
    obtain ⟨sent, -, h⟩ := bind_eq_ok.mp h
    cases sent with
    | none =>
      obtain rfl := Except.ok.inj h
      exact Nat.succ_pos _
    | some wbuf =>
      obtain rfl := Except.ok.inj h
      unfold rank
      dsimp only
      rw [List.length_cons]
      omega

/-- **One step** of the client does some of its work. -/
theorem step_advanced (he : c.step r = .ok (c', d)) : Advanced c c' d := by
  have hact := step_act c r
  generalize c.step r = x at hact he
  cases hact with
  | send hphase =>
    obtain ⟨c₁, hsend, he⟩ := bind_eq_ok.mp he
    obtain ⟨rfl, rfl⟩ := Prod.mk.inj (Except.ok.inj he)
    refine .next ?_
    unfold rank
    rw [hphase]
    exact rank_send hsend
  | failed hphase =>
    obtain ⟨rfl, rfl⟩ := Prod.mk.inj (Except.ok.inj he)
    exact .next (rank_stop hphase)
  | overwritten | overread => cases he
  | @wrote left hphase hpos hle =>
    obtain ⟨rfl, rfl⟩ := Prod.mk.inj (Except.ok.inj he)
    have hlen : (left.take r.wrote).length = r.wrote := List.length_take_of_le hle
    by_cases hend : left.drop r.wrote = []
    · have hall : left.length = r.wrote := by
        have := congrArg List.length hend
        rw [List.length_drop, List.length_nil] at this
        omega
      rw [if_pos hend]
      refine .wrote ?_ ?_ (by rw [hlen]; exact hpos)
      · simp [rank, hphase]
      · simp [unwritten, hphase, hall]
    · rw [if_neg hend]
      refine .wrote ?_ ?_ (by rw [hlen]; exact hpos)
      · simp [rank, hphase]
      · simp only [unwritten, hphase, List.length_drop, hlen]
        omega
  | moreHeader hphase hne | moreBody hphase hne =>
    obtain ⟨rfl, rfl⟩ := Prod.mk.inj (Except.ok.inj he)
    refine .read ?_ ?_ rfl (List.length_pos_of_ne_nil hne)
    · simp [rank, hphase]
    · simp [unwritten, hphase]
  | wholeHeader hphase hne =>
    obtain ⟨c₁, hnext, he⟩ := bind_eq_ok.mp he
    obtain ⟨rfl, rfl⟩ := Prod.mk.inj (Except.ok.inj he)
    rcases rank_readBody hnext with hlt | ⟨hrank, hleft⟩
    · refine .next ?_
      simpa [rank, hphase] using hlt
    · refine .read ?_ ?_ rfl (List.length_pos_of_ne_nil hne)
      · rw [hrank]
        simp [rank, hphase]
      · rw [hleft]
        simp [unwritten, hphase]
  | wholeBody hphase =>
    obtain ⟨c₁, hnext, he⟩ := bind_eq_ok.mp he
    obtain ⟨rfl, rfl⟩ := Prod.mk.inj (Except.ok.inj he)
    refine .next ?_
    simpa [rank, hphase] using rank_print hnext
  | stopped hphase =>
    obtain ⟨rfl, rfl⟩ := Prod.mk.inj (Except.ok.inj he)
    exact .stopped hphase rfl rfl

/-! ### A step of the system -/

lemma go_idle (p : Peer) : p.go p.client {} = p := by
  unfold Peer.go
  simp [Moved.append_nil]

lemma pass_idle (p : Peer) {seen : Seen} (hr : seen.received = []) (hs : seen.sent = []) :
    p.pass seen = p := by
  unfold Peer.pass
  simp [hr, hs]

lemma lower_of_client (hr : r.got <+: (net.peers a).down)
    (he : (net.peers a).client.step r = .ok (c, d)) :
    work { net with peers := Function.update net.peers a ((net.peers a).go c d) } a < work net a ∨
      (∃ err, (net.peers a).client.phase = .stopped err) ∧ (net.peers a).go c d = net.peers a := by
  cases step_advanced he with
  | stopped h hc hd =>
    refine .inr ⟨⟨_, h⟩, ?_⟩
    rw [hc, hd, go_idle]
  | next h =>
    refine .inl (work_lt_of_rank ?_)
    dsimp only
    rw [Function.update_self]
    exact h
  | wrote hrank hleft hd =>
    refine .inl (work_lt_of_up ?_ ?_) <;> dsimp only <;> rw [Function.update_self]
    · exact hrank
    · unfold Peer.go
      dsimp only
      rw [List.length_append]
      omega
  | read hrank hleft hw hd =>
    have hread : d.read.length ≤ (net.peers a).down.length := by
      rcases step_read he with hnil | hgot
      · rw [hnil]
        exact Nat.zero_le _
      · rw [hgot]
        exact hr.length_le
    refine .inl (work_lt_of_down ?_ ?_ ?_) <;> dsimp only <;> rw [Function.update_self]
    · exact hrank
    · unfold Peer.go
      dsimp only
      rw [hleft, hw, List.append_nil]
    · unfold Peer.go
      dsimp only
      rw [List.length_drop]
      omega

lemma sent_of_received {u o u' o' : Bytes} {seen : Seen} {done frames : List Bytes}
    (hflow : Flow strtod u o seen done frames u' o') (hinc : Incomplete maxMsg u)
    (hr : seen.received = []) : o = seen.sent ++ o' := by
  have hu := hflow.received
  rw [hr, List.append_nil] at hu
  have hdone : done = [] := by
    cases done with
    | nil => rfl
    | cons p done =>
      have hp := hflow.small p List.mem_cons_self
      rw [packAll_cons, List.append_assoc] at hu
      have hlt := hinc.lt (v := []) (hp.trans_lt (by decide)) ((List.append_nil u).trans hu)
      have hlen := congrArg List.length hu
      rw [List.length_append, pack_length] at hlen
      omega
  have hframes : frames = [] := by
    have h₁ := hflow.parsed.length_eq
    have h₂ := hflow.answered.length_eq
    rw [← h₁, hdone] at h₂
    exact List.length_eq_zero_iff.mp h₂.symm
  have hsent := hflow.sent
  rwa [hframes, List.flatten_nil, List.append_nil] at hsent

lemma unsent_of_between {s : State} {c : EventLoop.Conn} {u o : Bytes} (hc : s.conns a = some c)
    (hb : Between c.io u o) : unsent s a = o := by
  unfold unsent
  rw [hc]
  exact hb.outgoing.unread

lemma unsent_of_left {s : State} {u o : Bytes} (h : ∀ c, s.conns a = some c → Between c.io u o) :
    unsent s a = o ∨ s.conns a = none := by
  cases hc : s.conns a with
  | none => exact .inr rfl
  | some c => exact .inl (unsent_of_between hc (h c hc))

/-- A callback takes bytes, or sends some of the responses that were there, or does nothing. -/
lemma lower_or_same_of_pass {seen : Seen} {o o' : Bytes}
    (hpeer : net'.peers a = (net.peers a).pass seen)
    (hfront : seen.received ++ (net.peers a).up.drop seen.received.length = (net.peers a).up)
    (ho : seen.received = [] → o = seen.sent ++ o') (hbefore : unsent net.server a = o)
    (hafter : unsent net'.server a = o' ∨ net'.server.conns a = none) :
    work net' a < work net a ∨ Same net net' a := by
  by_cases hreceived : seen.received = []
  · specialize ho hreceived
    by_cases hsent : seen.sent = []
    · refine .inr ⟨?_, hafter.imp_left fun h => ?_⟩
      · rw [hpeer, pass_idle _ hreceived hsent]
      · rw [h, hbefore, ho, hsent, List.nil_append]
    · have hpos := List.length_pos_of_ne_nil hsent
      have hless : (unsent net'.server a).length ≤ o'.length := by
        rcases hafter with h | h
        · rw [h]
        · unfold unsent
          rw [h]
          exact Nat.zero_le _
      refine .inl (work_lt_of_down ?_ ?_ ?_) <;> rw [hpeer]
      · rfl
      · unfold Peer.pass
        rw [hreceived]
        rfl
      · unfold Peer.pass
        dsimp only
        rw [hbefore, ho, List.length_append, List.length_append]
        omega
  · have hpos := List.length_pos_of_ne_nil hreceived
    have hup := congrArg List.length hfront
    rw [List.length_append] at hup
    refine .inl (work_lt_of_up ?_ ?_) <;> rw [hpeer]
    · rfl
    · unfold Peer.pass
      dsimp only
      omega

/-- **An event** does some of the work for a client, or nothing. -/
lemma lower_or_same_of_event (hsound : Sound net.server) {event : Event} {s : State} {seen : Seen}
    (hr : Receives net event) (hstep : Stepped strtod net.server event s seen) (b : Addr) :
    work ⟨s, net.past.record net.server event seen, net.pass event seen⟩ b < work net b ∨
      Same net ⟨s, net.past.record net.server event seen, net.pass event seen⟩ b := by
  cases hstep with
  | accept hg hj =>
    refine .inr ⟨rfl, ?_⟩
    cases hc : s.conns b with
    | none => exact .inr rfl
    | some c =>
      refine .inl ?_
      unfold unsent
      dsimp only
      rw [hc]
      rcases hj.conns b c hc with hc' | ⟨hle, hio⟩
      · rw [hc']
      · obtain ⟨xs, hk⟩ := hsound.kept
        cases hc' : net.server.conns b with
        | none =>
          dsimp only
          rw [hio]
          rfl
        | some c' =>
          exact absurd (hk.fresh b (by rw [hc']; rfl)) (Nat.not_lt_of_le hle)
  | nobody hfd =>
    refine .inr ⟨?_, .inl rfl⟩
    unfold Net.pass
    dsimp only
    rw [hfd]
  | timers ht hconns hfresh =>
    refine .inr ⟨rfl, ?_⟩
    dsimp only
    unfold unsent
    rw [hconns]
    cases hc : net.server.conns b with
    | none => exact .inr rfl
    | some c =>
      rw [Option.filter_some]
      split_ifs
      · exact .inl rfl
      · exact .inr rfl
  | @peer fd clock socket clocks rv wv wv' a c _ _ u o u' o' done frames hfd hc hb hh =>
    by_cases hba : b = a
    · subst hba
      have hpeer : net.pass (.ready fd clock socket clocks rv wv wv') seen b =
          (net.peers b).pass seen := by
        unfold Net.pass
        dsimp only
        rw [hfd]
        exact Function.update_self ..
      exact lower_or_same_of_pass hpeer (took_front hh.took fun buf hbuf => (hr b buf hfd hbuf).1)
        (sent_of_received hh.flow hb.incomplete) (unsent_of_between hc hb) (unsent_of_left hh.left)
    · refine .inr ⟨?_, .inl ?_⟩
      · unfold Net.pass
        dsimp only
        rw [hfd]
        exact Function.update_of_ne hba ..
      · unfold unsent
        dsimp only
        rw [hh.others b hba]

/-- **Every step** does some of the work for a client, or nothing. -/
theorem lower_or_same (h : Connected strtod scripts net) (hs : Network.Step strtod net net')
    (b : Addr) : work net' b < work net b ∨ Same net net' b := by
  cases hs with
  | @client a r c d hr he =>
    by_cases hba : b = a
    · subst hba
      refine (lower_of_client hr he).imp id fun hidle => ⟨?_, .inl rfl⟩
      dsimp only
      rw [Function.update_self, hidle.2]
    · exact .inr ⟨Function.update_of_ne hba .., .inl rfl⟩
  | @server event s seen ha hr he =>
    have hsound := sound_of_reachable (reachable_of_recorded h.recorded)
    exact lower_or_same_of_event hsound hr (step_cases hsound ha he) b

lemma work_le (h : Connected strtod scripts net) (hs : Network.Step strtod net net') (b : Addr) :
    work net' b ≤ work net b :=
  (lower_or_same h hs b).elim le_of_lt Same.work_le

/-! ### Turns -/

/-- What can happen next for a client: it goes on itself, or the server reads from its connection or
writes to it. -/
inductive Turn
  | client
  | read
  | write

/-- The client does not wait for bytes that are not there yet. -/
def Goes (c : Process) (down : Bytes) : Prop :=
  match c.phase with
  | .head | .writing _ => True
  | .header _ | .body _ _ => down ≠ []
  | .stopped _ => False

/-- The turns that the state of the system allows. -/
inductive Offered (net : Net) (a : Addr) : Turn → Prop
  | client (h : Goes (net.peers a).client (net.peers a).down) : Offered net a .client
  | read (ho : unsent net.server a = []) (hup : (net.peers a).up ≠ []) : Offered net a .read
  | write (ho : unsent net.server a ≠ []) : Offered net a .write

/-- The socket of the connection is ready, and this is what the calls for it return. -/
def ReadyFor (net : Net) (a : Addr) (turn : Turn) : Event → Prop
  | .ready fd _ socket _ rv _ wv' => net.server.fd2conn[fd]?.join = some a ∧
    match turn with
    | .client => False
    | .read => socket.epollin = true ∧ ∃ buf, buf ≠ [] ∧ rv = .got buf
    | .write => socket.epollout = true ∧ ∃ n, 0 < n ∧ wv' = .wrote n
  | _ => False

/-- A turn, with the step that it is. -/
inductive Taken (strtod : Bytes → UInt64 × ℕ) (net : Net) (a : Addr) : Turn → Net → Prop
  | client {r : Returns} {c : Process} {d : Moved} (hr : r.got <+: (net.peers a).down)
    (he : (net.peers a).client.step r = .ok (c, d)) : Taken strtod net a .client
      { net with peers := Function.update net.peers a ((net.peers a).go c d) }
  | server {turn : Turn} {event : Event} {s : State} {seen : Seen} (h : ReadyFor net a turn event)
    (ha : Admissible net.server event) (hr : Receives net event)
    (he : step strtod net.server event = .ok (s, seen)) : Taken strtod net a turn
      ⟨s, net.past.record net.server event seen, net.pass event seen⟩

lemma Taken.step {turn : Turn} (h : Taken strtod net a turn net') :
    Network.Step strtod net net' := by
  cases h with
  | client hr he => exact .client hr he
  | server _ ha hr he => exact .server ha hr he

/-- **A turn that is offered is offered until some work is done**, while the connection is there. -/
lemma Offered.keep {turn : Turn} (h : Offered net a turn) (hs : Same net net' a)
    (hc : net'.server.conns a ≠ none) : Offered net' a turn := by
  have hunsent := hs.unsent.resolve_right hc
  cases h with
  | client hg => exact .client (by rw [hs.peers]; exact hg)
  | read ho hup => exact .read (hunsent.trans ho) (by rw [hs.peers]; exact hup)
  | write ho => exact .write (by rw [hunsent]; exact ho)

lemma pass_ne_of_ready {turn : Turn} (ho : Offered net a turn) {event : Event} {s : State}
    {seen : Seen} (hready : ReadyFor net a turn event) (hr : Receives net event)
    (hstep : Stepped strtod net.server event s seen) : net.pass event seen a ≠ net.peers a := by
  cases hstep with
  | accept hg hj => exact hready.elim
  | timers ht hconns hfresh => exact hready.elim
  | nobody hfd =>
    have hentry := hready.1
    rw [hfd] at hentry
    cases hentry
  | @peer fd clock socket clocks rv wv wv' a' c _ _ u o u' o' done frames hfd hc hb hh hruns
      hheeded =>
    obtain ⟨hentry, hmoves⟩ := hready
    obtain rfl := Option.some.inj (hfd.symm.trans hentry)
    have hunsent := unsent_of_between hc hb
    have hpass : net.pass (.ready fd clock socket clocks rv wv wv') seen a' =
        (net.peers a').pass seen := by
      unfold Net.pass
      dsimp only
      rw [hfd]
      exact Function.update_self ..
    intro hsame
    have hpeer := hpass.symm.trans hsame
    cases ho with
    | client hg => exact hmoves.elim
    | read ho hup =>
      obtain ⟨hin, buf, hbuf, hrv⟩ := hmoves
      have hreceived := hheeded.received hin (hunsent.symm.trans ho) buf hrv
      have hfront := took_front hh.took fun buf hbuf => (hr a' buf hfd hbuf).1
      have hlen := congrArg (fun p => p.up) hpeer
      unfold Peer.pass at hlen
      dsimp only at hlen
      rw [hlen] at hfront
      exact hbuf (hreceived.symm.trans (List.append_left_eq_self.mp hfront))
    | write ho =>
      obtain ⟨hout, n, hn, hwv⟩ := hmoves
      rw [hunsent] at ho
      have hsent := hheeded.sent hout ho n hwv
      have hdown := congrArg (fun p => p.down) hpeer
      unfold Peer.pass at hdown
      dsimp only at hdown
      rw [List.append_right_eq_self.mp hdown] at hsent
      have hlen := congrArg List.length hsent
      rw [List.length_take, List.length_nil] at hlen
      have hpos := List.length_pos_of_ne_nil ho
      omega

/-- **A turn does some of the work.** -/
theorem Taken.lower {turn : Turn} (h : Connected strtod scripts net) (ho : Offered net a turn)
    (ht : Taken strtod net a turn net') : work net' a < work net a := by
  cases ht with
  | client hr he =>
    refine (lower_of_client hr he).resolve_right fun ⟨⟨err, hstop⟩, _⟩ => ?_
    cases ho with
    | client hg =>
      unfold Goes at hg
      rw [hstop] at hg
      exact hg
  | @server _ event s seen hready ha hr he =>
    have hsound := sound_of_reachable (reachable_of_recorded h.recorded)
    have hstep := step_cases hsound ha he
    exact (lower_or_same_of_event hsound hr hstep a).resolve_right fun hsame =>
      pass_ne_of_ready ho hready hr hstep hsame.peers

/-! ### Nobody waits for ever -/

lemma eq_nil_of_incomplete {u : Bytes} {ps : List Bytes} (hinc : Incomplete maxMsg u)
    (hps : ∀ p ∈ ps, p.length < 2 ^ 32) (h : u = packAll ps) : ps = [] := by
  cases ps with
  | nil => rfl
  | cons p ps =>
    have hlt := hinc.lt (v := []) (hps p List.mem_cons_self) ((List.append_nil u).trans h)
    have hlen := congrArg List.length h
    rw [packAll_cons, List.length_append, pack_length] at hlen
    omega

/-- The part of a response that a client has read is not a whole one. -/
lemma ne_pack_of_waits {phase : Phase} {front p : Bytes} (h : Waits phase front)
    (hp : p.length < 2 ^ 32) : front ≠ pack p := by
  intro he
  cases h with
  | header hbuf =>
    have hlen := congrArg List.length he
    rw [pack_length] at hlen
    omega
  | @body len buf hlen hbuf =>
    have hhead := header_pack hp []
    rw [List.append_nil, ← he, header, List.take_left' (leBytes_length 4 len), ofLeBytes_leBytes,
      Nat.mod_eq_of_lt (hlen.trans_lt (by decide))] at hhead
    have hall := congrArg List.length he
    rw [List.length_append, leBytes_length, pack_length] at hall
    omega

/-- A client that waits has sent one request more than it has read responses. -/
lemma waits_of_stands {todo done : List (List Bytes)} {bodies : List Bytes}
    {printed : List (ℤ × List Printed)} {m : Moved} {phase : Phase}
    (h : Stands todo done bodies printed m phase) (hwait : (∃ buf, phase = .header buf) ∨
      ∃ len buf, phase = .body len buf) :
    ∃ front, Waits phase front ∧ m.written = requests done ∧
      m.read = packAll bodies ++ front ∧ bodies.length + 1 = done.length := by
  cases h with
  | header hw hr hbuf hn => exact ⟨_, .header hbuf, hw, hr, hn⟩
  | body hw hr hlen hbuf hn => exact ⟨_, .body hlen hbuf, hw, hr, hn⟩
  | _ => simp at hwait

/-- **A client that waits** waits for bytes that somebody has. -/
lemma exists_bytes {script done : List (List Bytes)} {outs bodies ps rest rest' : List Bytes}
    {printed : List (ℤ × List Printed)} {u o front : Bytes} {vs : List Value}
    (he : Ends script net outs a done bodies printed ps u o vs rest rest')
    (hinc : Incomplete maxMsg u) (hwait : Waits (net.peers a).client.phase front)
    (hw : (net.peers a).moved.written = requests done)
    (hr : (net.peers a).moved.read = packAll bodies ++ front)
    (hn : bodies.length + 1 = done.length) :
    (net.peers a).up ≠ [] ∨ o ≠ [] ∨ (net.peers a).down ≠ [] := by
  by_contra hnone
  push Not at hnone
  obtain ⟨hup, ho, hdown⟩ := hnone
  have hu := he.coming [] ((List.append_nil _).trans hw)
  rw [hup, List.append_nil, List.append_nil] at hu
  have hrest : rest = [] := by
    refine eq_nil_of_incomplete hinc (fun p hp => ?_) hu
    have hmem : p ∈ done.map payload := by
      rw [he.requested]
      exact List.mem_append_right _ hp
    obtain ⟨cmd, hcmd, rfl⟩ := List.mem_map.mp hmem
    rw [payload_length]
    exact (he.keeps.fits cmd hcmd).trans_lt (by decide)
  have hfront := he.going front hr
  rw [hdown, ho, List.append_nil, List.append_nil] at hfront
  have hcount := congrArg List.length he.requested
  rw [hrest, List.append_nil, List.length_map] at hcount
  have hheard := congrArg List.length he.heard
  rw [List.length_map, List.length_append, he.answered] at hheard
  obtain ⟨b, rfl⟩ : ∃ b, rest' = [b] := List.length_eq_one_iff.mp (by omega)
  rw [packAll_cons, packAll_nil, List.append_nil] at hfront
  refine ne_pack_of_waits hwait ?_ hfront
  have hmem : b ∈ vs.map fun v => enc (framed v) := by
    rw [he.heard]
    exact List.mem_append_right _ List.mem_cons_self
  obtain ⟨v, -, rfl⟩ := List.mem_map.mp hmem
  exact (framed_length v).trans_lt (by decide)

/-- **Nobody waits for ever.** While its connection is there, a client has stopped, or there is a
turn for it. -/
theorem exists_offered (h : Network.Reachable strtod scripts net) {c : EventLoop.Conn}
    (hc : net.server.conns a = some c) (hgo : ∀ err, (net.peers a).client.phase ≠ .stopped err) :
    ∃ turn, Offered net a turn := by
  have hconn := connected_of_reachable h
  obtain ⟨outs, hs⟩ := serial_of_recorded hconn.recorded
  obtain ⟨done, bodies, printed, ps, u, o, vs, rest, rest', he⟩ := hconn.ends hs a
  have hb := he.holds.between c hc
  have hwaits : ((∃ buf, (net.peers a).client.phase = .header buf) ∨
      ∃ len buf, (net.peers a).client.phase = .body len buf) → ∃ turn, Offered net a turn := by
    intro hwait
    obtain ⟨front, hf, hw, hr, hn⟩ := waits_of_stands he.keeps.stands hwait
    have hgoes : (net.peers a).down ≠ [] → Goes (net.peers a).client (net.peers a).down := by
      intro hdown
      unfold Goes
      rcases hwait with ⟨buf, hp⟩ | ⟨len, buf, hp⟩ <;> rw [hp] <;> exact hdown
    by_cases ho : o = []
    · rcases exists_bytes he hb.incomplete hf hw hr hn with hup | hne | hdown
      · exact ⟨.read, .read ((unsent_of_between hc hb).trans ho) hup⟩
      · exact absurd ho hne
      · exact ⟨.client, .client (hgoes hdown)⟩
    · exact ⟨.write, .write (by rw [unsent_of_between hc hb]; exact ho)⟩
  cases hp : (net.peers a).client.phase with
  | head | writing left =>
    refine ⟨.client, .client ?_⟩
    unfold Goes
    rw [hp]
    trivial
  | header buf => exact hwaits (.inl ⟨buf, hp⟩)
  | body len buf => exact hwaits (.inr ⟨len, buf, hp⟩)
  | stopped err => exact absurd hp (hgo err)

/-! ### Fair runs -/

lemma reachable_run {nets : ℕ → Net} (hstart : Network.Reachable strtod scripts (nets 0))
    (hstep : ∀ i, Network.Step strtod (nets i) (nets (i + 1))) (i : ℕ) :
    Network.Reachable strtod scripts (nets i) := by
  induction i with
  | zero => exact hstart
  | succ i ih => exact .step ih (hstep i)

/-- The client has printed the answers to the whole of its script. -/
def Finished (strtod : Bytes → UInt64 × ℕ) (scripts : Addr → List (List Bytes)) (net : Net)
    (a : Addr) : Prop :=
  (net.peers a).client.phase = .stopped 0 ∧
    ∃ outs vs, run (serve strtod) {} (net.past.log.map Prod.snd) = .ok (net.server.g, outs) ∧
      Agreed (scripts a) (own (some a) net.past.log) (own (some a) (results net.past.log outs))
        (net.peers a).client vs (scripts a).length

lemma finished_of_stopped (h : Network.Reachable strtod scripts net) {err : ℤ}
    (hp : (net.peers a).client.phase = .stopped err) (herr : 0 ≤ err) :
    Finished strtod scripts net a := by
  have hconn := connected_of_reachable h
  obtain ⟨outs, hs⟩ := serial_of_recorded hconn.recorded
  obtain ⟨vs, k, ha⟩ := agreed_of_serial hconn hs a
  obtain ⟨done, bodies, printed, hk⟩ := hconn.keeps a
  have hst := hk.stands
  rw [hp] at hst
  cases hst with
  | stopped _ _ _ hend =>
    obtain ⟨rfl, -⟩ := hend.resolve_left (not_lt.mpr herr)
    refine ⟨hp, outs, vs, hs.runs, ?_⟩
    rw [← ha.finished hp]
    exact ha

/-- **A client is served to its end.** In a run of the system in which a client's turns are not put
off for ever and its connection is not closed, the client stops, whatever the others do; and if it
does not fail, it has printed the answers to the whole of its script. -/
theorem fair_finishes {nets : ℕ → Net} (hstart : Network.Reachable strtod scripts (nets 0))
    (hstep : ∀ i, Network.Step strtod (nets i) (nets (i + 1)))
    (hconn : ∀ i, (nets i).server.conns a ≠ none)
    (hfair : Fair (fun net turn => Offered net a turn) (fun net => Taken strtod net a) nets) :
    ∃ i err, ((nets i).peers a).client.phase = .stopped err ∧
      (0 ≤ err → Finished strtod scripts (nets i) a) := by
  have hreach := reachable_run hstart hstep
  obtain ⟨i, err, hstop⟩ := hfair.reaches
    (fun net => ∃ err, (net.peers a).client.phase = .stopped err) (fun net => work net a)
    (fun i => work_le (connected_of_reachable (hreach i)) (hstep i) a)
    (fun i turn ho heq => by
      have hsame := (lower_or_same (connected_of_reachable (hreach i)) (hstep i) a).resolve_left
        heq.not_lt
      exact ho.keep hsame (hconn (i + 1)))
    (fun i turn ho ht => ht.lower (connected_of_reachable (hreach i)) ho)
    (fun i hgo => by
      obtain ⟨c, hc⟩ := Option.ne_none_iff_exists'.mp (hconn i)
      exact exists_offered (hreach i) hc fun err h => hgo ⟨err, h⟩)
  exact ⟨i, err, hstop, finished_of_stopped (hreach i) hstop⟩

lemma pass_client (net : Net) (event : Event) (seen : Seen) :
    (net.pass event seen a).client = (net.peers a).client := by
  unfold Net.pass
  cases event with
  | accept results => rfl
  | timers clock => rfl
  | ready fd clock socket clocks rv wv wv' =>
    dsimp only
    cases net.server.fd2conn[fd]?.join with
    | none => rfl
    | some b =>
      by_cases hb : a = b
      · subst hb
        dsimp only
        rw [Function.update_self]
        rfl
      · dsimp only
        rw [Function.update_of_ne hb]

lemma stopped_step {err : ℤ} (hs : Network.Step strtod net net')
    (hp : (net.peers a).client.phase = .stopped err) :
    (net'.peers a).client.phase = .stopped err := by
  cases hs with
  | @client b r c d hr he =>
    dsimp only
    by_cases hab : a = b
    · subst hab
      unfold Process.step at he
      rw [hp] at he
      obtain ⟨rfl, -⟩ := Prod.mk.inj (Except.ok.inj he)
      rwa [Function.update_self]
    · rwa [Function.update_of_ne hab]
  | @server event s seen ha hr he =>
    dsimp only
    rwa [pass_client]

lemma stopped_stays {err : ℤ} (hp : (net.peers a).client.phase = .stopped err) :
    Network.Step strtod net net := by
  have hstays : (net.peers a).client.step ⟨0, []⟩ = .ok ((net.peers a).client, {}) := by
    unfold Process.step
    rw [hp]
    rfl
  have hstep : Network.Step strtod net _ := .client List.nil_prefix hstays
  rwa [go_idle, Function.update_eq_self] at hstep

/-- A client that sets a key and gets it comes to its end, and nothing happens then. -/
theorem fair_finishes_script : ∃ net, Finished (fun _ => (0, 0)) (fun _ => script) net 0 := by
  obtain ⟨net, net', hr, hmoves, hpair, hup, hunsent⟩ := moves_end
  obtain ⟨hphase, -⟩ := Prod.mk.inj hpair
  obtain ⟨c, hc, hio⟩ := Option.map_eq_some_iff.mp hunsent
  have hnone : ∀ turn, ¬ Offered net' 0 turn := by
    intro turn ho
    cases ho with
    | client hg =>
      unfold Goes at hg
      rw [hphase] at hg
      exact hg
    | read _ hne => exact hne hup
    | write ho =>
      unfold unsent at ho
      rw [hc] at ho
      exact ho hio
  obtain ⟨nets, rfl, hsteps, hrest⟩ := exists_run hmoves (by simp [hc]) (stopped_stays hphase)
  have hfair : Fair (fun net turn => Offered net 0 turn) (fun net => Taken (fun _ => (0, 0)) net 0)
      nets := by
    intro turn i ho
    have hlast := hrest _ (Nat.le_max_right i moves.length)
    exact absurd (hlast ▸ ho _ (Nat.le_max_left i moves.length)) (hnone turn)
  obtain ⟨i, err, hp, hf⟩ := fair_finishes hr (fun i => (hsteps i).2) (fun i => (hsteps i).1) hfair
  have hlater : ∀ j, i ≤ j → ((nets j).peers 0).client.phase = .stopped err := fun j hj => by
    induction j, hj using Nat.le_induction with
    | base => exact hp
    | succ j _ ih => exact stopped_step (hsteps j).2 ih
  have hend := hlater _ (Nat.le_max_left i moves.length)
  rw [hrest _ (Nat.le_max_right i moves.length), hphase] at hend
  exact ⟨_, hf (Phase.stopped.inj hend).le⟩

/-! ### Every turn can be taken -/

lemma send_within (hfits : ∀ cmd ∈ c.todo, Within cmd) :
    ∃ c', c.send = .ok c' ∧ ∀ err, c'.phase = .stopped err → err = 0 := by
  unfold Process.send
  cases ht : c.todo with
  | nil => exact ⟨_, rfl, fun err h => (Phase.stopped.inj h).symm⟩
  | cons cmd todo =>
    have hw := hfits cmd (by rw [ht]; exact List.mem_cons_self)
    have hle := Nat.mod_le (trueSize cmd) (2 ^ 32)
    have hsent := sendReq_spec cmd
    dsimp only
    generalize sendReq cmd = sent at hsent
    cases hsent with
    | refused hbig => exact absurd (hbig.trans_le hle) (not_lt.mpr hw.size)
    | overrun hbig _ => exact absurd hbig (not_lt.mpr hw.size)
    | frame _ => exact ⟨_, rfl, fun err h => by cases h⟩

lemma outcome_framed (c : Process) {v : Value} (hdepth : depth v ≤ 2) (rest : Bytes) :
    ∃ c', c.outcome (readRes c.stack.calls (pack (enc (framed v)) ++ rest)) = .ok c' ∧
      ∀ err, c'.phase ≠ .stopped err := by
  rw [readRes_pack ((framed_depth hdepth).trans c.stack.two_le) (framed_length v) rest]
  refine ⟨_, rfl, fun err h => ?_⟩
  dsimp only at h
  rw [if_neg (by omega)] at h
  cases h

/-- **The client can go on**, and does not fail. -/
lemma exists_step {script done : List (List Bytes)} {outs bodies ps rest rest' : List Bytes}
    {printed : List (ℤ × List Printed)} {u o : Bytes} {vs : List Value}
    (he : Ends script net outs a done bodies printed ps u o vs rest rest')
    (hfits : ∀ cmd ∈ script, Within cmd) (hg : Goes (net.peers a).client (net.peers a).down) :
    ∃ r c d, r.got <+: (net.peers a).down ∧ (net.peers a).client.step r = .ok (c, d) ∧
      ∀ err, c.phase = .stopped err → err = 0 := by
  have hread : ((∃ buf, (net.peers a).client.phase = .header buf) ∨
      ∃ len buf, (net.peers a).client.phase = .body len buf) → (net.peers a).down ≠ [] →
      ∃ r c d, r.got <+: (net.peers a).down ∧ (net.peers a).client.step r = .ok (c, d) ∧
        ∀ err, c.phase = .stopped err → err = 0 := by
    intro hwait hdown
    obtain ⟨front, hf, -, hr, -⟩ := waits_of_stands he.keeps.stands hwait
    have hwants := hf.wants_pos
    generalize hgot : (net.peers a).down.take (net.peers a).client.wants = got
    have hprefix : got <+: (net.peers a).down := hgot ▸ List.take_prefix _ _
    have hlen : got.length = min (net.peers a).client.wants (net.peers a).down.length := by
      rw [← hgot, List.length_take]
    have hne : got ≠ [] := by
      have := List.length_pos_of_ne_nil hdown
      exact List.ne_nil_of_length_pos (by omega)
    obtain ⟨x, hfed, hstep⟩ := step_got hf hne (by omega)
    cases hfed with
    | @more c' hw hrest =>
      refine ⟨⟨0, got⟩, c', ⟨[], got⟩, hprefix, hstep, fun err hp => ?_⟩
      rw [hp] at hw
      cases hw
    | whole hall =>
      obtain ⟨left, hleft⟩ := hprefix
      have hgoing := he.going front hr
      rw [← hleft, List.append_assoc, ← List.append_assoc] at hgoing
      cases rest' with
      | nil =>
        have hlen' := congrArg List.length hgoing
        have hpos := List.length_pos_of_ne_nil hne
        rw [packAll_nil, List.length_nil, List.length_append, List.length_append] at hlen'
        omega
      | cons b rest' =>
        have hmem : b ∈ vs.map fun v => enc (framed v) := by
          rw [he.heard]
          exact List.mem_append_right _ List.mem_cons_self
        obtain ⟨v, hv, rfl⟩ := List.mem_map.mp hmem
        obtain ⟨c', hout, hphase⟩ := outcome_framed (net.peers a).client (he.shallow v hv)
          (packAll rest')
        rw [hall (left ++ o), hgoing, packAll_cons, hout] at hstep
        exact ⟨⟨0, got⟩, c', ⟨[], got⟩, ⟨left, hleft⟩, hstep,
          fun err hp => absurd hp (hphase err)⟩
  have hst := he.keeps.stands
  unfold Goes at hg
  cases hp : (net.peers a).client.phase with
  | head =>
    obtain ⟨c', hsend, hstop⟩ := send_within (c := (net.peers a).client) fun cmd hcmd =>
      hfits cmd (he.keeps.script ▸ List.mem_append_right _ hcmd)
    refine ⟨⟨0, []⟩, c', {}, List.nil_prefix, ?_, hstop⟩
    unfold Process.step
    rw [hp]
    dsimp only
    rw [hsend]
    rfl
  | writing left =>
    rw [hp] at hst
    cases hst with
    | writing hleft =>
      have hpos := List.length_pos_of_ne_nil hleft
      have hround : writeAll left left.length = .ok (some []) := by
        unfold writeAll
        rw [if_neg hpos.ne', if_neg (lt_irrefl _), List.drop_length]
        rfl
      refine ⟨⟨left.length, []⟩, { (net.peers a).client with phase := .header [] },
        ⟨left.take left.length, []⟩, List.nil_prefix, ?_, fun err h => by cases h⟩
      unfold Process.step
      rw [hp]
      dsimp only
      rw [hround]
      rfl
  | header buf =>
    rw [hp] at hg
    exact hread (.inl ⟨buf, hp⟩) hg
  | body len buf =>
    rw [hp] at hg
    exact hread (.inr ⟨len, buf, hp⟩) hg
  | stopped err =>
    rw [hp] at hg
    exact hg.elim

/-- The bytes received have no frame at their front that is not a request, where those to come are
requests. -/
lemma not_rejected {u received u' more : Bytes} {done qs : List Bytes}
    (hq : ∀ q ∈ qs, q.length ≤ maxMsg ∧ parseReq q ≠ none) (hd : ∀ p ∈ done, p.length ≤ maxMsg)
    (hu : u ++ received = packAll done ++ u') (he : u ++ (received ++ more) = packAll qs) :
    ¬ Rejected u' := by
  rintro ⟨p, rest, hp, rfl, hparse⟩
  have hlt : maxMsg < 2 ^ 32 := by decide
  rw [← List.append_assoc, hu, List.append_assoc] at he
  obtain ⟨rs, rfl, hrest⟩ := packAll_front (fun p hp => (hd p hp).trans_lt hlt)
    (fun q hq' => (hq q hq').1.trans_lt hlt) he
  have hone : packAll [p] ++ (rest ++ more) = packAll rs := by
    rw [← hrest, packAll_cons, packAll_nil, List.append_nil, List.append_assoc]
  obtain ⟨rs', rfl, -⟩ := packAll_front (fun x hx => by
      rw [List.mem_singleton.mp hx]
      exact hp.trans_lt hlt)
    (fun q hq' => (hq q (List.mem_append_right _ hq')).1.trans_lt hlt) hone
  exact (hq p (List.mem_append_right _ List.mem_cons_self)).2 hparse

/-- What an event of a connection does that is no failure of its socket, where the bytes to come are
requests: the connection is still there. -/
lemma exists_event (hsound : Sound net.server) {c : EventLoop.Conn}
    (hc : net.server.conns a = some c) {u o more : Bytes} {qs : List Bytes}
    (hb : Between c.io u o) (hq : ∀ q ∈ qs, q.length ≤ maxMsg ∧ parseReq q ≠ none)
    (hu : u ++ ((net.peers a).up ++ more) = packAll qs) {clock : Timespec}
    (hnow : net.server.now ≤ getMonotonicMsec clock) {socket : Mask} {rv : ReadResult}
    {wv : WriteResult} (hsocket : socket.epollerr = false)
    (hrv : rv = .eagain ∨ ∃ buf, rv = .got buf ∧ buf ≠ [] ∧ buf <+: (net.peers a).up)
    (hwv : wv ≠ .error) :
    ∃ s seen, step strtod net.server (.ready c.fd clock socket (fun _ => clock) rv .eagain wv) =
        .ok (s, seen) ∧ s.conns a ≠ none ∧ s.now = getMonotonicMsec clock := by
  obtain ⟨xs, hk⟩ := hsound.kept
  have hfd := (hk.mapped c.fd a).mpr ⟨c, hc, rfl⟩
  have hfatal : ¬ Fatal u rv := by
    rcases hrv with rfl | ⟨buf, rfl, -, rest, hup⟩
    · rintro ⟨buf, -, -, hbuf, -⟩
      cases hbuf
    · rw [← hup, List.append_assoc] at hu
      exact Stream.not_fatal_got (fun q hq' => (hq q hq').1) hu
  rcases handleReady_conn hsound strtod hfd hc hb hnow socket (fun _ => clock) rv .eagain wv with
    ⟨-, hdie⟩ | ⟨s, seen, u', o', done, frames, he, -, hnow', hh⟩
  · exact absurd hdie hfatal
  · refine ⟨s, seen, he, fun hgone => ?_, hnow'⟩
    have hfront : seen.received ++ (net.peers a).up.drop seen.received.length =
        (net.peers a).up := by
      refine took_front hh.took fun buf hbuf => ?_
      rcases hrv with hrv | ⟨buf', hrv, -, hpre⟩
      · rw [hrv] at hbuf
        cases hbuf
      · rw [hrv] at hbuf
        rwa [← ReadResult.got.inj hbuf]
    have hrej : ¬ Rejected u' := by
      rw [← hfront, List.append_assoc] at hu
      exact not_rejected hq hh.flow.small hh.flow.received hu
    rcases hh.gone hgone with herr | (hrejected | hfail | heof | hfail) | hfail
    · rw [hsocket] at herr
      cases herr
    · exact hrej hrejected
    · rcases hrv with hrv | ⟨buf, hrv, -⟩ <;> rw [hrv] at hfail <;> cases hfail
    · rcases hrv with hrv | ⟨buf, hrv, hne, -⟩
      · rw [hrv] at heof
        cases heof
      · rw [hrv] at heof
        exact hne (ReadResult.got.inj heof)
    · cases hfail
    · exact hwv hfail

/-- A client that can still come to the end of its script. -/
structure Alive (strtod : Bytes → UInt64 × ℕ) (scripts : Addr → List (List Bytes))
    (clock : Timespec) (a : Addr) (net : Net) : Prop where
  reachable : Network.Reachable strtod scripts net
  conn : net.server.conns a ≠ none
  healthy : ∀ err, (net.peers a).client.phase = .stopped err → err = 0
  now : net.server.now ≤ getMonotonicMsec clock

/-- **Every turn can be taken**, in a way that closes no connection. -/
lemma exists_taken {clock : Timespec} (h : Alive strtod scripts clock a net)
    (hfits : ∀ cmd ∈ scripts a, Within cmd) {turn : Turn} (ho : Offered net a turn) :
    ∃ net', Taken strtod net a turn net' ∧ Alive strtod scripts clock a net' := by
  obtain ⟨c, hc⟩ := Option.ne_none_iff_exists'.mp h.conn
  have hconn := connected_of_reachable h.reachable
  have hsound := sound_of_reachable (reachable_of_recorded hconn.recorded)
  obtain ⟨outs, hs⟩ := serial_of_recorded hconn.recorded
  obtain ⟨done, bodies, printed, ps, u, o, vs, rest, rest', he⟩ := hconn.ends hs a
  have hb := he.holds.between c hc
  obtain ⟨xs, hk⟩ := hsound.kept
  have hfd : net.server.fd2conn[c.fd]?.join = some a :=
    Option.join_eq_some_iff.mpr ((hk.mapped c.fd a).mpr ⟨c, hc, rfl⟩)
  obtain ⟨⟨more, hw⟩, -⟩ := he.keeps.bounds
  have hq : ∀ q ∈ rest, q.length ≤ maxMsg ∧ parseReq q ≠ none := by
    intro q hq
    have hmem : q ∈ done.map payload := by
      rw [he.requested]
      exact List.mem_append_right _ hq
    obtain ⟨cmd, hcmd, rfl⟩ := List.mem_map.mp hmem
    have hwithin := hfits cmd (he.keeps.script ▸ List.mem_append_left _ hcmd)
    rw [payload_length, hwithin.parse]
    exact ⟨hwithin.size, Option.some_ne_none _⟩
  -- the event of a turn of the server
  have hserver : ∀ socket rv wv, socket.epollerr = false →
      (rv = .eagain ∨ ∃ buf, rv = .got buf ∧ buf ≠ [] ∧ buf <+: (net.peers a).up) →
      wv ≠ .error → (∀ buf, rv = .got buf → buf.length ≤ 64 * 1024) →
      ReadyFor net a turn (.ready c.fd clock socket (fun _ => clock) rv .eagain wv) →
      ∃ net', Taken strtod net a turn net' ∧ Alive strtod scripts clock a net' := by
    intro socket rv wv hsocket hrv hwv hsmall hready
    obtain ⟨s, seen, hstep, halive, hnow⟩ := @exists_event strtod _ _ hsound _ hc _ _ _ _
      hb hq (he.coming more hw) _ h.now _ _ _ hsocket hrv hwv
    have hreceives : Receives net (.ready c.fd clock socket (fun _ => clock) rv .eagain wv) := by
      intro b buf hfd' hbuf
      obtain rfl := Option.some.inj (hfd.symm.trans hfd')
      refine ⟨?_, hsmall buf hbuf⟩
      rcases hrv with hrv | ⟨buf', hrv, -, hpre⟩
      · rw [hrv] at hbuf
        cases hbuf
      · rw [hrv] at hbuf
        rwa [← ReadResult.got.inj hbuf]
    have htaken := Taken.server hready h.now hreceives hstep
    refine ⟨_, htaken, h.reachable.step htaken.step, halive, fun err hp => ?_, hnow.le⟩
    refine h.healthy err ?_
    rw [← hp]
    exact congrArg Process.phase (pass_client net _ seen).symm
  cases ho with
  | client hg =>
    obtain ⟨r, c', d, hr, hstep, hstop⟩ := exists_step he hfits hg
    have htaken : Taken strtod net a .client _ := .client hr hstep
    refine ⟨_, htaken, h.reachable.step htaken.step, h.conn, fun err hp => ?_, h.now⟩
    dsimp only at hp
    rw [Function.update_self] at hp
    exact hstop err hp
  | read ho hup =>
    obtain ⟨b, up, hup⟩ := List.exists_cons_of_ne_nil hup
    refine hserver ⟨true, false, false⟩ (.got [b]) .eagain rfl (.inr ⟨[b], rfl, by simp, ?_⟩)
      (by simp) (fun buf hbuf => ?_) ⟨hfd, rfl, [b], by simp, rfl⟩
    · rw [hup]
      exact ⟨up, rfl⟩
    · rw [← ReadResult.got.inj hbuf, List.length_singleton]
      decide
  | write ho =>
    exact hserver ⟨false, true, false⟩ .eagain (.wrote 1) rfl (.inl rfl) (by simp)
      (fun buf hbuf => by cases hbuf) ⟨hfd, rfl, 1, Nat.one_pos, rfl⟩

/-- **No deadlock.** From every state that the system reaches, a client whose connection is there,
whose commands are within the limits, and that has not failed can come to the end of its script. -/
theorem can_finish (h : Network.Reachable strtod scripts net)
    (hc : net.server.conns a ≠ none) (hfits : ∀ cmd ∈ scripts a, Within cmd)
    (hgo : ∀ err, (net.peers a).client.phase = .stopped err → err = 0) {clock : Timespec}
    (hnow : net.server.now ≤ getMonotonicMsec clock) :
    ∃ net', Relation.ReflTransGen (Network.Step strtod) net net' ∧
      Finished strtod scripts net' a := by
  obtain ⟨net', hsteps, hserved, err, hp⟩ := exists_reaches (Network.Step strtod)
    (Alive strtod scripts clock a)
    (fun net => ∃ err, (net.peers a).client.phase = .stopped err) (fun net => work net a)
    (fun net h hgoal => by
      obtain ⟨c, hc⟩ := Option.ne_none_iff_exists'.mp h.conn
      obtain ⟨turn, ho⟩ := exists_offered h.reachable hc fun err hp => hgoal ⟨err, hp⟩
      obtain ⟨net', ht, hserved⟩ := exists_taken h hfits ho
      exact ⟨net', ht.step, hserved, ht.lower (connected_of_reachable h.reachable) ho⟩)
    ⟨h, hc, hgo, hnow⟩
  have herr := hserved.healthy err hp
  exact ⟨net', hsteps, finished_of_stopped hserved.reachable hp (ge_of_eq herr)⟩

theorem can_finish_get :
    ∃ net, Finished (fun _ => (0, 0)) (fun _ => [[str "get", [107]]]) net 0 := by
  have hall : (do
      let net ← connected (fun _ => (0, 0)) [[str "get", [107]]]
      pure ((net.server.conns 0).isSome, net.server.now, (net.peers 0).client.phase) : Eff _) =
      .ok (true, 1000, .head) := by
    decide +kernel
  obtain ⟨net, h, hall⟩ := bind_eq_ok.mp hall
  obtain ⟨hc, hrest⟩ := Prod.mk.inj (Except.ok.inj hall)
  obtain ⟨hnow, hphase⟩ := Prod.mk.inj hrest
  have hfits : ∀ cmd ∈ [[str "get", [107]]], Within cmd := by
    intro cmd hcmd
    rw [List.mem_singleton.mp hcmd]
    exact ⟨by decide, by decide⟩
  have hgo : ∀ err, (net.peers 0).client.phase = .stopped err → err = 0 := by
    intro err hp
    rw [hphase] at hp
    cases hp
  have hclock : net.server.now ≤ getMonotonicMsec (second 1) := by
    rw [hnow]
    decide
  obtain ⟨net', -, hf⟩ := can_finish (a := 0) (reachable_connected h)
    (Option.isSome_iff_ne_none.mp hc) hfits hgo hclock
  exact ⟨net', hf⟩

end ByoRedis.Progress
