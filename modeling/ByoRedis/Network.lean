import ByoRedis.History
import ByoRedis.Session

/-!
The server and its clients, with the bytes on their way between them.

Each client has a script and one connection. Clients and the server take steps in any order; bytes
arrive in pieces of any size; connections fail and time out at any time.
-/

namespace ByoRedis.Network

open ByoRedis.Basic ByoRedis.Proto ByoRedis.Tlv ByoRedis.Database ByoRedis.DatabaseSpec
open ByoRedis.KeySpace ByoRedis.Conn ByoRedis.ConnSpec ByoRedis.ResponseSpec ByoRedis.StoreRuns
open ByoRedis.EventLoop ByoRedis.Registry ByoRedis.LoopRuns ByoRedis.History ByoRedis.Client
open ByoRedis.ClientSpec ByoRedis.RequestSpec ByoRedis.Session ByoRedis.Lib.Runs
open ByoRedis.Lib.Frames ByoRedis.Lib.Labels

/-- A client and its connection. -/
structure Peer where
  client : Process
  /-- Written by the client, and not yet received by the server. -/
  up : Bytes := []
  /-- Sent by the server, and not yet read by the client. -/
  down : Bytes := []
  /-- What the client has written and read. -/
  moved : Moved := {}

/-- The whole system. The client at an address is the one whose connection has this address. -/
structure Net where
  server : State
  past : Past := {}
  peers : Addr → Peer

/-- What `read` gives the server are the next bytes on their way to it, 64 KiB at most. -/
def Receives (net : Net) : Event → Prop
  | .ready fd _ _ _ rv _ _ => ∀ a buf, net.server.fd2conn[fd]?.join = some a → rv = .got buf →
    buf <+: (net.peers a).up ∧ buf.length ≤ 64 * 1024
  | _ => True

/-- A client went on, and these bytes passed over its socket. -/
def Peer.go (p : Peer) (c : Process) (d : Moved) : Peer where
  client := c
  up := p.up ++ d.written
  down := p.down.drop d.read.length
  moved := p.moved.append d

/-- The bytes that a callback took and sent. -/
def Peer.pass (p : Peer) (seen : Seen) : Peer :=
  { p with
    up := p.up.drop seen.received.length
    down := p.down ++ seen.sent }

/-- The bytes that an event took and sent. -/
def Net.pass (net : Net) (event : Event) (seen : Seen) : Addr → Peer :=
  match event with
  | .ready fd _ _ _ _ _ _ =>
    match net.server.fd2conn[fd]?.join with
    | none => net.peers
    | some a => Function.update net.peers a ((net.peers a).pass seen)
  | _ => net.peers

inductive Step (strtod : Bytes → UInt64 × ℕ) : Net → Net → Prop
  /-- A client goes on. What it reads is on its way to it; a failure is possible at any time. -/
  | client {net : Net} {a : Addr} {r : Returns} {c : Process} {d : Moved}
    (hr : r.got <+: (net.peers a).down) (he : (net.peers a).client.step r = .ok (c, d)) :
    Step strtod net { net with peers := Function.update net.peers a ((net.peers a).go c d) }
  | server {net : Net} {event : Event} {s : State} {seen : Seen}
    (ha : Admissible net.server event) (hr : Receives net event)
    (he : step strtod net.server event = .ok (s, seen)) :
    Step strtod net ⟨s, net.past.record net.server event seen, net.pass event seen⟩

/-- The states of the system, from the empty server and clients with these scripts. -/
inductive Reachable (strtod : Bytes → UInt64 × ℕ) (scripts : Addr → List (List Bytes)) : Net → Prop
  | start {s : State} (room : Addr → Stack) (h : start = .ok s) :
    Reachable strtod scripts
      { server := s, peers := fun a => { client := { todo := scripts a, stack := room a } } }
  | step {net net' : Net} (h : Reachable strtod scripts net) (hs : Step strtod net net') :
    Reachable strtod scripts net'

/-! ### No byte is lost on the way -/

/-- What was written was received or is on its way, in both directions. -/
structure Carried (h : Past) (a : Addr) (p : Peer) : Prop where
  up : h.received a ++ p.up = p.moved.written
  down : h.sent a = p.moved.read ++ p.down

structure Connected (strtod : Bytes → UInt64 × ℕ) (scripts : Addr → List (List Bytes)) (net : Net) :
    Prop where
  recorded : Recorded strtod net.server net.past
  carried : ∀ a, Carried net.past a (net.peers a)
  keeps : ∀ a, ∃ done bodies results,
    Keeps (scripts a) (net.peers a).client (net.peers a).moved done bodies results

variable {strtod : Bytes → UInt64 × ℕ} {scripts : Addr → List (List Bytes)} {net net' : Net}
  {a : Addr}

lemma step_read {c c' : Process} {r : Returns} {d : Moved} (he : c.step r = .ok (c', d)) :
    d.read = [] ∨ d.read = r.got := by
  have hact := step_act c r
  generalize c.step r = x at hact he
  cases hact with
  | send =>
    obtain ⟨c₁, -, he⟩ := bind_eq_ok.mp he
    obtain ⟨-, rfl⟩ := Prod.mk.inj (Except.ok.inj he)
    exact .inl rfl
  | failed | wrote | stopped =>
    obtain ⟨-, rfl⟩ := Prod.mk.inj (Except.ok.inj he)
    exact .inl rfl
  | overwritten | overread => cases he
  | moreHeader | moreBody =>
    obtain ⟨-, rfl⟩ := Prod.mk.inj (Except.ok.inj he)
    exact .inr rfl
  | wholeHeader | wholeBody =>
    obtain ⟨c₁, -, he⟩ := bind_eq_ok.mp he
    obtain ⟨-, rfl⟩ := Prod.mk.inj (Except.ok.inj he)
    exact .inr rfl

lemma Carried.go {h : Past} {p : Peer} (hp : Carried h a p) (c : Process) {d : Moved}
    (hread : d.read <+: p.down) : Carried h a (p.go c d) where
  up := by
    unfold Peer.go Moved.append
    dsimp only
    rw [← List.append_assoc, hp.up]
  down := by
    unfold Peer.go Moved.append
    dsimp only
    rw [List.append_assoc, List.prefix_iff_eq_append.mp hread, hp.down]

lemma took_front {up : Bytes} {rv : ReadResult} {seen : Seen} (h : ConnSpec.Took rv seen)
    (hr : ∀ buf, rv = .got buf → buf <+: up) :
    seen.received ++ up.drop seen.received.length = up := by
  rcases h with h | h
  · rw [h]
    rfl
  · exact List.prefix_iff_eq_append.mp (hr _ h)

lemma Carried.pass {h : Past} {p : Peer} (hp : Carried h a p) {seen : Seen}
    (hfront : seen.received ++ p.up.drop seen.received.length = p.up) :
    Carried (h.see a seen) a (p.pass seen) where
  up := by
    unfold Past.see Peer.pass
    dsimp only
    rw [Function.update_self, List.append_assoc, hfront, hp.up]
  down := by
    unfold Past.see Peer.pass
    dsimp only
    rw [Function.update_self, hp.down, List.append_assoc]

/-- What an event does to the connections, as their clients see it. -/
lemma Connected.event (h : Connected strtod scripts net) {event : Event} {s : State} {seen : Seen}
    (hr : Receives net event) (hstep : Stepped strtod net.server event s seen) (b : Addr) :
    Carried (net.past.record net.server event seen) b (net.pass event seen b) ∧
      (net.pass event seen b).client = (net.peers b).client ∧
      (net.pass event seen b).moved = (net.peers b).moved := by
  cases hstep with
  | accept hg hj => exact ⟨h.carried b, rfl, rfl⟩
  | timers ht hconns hfresh => exact ⟨⟨(h.carried b).up, (h.carried b).down⟩, rfl, rfl⟩
  | nobody hfd =>
    unfold Past.record Net.pass
    dsimp only
    rw [hfd]
    exact ⟨h.carried b, rfl, rfl⟩
  | @peer fd clock socket clocks rv wv wv' a c _ _ u o u' o' done frames hfd hc hb hh =>
    unfold Past.record Net.pass
    dsimp only
    rw [hfd]
    dsimp only
    by_cases hba : b = a
    · subst hba
      rw [Function.update_self]
      have hfront := took_front hh.took fun buf hbuf => (hr b buf hfd hbuf).1
      exact ⟨(h.carried b).pass hfront, rfl, rfl⟩
    · rw [Function.update_of_ne hba]
      refine ⟨⟨?_, ?_⟩, rfl, rfl⟩
      · unfold Past.see
        dsimp only
        rw [Function.update_of_ne hba]
        exact (h.carried b).up
      · unfold Past.see
        dsimp only
        rw [Function.update_of_ne hba]
        exact (h.carried b).down

lemma Connected.step (h : Connected strtod scripts net) (hs : Step strtod net net') :
    Connected strtod scripts net' := by
  cases hs with
  | @client a r c d hr he =>
    refine ⟨h.recorded, fun b => ?_, fun b => ?_⟩
    · dsimp only
      by_cases hb : b = a
      · subst hb
        have hread : d.read <+: (net.peers b).down := by
          rcases step_read he with hd | hd
          · rw [hd]
            exact List.nil_prefix
          · rwa [hd]
        rw [Function.update_self]
        exact (h.carried b).go c hread
      · rw [Function.update_of_ne hb]
        exact h.carried b
    · dsimp only
      by_cases hb : b = a
      · subst hb
        obtain ⟨done, bodies, results, hk⟩ := h.keeps b
        rw [Function.update_self]
        exact hk.step he
      · rw [Function.update_of_ne hb]
        exact h.keeps b
  | @server event s seen ha hr he =>
    have hsound := sound_of_reachable (reachable_of_recorded h.recorded)
    have hevent := h.event hr (step_cases hsound ha he)
    refine ⟨h.recorded.step ha he, fun b => (hevent b).1, fun b => ?_⟩
    dsimp only
    rw [(hevent b).2.1, (hevent b).2.2]
    exact h.keeps b

theorem connected_of_reachable (h : Reachable strtod scripts net) :
    Connected strtod scripts net := by
  induction h with
  | @start s room hs =>
    exact ⟨.start hs, fun _ => ⟨rfl, rfl⟩,
      fun a => ⟨[], [], [], keeps_start (scripts a) (room a)⟩⟩
  | step _ hs ih => exact ih.step hs

/-! ### One client -/

/-- The first client is connected. -/
def connected (strtod : Bytes → UInt64 × ℕ) (script : List (List Bytes)) : Eff Net := do
  let s ← start
  let p ← step strtod s (joinsAt 5 1)
  pure { server := p.1, peers := fun _ => { client := { todo := script, stack := .least } } }

lemma reachable_connected {script : List (List Bytes)} (h : connected strtod script = .ok net) :
    Reachable strtod (fun _ => script) net := by
  obtain ⟨s, hs, h⟩ := bind_eq_ok.mp h
  obtain ⟨⟨s', seen⟩, he, h⟩ := bind_eq_ok.mp h
  obtain rfl := Except.ok.inj h
  have ha : Admissible s (joinsAt 5 1) := by
    obtain rfl := Except.ok.inj hs
    exact admissible_joinsAt (by simp) (Nat.zero_le _)
  have hstart : Reachable strtod (fun _ => script) _ := .start (fun _ => .least) hs
  have hreceives : ∀ net results, Receives net (.accept results) := fun _ _ => trivial
  exact hstart.step (.server ha (hreceives _ _) he)

/-- The client goes on, or the server reads all that is on its way from it and writes so many
bytes. -/
inductive Move
  | client (r : Returns)
  | server (wrote : ℕ)

/-- The step of a move, where the connection is there, and the bytes that are read. -/
def Net.move (strtod : Bytes → UInt64 × ℕ) (net : Net) : Move → Eff Net
  | .client r =>
    if (net.server.conns 0).isSome ∧ r.got <+: (net.peers 0).down then do
      let p ← (net.peers 0).client.step r
      pure { net with peers := Function.update net.peers 0 ((net.peers 0).go p.1 p.2) }
    else throw .assertion
  | .server wrote =>
    let event : Event := .ready 5 (second 1) ⟨true, false, false⟩ (fun _ => second 1)
      (.got (net.peers 0).up) (.wrote wrote) .eagain
    if (net.server.conns 0).isSome ∧ net.server.now ≤ getMonotonicMsec (second 1) ∧
        net.server.fd2conn[5]?.join = some 0 ∧ (net.peers 0).up.length ≤ 64 * 1024 then do
      let p ← step strtod net.server event
      pure ⟨p.1, net.past.record net.server event p.2, net.pass event p.2⟩
    else throw .assertion

lemma step_of_move {move : Move} (h : net.move strtod move = .ok net') :
    net.server.conns 0 ≠ none ∧ Step strtod net net' := by
  unfold Net.move at h
  cases move with
  | client r =>
    dsimp only at h
    split_ifs at h with hready
    obtain ⟨⟨c, d⟩, he, h⟩ := bind_eq_ok.mp h
    obtain rfl := Except.ok.inj h
    exact ⟨Option.isSome_iff_ne_none.mp hready.1, .client hready.2 he⟩
  | server wrote =>
    dsimp only at h
    split_ifs at h with hready
    obtain ⟨⟨s, seen⟩, he, h⟩ := bind_eq_ok.mp h
    obtain rfl := Except.ok.inj h
    obtain ⟨hconn, hnow, hfd, hsmall⟩ := hready
    refine ⟨Option.isSome_iff_ne_none.mp hconn, .server hnow (fun a buf hfd' hbuf => ?_) he⟩
    obtain rfl := Option.some.inj (hfd.symm.trans hfd')
    obtain rfl := ReadResult.got.inj hbuf
    exact ⟨List.prefix_rfl, hsmall⟩

/-- A run that makes some moves, and then stays where it is. -/
lemma exists_run {moves : List Move} (h : moves.foldlM (Net.move strtod) net = .ok net')
    (hconn : net'.server.conns 0 ≠ none) (hstay : Step strtod net' net') :
    ∃ nets : ℕ → Net, nets 0 = net ∧
      (∀ i, (nets i).server.conns 0 ≠ none ∧ Step strtod (nets i) (nets (i + 1))) ∧
      ∀ i, moves.length ≤ i → nets i = net' := by
  induction moves generalizing net with
  | nil =>
    obtain rfl := Except.ok.inj h
    exact ⟨fun _ => net, rfl, fun _ => ⟨hconn, hstay⟩, fun _ _ => rfl⟩
  | cons move moves ih =>
    rw [List.foldlM_cons] at h
    obtain ⟨net₁, hmove, h⟩ := bind_eq_ok.mp h
    obtain ⟨nets, rfl, hsteps, hrest⟩ := ih h
    refine ⟨fun i => i.casesOn net nets, rfl, fun i => ?_, fun i hi => ?_⟩
    · cases i with
      | zero => exact step_of_move hmove
      | succ i => exact hsteps i
    · cases i with
      | zero => cases hi
      | succ i => exact hrest i (Nat.le_of_succ_le_succ hi)

def script : List (List Bytes) := [[str "set", str "a", str "1"], [str "get", str "a"]]

/-- The answers arrive, the second one in two pieces. -/
def moves : List Move :=
  [.client ⟨0, []⟩, .client ⟨25, []⟩, .server 5, .client ⟨0, [1, 0, 0, 0]⟩, .client ⟨0, [0]⟩,
    .client ⟨0, []⟩, .client ⟨10, []⟩, .client ⟨10, []⟩, .server 10, .client ⟨0, [6, 0, 0, 0]⟩,
    .client ⟨0, [2, 1, 0]⟩, .client ⟨0, [0, 0, 49]⟩, .client ⟨0, []⟩]

/-- The client comes to the end of its script. -/
lemma moves_end : ∃ net net' : Net, Reachable (fun _ => (0, 0)) (fun _ => script) net ∧
    moves.foldlM (Net.move fun _ => (0, 0)) net = .ok net' ∧
    ((net'.peers 0).client.phase, (net'.peers 0).client.printed) =
      (.stopped 0, [.nil, .str (str "1")]) ∧
    (net'.peers 0).up = [] ∧ (net'.server.conns 0).map (·.io.outgoing.unread) = some [] := by
  have hall : (do
      let net ← connected (fun _ => (0, 0)) script
      let net' ← moves.foldlM (Net.move fun _ => (0, 0)) net
      pure (((net'.peers 0).client.phase, (net'.peers 0).client.printed), (net'.peers 0).up,
        (net'.server.conns 0).map (·.io.outgoing.unread)) : Eff _) =
      .ok ((.stopped 0, [.nil, .str (str "1")]), [], some []) := by
    decide +kernel
  obtain ⟨net, h, hall⟩ := bind_eq_ok.mp hall
  obtain ⟨net', h', hall⟩ := bind_eq_ok.mp hall
  obtain ⟨hprinted, hrest⟩ := Prod.mk.inj (Except.ok.inj hall)
  obtain ⟨hup, hconn⟩ := Prod.mk.inj hrest
  exact ⟨net, net', reachable_connected h, h', hprinted, hup, hconn⟩

lemma reachable_moves {scripts : Addr → List (List Bytes)} {moves : List Move}
    (hr : Reachable strtod scripts net) (h : moves.foldlM (Net.move strtod) net = .ok net') :
    Reachable strtod scripts net' := by
  induction moves generalizing net with
  | nil => exact Except.ok.inj h ▸ hr
  | cons move moves ih =>
    rw [List.foldlM_cons] at h
    obtain ⟨net₁, hmove, h⟩ := bind_eq_ok.mp h
    exact ih (hr.step (step_of_move hmove).2) h

/-! ### Agreement -/

/-- What came of a script: its first commands were executed, in order and each once, and `vs` are
the answers to them; the first `k` answers were printed, and no more than one was not. -/
structure Agreed (script : List (List Bytes)) (asked : List Op) (answers : List Bytes)
    (c : Process) (vs : List Value) (k : ℕ) : Prop where
  executed : List.Forall₂ (fun cmd op => ∃ clock, op = .command clock cmd)
    (script.take asked.length) asked
  answers : answers = vs.map frame
  printed : c.printed = shownAll ((vs.map framed).take k)
  behind : k ≤ vs.length ∧ vs.length ≤ k + 1
  finished : c.phase = .stopped 0 → k = script.length

/-- A request that was sent is parsed to its command, if it is parsed. -/
lemma eq_of_parse {cmd cmd' : List Bytes} (hfits : trueSize cmd ≤ maxMsg)
    (h : parseReq (payload cmd) = some cmd') : cmd' = cmd := by
  by_cases hn : cmd.length ≤ maxArgs
  · rw [(Within.mk hfits hn).parse] at h
    exact (Option.some.inj h).symm
  · have hlt : cmd.length < 2 ^ 32 :=
      Nat.lt_of_le_of_lt ((length_le_trueSize cmd).trans hfits) (by decide)
    rw [parseReq_tooMany (Nat.lt_of_not_le hn) hlt] at h
    cases h

lemma framed_of_asks {ps : List Bytes} {ops : List Op} {outs : List Bytes}
    (hasks : List.Forall₂ Asks ps ops)
    (h : List.Forall₂ (fun op out => ∀ clock cmd, op = .command clock cmd →
      ∃ v, depth v ≤ 2 ∧ out = frame v) ops outs) :
    ∃ vs : List Value, outs = vs.map frame ∧ vs.length = ps.length ∧ ∀ v ∈ vs, depth v ≤ 2 := by
  induction hasks generalizing outs with
  | nil =>
    cases h
    exact ⟨[], rfl, rfl, by simp⟩
  | cons hp _ ih =>
    cases h with
    | cons hop hrest =>
      obtain ⟨-, clock, cmd, hcmd, -⟩ := hp
      obtain ⟨v, hdepth, rfl⟩ := hop clock cmd hcmd
      obtain ⟨vs, rfl, hlen, hdepths⟩ := ih hrest
      exact ⟨v :: vs, rfl, congrArg Nat.succ hlen, List.forall_mem_cons.mpr ⟨hdepth, hdepths⟩⟩

lemma executed_of_asks {done : List (List Bytes)} {ps : List Bytes} {ops : List Op}
    (hfits : ∀ cmd ∈ done, trueSize cmd ≤ maxMsg) {rest : List Bytes}
    (hps : done.map payload = ps ++ rest) (hasks : List.Forall₂ Asks ps ops) :
    List.Forall₂ (fun cmd op => ∃ clock, op = .command clock cmd) (done.take ops.length) ops := by
  induction hasks generalizing done with
  | nil => exact .nil
  | cons hp _ ih =>
    cases done with
    | nil => cases hps
    | cons cmd done =>
      obtain ⟨hpay, hrest⟩ := List.cons.inj hps
      obtain ⟨hcmd, hdone⟩ := List.forall_mem_cons.mp hfits
      obtain ⟨-, clock, cmd', hop, hparse⟩ := hp
      rw [← hpay] at hparse
      obtain rfl := eq_of_parse hcmd hparse
      exact .cons ⟨clock, hop⟩ (ih hdone hrest)

/-- The bodies that were read, and what was printed of them, are those of the first answers. -/
lemma heard_frames {stack : Stack} {bodies : List Bytes} {results : List (ℤ × List Printed)}
    {vs : List Value} (hheard : Heard stack bodies results) (hdepth : ∀ v ∈ vs, depth v ≤ 2)
    {rest : List Bytes} (hvs : (vs.map fun v => enc (framed v)) = bodies ++ rest) :
    (results.map Prod.snd).flatten = shownAll ((vs.map framed).take bodies.length) := by
  induction hheard generalizing vs with
  | nil => rfl
  | cons hr _ ih =>
    cases vs with
    | nil => cases hvs
    | cons v vs =>
      obtain ⟨hbody, hrest⟩ := List.cons.inj hvs
      obtain ⟨hv, hdepths⟩ := List.forall_mem_cons.mp hdepth
      dsimp only at hbody
      have hread := readRes_pack ((framed_depth hv).trans stack.two_le) (framed_length v) []
      rw [List.append_nil, hbody, hr.2, Except.ok.injEq] at hread
      rw [List.map_cons, List.flatten_cons, ih hdepths hrest, hread]
      rfl

lemma flatten_frames (vs : List Value) :
    (vs.map frame).flatten = packAll (vs.map fun v => enc (framed v)) := by
  unfold packAll
  rw [List.map_map]
  rfl

/-- Both ends of a connection and the bytes between them: the requests of `done`, of which those of
`ps` were executed, and their answers, of which `bodies` were read. -/
structure Ends (script : List (List Bytes)) (net : Net) (outs : List Bytes) (a : Addr)
    (done : List (List Bytes)) (bodies : List Bytes) (printed : List (ℤ × List Printed))
    (ps : List Bytes) (u o : Bytes) (vs : List Value) (rest rest' : List Bytes) : Prop where
  keeps : Keeps script (net.peers a).client (net.peers a).moved done bodies printed
  exchange : Exchange net.past outs a ps u o
  holds : Holds net.server a u o
  requested : done.map payload = ps ++ rest
  coming : ∀ unwritten, (net.peers a).moved.written ++ unwritten = requests done →
    u ++ ((net.peers a).up ++ unwritten) = packAll rest
  told : own (some a) (results net.past.log outs) = vs.map frame
  answered : vs.length = ps.length
  shallow : ∀ v ∈ vs, depth v ≤ 2
  heard : (vs.map fun v => enc (framed v)) = bodies ++ rest'
  going : ∀ part, (net.peers a).moved.read = packAll bodies ++ part →
    part ++ ((net.peers a).down ++ o) = packAll rest'

lemma Connected.ends (h : Connected strtod scripts net) {outs : List Bytes}
    (hs : Serial strtod net.server net.past outs) (a : Addr) :
    ∃ done bodies printed ps u o vs rest rest',
      Ends (scripts a) net outs a done bodies printed ps u o vs rest rest' := by
  obtain ⟨done, bodies, printed, hk⟩ := h.keeps a
  obtain ⟨ps, u, o, hx, hholds⟩ := hs.peers a
  obtain ⟨hup, hdown⟩ := h.carried a
  obtain ⟨⟨unwritten, hw⟩, ⟨part, hr⟩, -⟩ := hk.bounds
  have hlt : maxMsg < 2 ^ 32 := by decide
  have hsmall : ∀ p ∈ done.map payload, p.length < 2 ^ 32 := by
    intro p hp
    obtain ⟨cmd, hcmd, rfl⟩ := List.mem_map.mp hp
    rw [payload_length]
    exact (hk.fits cmd hcmd).trans_lt hlt
  have hps : ∀ p ∈ ps, p.length < 2 ^ 32 := fun p hp =>
    ((List.forall₂_and_left _ _).mp hx.asked).1 p hp |>.trans_lt hlt
  have hcoming : ∀ unwritten, (net.peers a).moved.written ++ unwritten = requests done →
      packAll ps ++ (u ++ ((net.peers a).up ++ unwritten)) = requests done := by
    intro unwritten hw
    rw [← hw, ← hup, hx.received]
    simp only [List.append_assoc]
  obtain ⟨rest, hdone, hrest⟩ := packAll_front hps hsmall (hcoming _ hw)
  obtain ⟨vs, hvs, hlen, hdepth⟩ := framed_of_asks hx.asked
    (own_forall₂ (some a) (outs_framed good_empty hs.runs))
  have hbodies : ∀ b ∈ bodies, b.length < 2 ^ 32 := fun b hb =>
    ((List.forall₂_and_left _ _).mp hk.heard).1 b hb |>.trans_lt hlt
  have hvalues : ∀ b ∈ vs.map fun v => enc (framed v), b.length < 2 ^ 32 := by
    intro b hb
    obtain ⟨v, -, rfl⟩ := List.mem_map.mp hb
    exact (framed_length v).trans_lt hlt
  have hgoing : ∀ part, (net.peers a).moved.read = packAll bodies ++ part →
      packAll bodies ++ (part ++ ((net.peers a).down ++ o)) =
        packAll (vs.map fun v => enc (framed v)) := by
    intro part hr
    rw [← flatten_frames, ← hvs, ← hx.sent, hdown, hr]
    simp only [List.append_assoc]
  obtain ⟨rest', hread, hrest'⟩ := packAll_front hbodies hvalues (hgoing part hr.symm)
  refine ⟨done, bodies, printed, ps, u, o, vs, rest, rest', hk, hx, hholds, hdone,
    fun unwritten hw => ?_, hvs, hlen, hdepth, hread, fun part hr => ?_⟩
  · refine List.append_cancel_left ((hcoming unwritten hw).trans ?_)
    rw [requests, hdone, packAll_append]
  · refine List.append_cancel_left ((hgoing part hr).trans ?_)
    rw [hread, packAll_append]

lemma Ends.agreed {script done : List (List Bytes)} {outs bodies ps rest rest' : List Bytes}
    {printed : List (ℤ × List Printed)} {u o : Bytes} {vs : List Value}
    (h : Ends script net outs a done bodies printed ps u o vs rest rest') :
    Agreed script (own (some a) net.past.log) (own (some a) (results net.past.log outs))
      (net.peers a).client vs bodies.length := by
  have hcount : ps.length ≤ done.length := by
    have := congrArg List.length h.requested
    rw [List.length_map, List.length_append] at this
    omega
  have hbody : bodies.length ≤ vs.length := by
    have := congrArg List.length h.heard
    rw [List.length_map, List.length_append] at this
    omega
  have hops : (own (some a) net.past.log).length ≤ done.length :=
    h.exchange.asked.length_eq.symm.trans_le hcount
  have hn := h.keeps.bounds.2.2.2
  have hlen := h.answered
  refine ⟨?_, h.told, ?_, ⟨hbody, by omega⟩, fun hphase => ?_⟩
  · rw [h.keeps.script, List.take_append_of_le_length hops]
    exact executed_of_asks h.keeps.fits h.requested h.exchange.asked
  · rw [h.keeps.printed]
    exact heard_frames h.keeps.heard h.shallow h.heard
  · have hst := h.keeps.stands
    rw [hphase] at hst
    cases hst with
    | stopped _ _ _ hend =>
      rcases hend with hneg | ⟨-, htodo, hall, -⟩
      · exact absurd hneg (lt_irrefl _)
      · rw [h.keeps.script, htodo, List.append_nil, hall]

lemma agreed_of_serial (h : Connected strtod scripts net) {outs : List Bytes}
    (hs : Serial strtod net.server net.past outs) (a : Addr) :
    ∃ vs k, Agreed (scripts a) (own (some a) net.past.log)
      (own (some a) (results net.past.log outs)) (net.peers a).client vs k := by
  obtain ⟨_, bodies, _, _, _, _, vs, _, _, he⟩ := h.ends hs a
  exact ⟨vs, bodies.length, he.agreed⟩

/-- **The clients agree with the server.** In every state that the system reaches there is one run
of the store, and every client has printed the answers of this run to the first commands of its own
script, in order. No command is executed twice, or out of order, or for another client, and at most
one was executed whose answer was not yet printed. By clocks that do not go back, the answers are
those of the reference. -/
theorem clients_agree (h : Reachable strtod scripts net) :
    ∃ outs, run (serve strtod) {} (net.past.log.map Prod.snd) = .ok (net.server.g, outs) ∧
      (∀ a, ∃ vs k, Agreed (scripts a) (own (some a) net.past.log)
        (own (some a) (results net.past.log outs)) (net.peers a).client vs k) ∧
      (NonDecreasing (net.past.log.map Prod.snd) → ∃ σ,
        Trace (Lockstep strtod) ({}, fun _ => none) (net.past.log.map Prod.snd) outs
          (net.server.g, σ)) := by
  have hc := connected_of_reachable h
  obtain ⟨outs, hs⟩ := serial_of_recorded hc.recorded
  exact ⟨outs, hs.runs, agreed_of_serial hc hs, fun hclock => lockstep_of_run hclock hs.runs⟩

/-- What was printed are the answers of the one run of the store. -/
theorem clients_agree_printed : ∃ (net : Net) (outs : List Bytes),
    (net.peers 0).client.printed = [.nil, .str (str "1")] ∧
      run (serve fun _ => (0, 0)) {} (net.past.log.map Prod.snd) = .ok (net.server.g, outs) ∧
      ∀ a, ∃ vs k, Agreed script (own (some a) net.past.log)
        (own (some a) (results net.past.log outs)) (net.peers a).client vs k := by
  obtain ⟨net, net', hr, h, hprinted, -⟩ := moves_end
  obtain ⟨outs, hrun, hall, -⟩ := clients_agree (reachable_moves hr h)
  exact ⟨net', outs, (Prod.mk.inj hprinted).2, hrun, hall⟩

end ByoRedis.Network
