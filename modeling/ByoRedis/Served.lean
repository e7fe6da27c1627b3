import ByoRedis.LoopRuns
import ByoRedis.RequestSpec

/-!
Every run of the store is one of the event loop, where its vectors fit in a frame and the clock does
not go back.

A client sends one request and takes the whole response before it sends the next one, so that
nothing is left in the buffers between two events.
-/

namespace ByoRedis.Served

open ByoRedis.Basic ByoRedis.ByteBuffer ByoRedis.ByteBufferSpec ByoRedis.Proto ByoRedis.Database
open ByoRedis.DatabaseSpec ByoRedis.Conn ByoRedis.ConnSpec ByoRedis.ResponseSpec
open ByoRedis.StoreRuns ByoRedis.KeySpace ByoRedis.EventLoop ByoRedis.Registry ByoRedis.LoopRuns
open ByoRedis.RequestSpec ByoRedis.Lib.Runs ByoRedis.Lib.Frames ByoRedis.Lib.LittleEndian

variable {strtod : Bytes → UInt64 × ℕ} {g : GlobalData} {σ : Store} {conn : Connection}
  {clock : Timespec} {cmd : List Bytes} {s : State} {fd : ℕ}

/-! ### One request -/

/-- The loop over requests stops after it. -/
lemma processRequests_payload (hg : Good g σ) (strtod : Bytes → UInt64 × ℕ) (clock : Timespec)
    (h : Within cmd) (hin : Shows conn.incoming (pack (payload cmd)) [])
    (hout : Shows conn.outgoing [] []) {fuel : ℕ} (hf : 2 ≤ fuel) :
    ∃ g' v incoming outgoing, respond strtod g clock cmd conn.outgoing = .ok (g', outgoing) ∧
      processRequests strtod fuel g (fun _ => clock) conn = .ok (g',
        { conn with outgoing := outgoing, incoming := incoming }, [⟨g, clock, cmd⟩]) ∧
      Shows incoming [] [] ∧ Shows outgoing (frame v) [] := by
  obtain ⟨g', v, incoming, outgoing, he, htry, hin', hout'⟩ :=
    tryProcess_payload hg strtod clock h hin hout
  obtain ⟨fuel, rfl⟩ : ∃ k, fuel = k + 2 := ⟨fuel - 2, by omega⟩
  refine ⟨g', v, incoming, outgoing, he, ?_, hin', hout'⟩
  have hstop : ∀ conn' : Connection, Shows conn'.incoming [] [] →
      processRequests strtod (fuel + 1) g' (fun _ => clock) conn' = .ok (g', conn', []) := by
    intro conn' hshows
    have hnone : tryProcessOneRequest strtod g' clock conn' = .ok (g', conn', none) := by
      unfold tryProcessOneRequest
      rw [hshows.readableSize, if_pos (by decide)]
      rfl
    rw [processRequests, hnone]
    rfl
  rw [processRequests, htry, ok_bind]
  dsimp only
  rw [hstop _ hin']
  rfl

lemma handleWrite_all (conn : Connection) {o : Bytes} (hout : Shows conn.outgoing o [])
    (ho : o ≠ []) :
    ∃ outgoing, handleWrite conn (WriteResult.wrote o.length) = .ok ({ conn with
      wantRead := true
      wantWrite := false
      outgoing := outgoing
      interest := ⟨true, false⟩ }, o) ∧ Shows outgoing [] [] := by
  have hlen : o.length ≠ 0 := fun h => ho (List.length_eq_zero_iff.mp h)
  have hcons := hout.consume o.length
  rw [List.drop_length] at hcons
  refine ⟨_, ?_, hcons.shrink (1 <<< 20)⟩
  unfold handleWrite
  rw [hout.readableSize, if_neg hlen]
  dsimp only
  rw [hout.unread, List.take_length, hcons.readableSize, if_pos List.length_nil]
  rfl

lemma handleRead_payload (hg : Good g σ) (strtod : Bytes → UInt64 × ℕ) (clock : Timespec)
    (h : Within cmd) (hb : Between conn [] []) :
    ∃ g' conn' v outgoing, respond strtod g clock cmd conn.outgoing = .ok (g', outgoing) ∧
      handleRead strtod g (fun _ => clock) conn (.got (pack (payload cmd)))
        (WriteResult.wrote (frame v).length) =
          .ok (g', conn', ⟨pack (payload cmd), [⟨g, clock, cmd⟩], frame v⟩) ∧
      Between conn' [] [] := by
  have hin : Shows (append conn.incoming (pack (payload cmd))) (pack (payload cmd)) [] :=
    hb.incoming.append (pack (payload cmd))
  have hpos : 0 < (pack (payload cmd)).length := by
    rw [pack_length]
    omega
  obtain ⟨g', v, incoming, outgoing, he, hreq, hin', hout'⟩ :=
    @processRequests_payload _ _ { conn with incoming := append conn.incoming (pack (payload cmd)) }
      _ hg strtod clock h hin hb.outgoing _ (Nat.succ_le_succ hpos)
  have hlen : 0 < (frame v).length := by
    rw [frame, pack_length]
    omega
  obtain ⟨outgoing', hwrite, hnone⟩ := handleWrite_all
    { conn with
      incoming := shrinkIncoming incoming
      outgoing := outgoing
      wantRead := false
      wantWrite := true } hout' (List.ne_nil_of_length_pos hlen)
  refine ⟨g', { conn with
    wantRead := true
    wantWrite := false
    incoming := shrinkIncoming incoming
    outgoing := outgoing'
    interest := ⟨true, false⟩ }, v, outgoing, he, ?_, ?_⟩
  · obtain ⟨x, xs, hx⟩ := List.exists_cons_of_length_pos hpos
    rw [hx] at hin hreq ⊢
    unfold handleRead
    dsimp only
    rw [hin.readableSize, hreq, ok_bind]
    dsimp only
    rw [hout'.readableSize, if_pos hlen, hwrite]
    rfl
  · exact ⟨hb.isOpen, shows_shrinkIncoming hin', hnone, ⟨rfl, rfl, rfl⟩, .inl (by decide)⟩

/-! ### Runs -/

/-- A client is connected, and nothing is on the way to it or from it. -/
def Quiet (s : State) (fd : ℕ) : Prop :=
  ∃ a c, s.fd2conn[fd]? = some (some a) ∧ s.conns a = some c ∧ Between c.io [] []

/-- The client sends a request and takes the response. -/
def request (fd : ℕ) (clock : Timespec) (cmd : List Bytes) (response : Bytes) : Event :=
  .ready fd clock ⟨true, false, false⟩ (fun _ => clock) (.got (pack (payload cmd)))
    (.wrote response.length) .eagain

/-- **A request is served** as the store serves it, and the client is quiet again. -/
theorem Quiet.serves (hr : Reachable strtod s) (hq : Quiet s fd) (h : Within cmd)
    (hnow : s.now ≤ getMonotonicMsec clock) :
    ∃ s' out, Reachable strtod s' ∧ Quiet s' fd ∧ s'.now = getMonotonicMsec clock ∧
      serve strtod s.g (.command clock cmd) = .ok (s'.g, out) := by
  obtain ⟨a, c, hfd, hc, hb⟩ := hq
  have hs := sound_of_reachable hr
  obtain ⟨σ, hg⟩ := hs.stands
  obtain ⟨xs, hk⟩ := hs.kept
  obtain ⟨ys, zs, rfl⟩ := List.append_of_mem ((hk.alive a).mpr (by rw [hc]; rfl))
  obtain ⟨m₁, m₂, h₁, h₂, -⟩ := hk.relink
  obtain ⟨g', conn', v, outgoing, he, hread, hb'⟩ :=
    handleRead_payload hg strtod clock h hb
  obtain ⟨out, hserve, -⟩ := serve_of_respond hg hb.outgoing he
  have hevents : handleEvents strtod s.g (fun _ => clock) c.io
      ((⟨true, false, false⟩ : Mask).reported c.io.interest) (.got (pack (payload cmd)))
      (WriteResult.wrote (frame v).length) WriteResult.eagain = .ok (g', conn',
        Seen.append ⟨pack (payload cmd), [⟨s.g, clock, cmd⟩], frame v⟩ {}, false) := by
    have hclose : conn'.wantClose = false := hb'.isOpen
    have hwant : c.io.wantRead = true := hb.tuned.wantRead
    unfold handleEvents Mask.reported
    rw [hb.tuned.interest]
    simp [hwant, hread, hclose]
  have hready : step strtod s (request fd clock cmd (frame v)) = .ok ({ s with
      g := g'
      conns := Function.update s.conns a (some ⟨c.fd, conn', getMonotonicMsec clock⟩)
      idle := m₂
      now := getMonotonicMsec clock },
      Seen.append ⟨pack (payload cmd), [⟨s.g, clock, cmd⟩], frame v⟩ {}) := by
    unfold request step handleReady handleConn
    dsimp only
    rw [hfd, Option.join_some]
    simp only [State.deref, hc, pure_eq_ok, ok_bind, h₁, h₂, hevents, Bool.false_eq_true, if_false]
  have hadmit : Admissible s (request fd clock cmd (frame v)) := hnow
  exact ⟨_, out, .step hr hadmit hready,
    ⟨a, _, hfd, Function.update_self .., hb'⟩, rfl, hserve⟩

def zero : Timespec := ⟨0, 0, Timespec.nsec_zero, by decide⟩

lemma reachable_quiet (strtod : Bytes → UInt64 × ℕ) :
    ∃ s, Reachable strtod s ∧ Quiet s 5 ∧ s.now = 0 ∧ s.g = {} := by
  obtain ⟨s₀, h₀⟩ : ∃ s, start = .ok s := ⟨_, rfl⟩
  have ha : Admissible s₀ (.accept [.conn 5 zero true]) := by
    obtain rfl := Except.ok.inj h₀
    exact ⟨by simp, Nat.zero_le _, fun _ _ => trivial⟩
  obtain ⟨s, hs, hq, hnow, hg⟩ : ∃ s, step strtod s₀ (.accept [.conn 5 zero true]) = .ok (s, {}) ∧
      Quiet s 5 ∧ s.now = 0 ∧ s.g = {} := by
    obtain rfl := Except.ok.inj h₀
    refine ⟨_, rfl, ⟨0, _, rfl, rfl, Server.between_accepted⟩, rfl, rfl⟩
  exact ⟨s, .step (.start h₀) ha hs, hq, hnow, hg⟩

lemma Quiet.run {xs : List (Timespec × List Bytes)} (hr : Reachable strtod s) (hq : Quiet s fd)
    (hnow : ∀ x ∈ xs, s.now ≤ getMonotonicMsec x.1)
    (hclock : xs.Pairwise fun x y => getMonotonicMsec x.1 ≤ getMonotonicMsec y.1)
    (hfits : ∀ x ∈ xs, Within x.2) :
    ∃ s' outs, Reachable strtod s' ∧ Quiet s' fd ∧
      run (serve strtod) s.g (xs.map fun x => .command x.1 x.2) = .ok (s'.g, outs) := by
  induction xs generalizing s with
  | nil => exact ⟨s, [], hr, hq, rfl⟩
  | cons x xs ih =>
    obtain ⟨hfirst, hrest⟩ := List.pairwise_cons.mp hclock
    obtain ⟨s₁, out, hr₁, hq₁, hnow₁, hserve⟩ :=
      hq.serves hr (hfits x List.mem_cons_self) (hnow x List.mem_cons_self)
    obtain ⟨s', outs, hr', hq', hrun⟩ := ih hr₁ hq₁
      (fun y hy => by rw [hnow₁]; exact hfirst y hy) hrest
      fun y hy => hfits y (List.mem_cons_of_mem x hy)
    exact ⟨s', out :: outs, hr', hq', run_append (run_singleton hserve) hrun⟩

/-- **Every run of the store** over vectors that fit in a frame ends in the database of a state that
the event loop reaches. -/
theorem commands_reachable (strtod : Bytes → UInt64 × ℕ) {xs : List (Timespec × List Bytes)}
    (hclock : xs.Pairwise fun x y => getMonotonicMsec x.1 ≤ getMonotonicMsec y.1)
    (hfits : ∀ x ∈ xs, Within x.2) :
    ∃ s outs, Reachable strtod s ∧
      run (serve strtod) {} (xs.map fun x => .command x.1 x.2) = .ok (s.g, outs) := by
  obtain ⟨s₀, hr, hq, hnow, hg⟩ := reachable_quiet strtod
  obtain ⟨s, outs, hr', -, hrun⟩ :=
    hq.run hr (fun x _ => by rw [hnow]; exact Nat.zero_le _) hclock hfits
  rw [hg] at hrun
  exact ⟨s, outs, hr', hrun⟩

end ByoRedis.Served
