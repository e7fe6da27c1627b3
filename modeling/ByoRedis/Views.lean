import ByoRedis.LoopRuns

/-!
The event loop by descriptor.

Without the idle list, the table of descriptors and the addresses in it, a state of the event loop
is one of the server that has a connection for each descriptor, and what the loop does about an
event is a run of that server: one event for each descriptor that is accepted, for the socket that
is ready, or for the timers.
-/

namespace ByoRedis.Views

open ByoRedis.Basic ByoRedis.Database ByoRedis.CommandSpec ByoRedis.Conn ByoRedis.ConnSpec
open ByoRedis.EventLoop
open ByoRedis.Registry ByoRedis.LoopRuns ByoRedis.Lib.Runs

variable {strtod : Bytes → UInt64 × ℕ} {s s' : State} {xs : List Addr} {a : Addr}
  {c : EventLoop.Conn} {fd : ℕ} {io : Connection}

/-- Some connection has this descriptor, and these buffers. -/
def Shown (s : State) (fd : ℕ) (io : Connection) : Prop :=
  ∃ a c, s.conns a = some c ∧ c.fd = fd ∧ c.io = io

lemma opened_iff (h : Kept s xs) : fd ∈ s.opened ↔ ∃ a c, s.conns a = some c ∧ c.fd = fd := by
  simp only [h.opened, h.mapped]

lemma Shown.opened (h : Kept s xs) (hs : Shown s fd io) : fd ∈ s.opened := by
  obtain ⟨a, c, hc, hfd, -⟩ := hs
  exact (opened_iff h).mpr ⟨a, c, hc, hfd⟩

end ByoRedis.Views
