import ByoRedis.EventLoop
import ByoRedis.Server

/-!
The connections are in the idle list and in the table of descriptors, and nothing else is.

A connection that has an event goes to the end of the list, so that the list is in the order of
last activity, and the connections that are idle too long are at its front.
-/

namespace ByoRedis.Registry

open ByoRedis.Basic ByoRedis.Database ByoRedis.DatabaseSpec ByoRedis.ExpireSpec ByoRedis.Conn
open ByoRedis.ConnSpec ByoRedis.CommandSpec ByoRedis.IdleList ByoRedis.EventLoop
open ByoRedis.KeySpace ByoRedis.Lib.Runs ByoRedis.Lib.Rings

/-- The connections `xs` are those of the idle list, in order, and of the table of descriptors. -/
structure Kept (s : State) (xs : List Addr) : Prop where
  ring : IsList s.idle .head (xs.map .conn)
  alive : ∀ a, a ∈ xs ↔ (s.conns a).isSome
  /-- Every entry of the table is a connection, and is that of its descriptor. -/
  mapped : ∀ fd a, s.fd2conn[fd]? = some (some a) ↔ ∃ c, s.conns a = some c ∧ c.fd = fd
  /-- The descriptors open are those of the table. -/
  opened : ∀ fd, fd ∈ s.opened ↔ ∃ a, s.fd2conn[fd]? = some (some a)
  openedOnce : s.opened.Nodup
  /-- The connection that was active the longest time ago is first. -/
  sorted : xs.Pairwise fun a b => ∀ c d, s.conns a = some c → s.conns b = some d →
    c.lastActiveMs ≤ d.lastActiveMs
  past : ∀ a c, s.conns a = some c → c.lastActiveMs ≤ s.now
  fresh : ∀ a, (s.conns a).isSome → a < s.fresh
  bounded : s.now < 2 ^ 63

variable {s s' : State} {xs ys zs : List Addr} {a : Addr} {conn : EventLoop.Conn}

lemma Kept.nodup (h : Kept s xs) : xs.Nodup :=
  ((List.nodup_cons.mp h.ring.nodup).2).of_map

lemma Kept.exists_conn (h : Kept s xs) (ha : a ∈ xs) : ∃ c, s.conns a = some c :=
  Option.isSome_iff_exists.mp ((h.alive a).mp ha)

lemma IsList.update {ν : Type} [DecidableEq ν] {m : Nodes ν} {h x : ν} {l : List ν}
    (hl : IsList m h l) (hx : x ∉ h :: l) (d : Option (DList ν)) :
    IsList (Function.update m x d) h l := by
  have hne : ∀ y ∈ h :: l, Function.update m x d y = m y := by
    intro y hy
    refine Function.update_of_ne ?_ ..
    rintro rfl
    exact hx hy
  refine IsRing.congr hl (fun y hy => ?_) fun y hy => ?_
  · rw [nextOf, hne y hy, nextOf]
  · rw [prevOf, hne y hy, prevOf]

lemma conns_erase {conns : Addr → Option EventLoop.Conn} {b : Addr} {c : EventLoop.Conn}
    (h : Function.update conns a none b = some c) : b ≠ a ∧ conns b = some c := by
  by_cases hb : b = a
  · rw [hb, Function.update_self] at h
    simp at h
  · rw [Function.update_of_ne hb] at h
    exact ⟨hb, h⟩

lemma conns_put {conns : Addr → Option EventLoop.Conn} {b : Addr} {c : EventLoop.Conn} :
    Function.update conns a (some conn) b = some c ↔
      b = a ∧ c = conn ∨ b ≠ a ∧ conns b = some c := by
  by_cases hb : b = a
  · simp [hb, eq_comm]
  · simp [hb]

lemma Kept.past_put (h : Kept s xs) (hnow : s.now ≤ conn.lastActiveMs) {b : Addr}
    {c : EventLoop.Conn} (hb : Function.update s.conns a (some conn) b = some c) :
    c.lastActiveMs ≤ conn.lastActiveMs := by
  rcases conns_put.mp hb with ⟨-, rfl⟩ | ⟨-, hb⟩
  · exact le_refl _
  · exact (h.past b c hb).trans hnow

lemma Kept.sorted_put (h : Kept s xs) (hsub : ys.Sublist xs) (ha : a ∉ ys)
    (hnow : s.now ≤ conn.lastActiveMs) :
    (ys ++ [a]).Pairwise fun b b' => ∀ c d, Function.update s.conns a (some conn) b = some c →
      Function.update s.conns a (some conn) b' = some d → c.lastActiveMs ≤ d.lastActiveMs := by
  rw [List.pairwise_append]
  refine ⟨?_, List.pairwise_singleton .., fun b _ b' hb' c d hc hd => ?_⟩
  · refine (h.sorted.sublist hsub).imp_of_mem fun {b b'} hb hb' hle c d hc hd => ?_
    rw [Function.update_of_ne (ne_of_mem_of_not_mem hb ha)] at hc
    rw [Function.update_of_ne (ne_of_mem_of_not_mem hb' ha)] at hd
    exact hle c d hc hd
  · rw [List.mem_singleton.mp hb', Function.update_self, Option.some.injEq] at hd
    rw [← hd]
    exact h.past_put hnow hc

lemma set_none_iff {l : List (Option Addr)} {fd fd' : ℕ} {b : Addr} :
    (l.set fd none)[fd']? = some (some b) ↔ fd' ≠ fd ∧ l[fd']? = some (some b) := by
  rw [List.getElem?_set]
  by_cases hfd : fd = fd'
  · subst hfd
    simp
  · simp [hfd, Ne.symm hfd]

lemma set_some_iff {l : List (Option Addr)} {fd fd' : ℕ} {a b : Addr} (hfd : fd < l.length) :
    (l.set fd (some a))[fd']? = some (some b) ↔
      (fd' = fd ∧ b = a) ∨ (fd' ≠ fd ∧ l[fd']? = some (some b)) := by
  rw [List.getElem?_set]
  by_cases h : fd = fd'
  · subst h
    simp [hfd, eq_comm]
  · simp [h, Ne.symm h]

/-! ### Destroying a connection -/

lemma Kept.alive_erase (h : Kept s (ys ++ a :: zs)) (b : Addr) :
    b ∈ ys ++ zs ↔ (Function.update s.conns a none b).isSome := by
  have hnot : a ∉ ys ++ zs := (List.nodup_cons.mp (List.nodup_middle.mp h.nodup)).1
  by_cases hb : b = a
  · rw [hb, Function.update_self]
    exact iff_of_false hnot Bool.false_ne_true
  · rw [Function.update_of_ne hb, ← h.alive, List.mem_append, List.mem_append, List.mem_cons]
    constructor
    · exact fun hmem => hmem.imp id .inr
    · exact fun hmem => hmem.imp id fun hmem => hmem.resolve_left hb

lemma Kept.mapped_erase (h : Kept s xs) (hc : s.conns a = some conn) (fd : ℕ) (b : Addr) :
    (s.fd2conn.set conn.fd none)[fd]? = some (some b) ↔
      ∃ c, Function.update s.conns a none b = some c ∧ c.fd = fd := by
  have hfd := (h.mapped conn.fd a).mpr ⟨conn, hc, rfl⟩
  rw [set_none_iff, h.mapped]
  constructor
  · rintro ⟨hne, c, hcb, rfl⟩
    refine ⟨c, ?_, rfl⟩
    rw [Function.update_of_ne ?_, hcb]
    rintro rfl
    rw [hc, Option.some.injEq] at hcb
    exact hne (by rw [hcb])
  · rintro ⟨c, hcb, rfl⟩
    obtain ⟨hne, hcb⟩ := conns_erase hcb
    refine ⟨fun hsame => hne ?_, c, hcb, rfl⟩
    have hb := (h.mapped c.fd b).mpr ⟨c, hcb, rfl⟩
    rw [hsame, hfd] at hb
    exact (Option.some.inj (Option.some.inj hb)).symm

lemma Kept.opened_erase (h : Kept s xs) (closed fd : ℕ) :
    fd ∈ s.opened.erase closed ↔ ∃ b, (s.fd2conn.set closed none)[fd]? = some (some b) := by
  rw [h.openedOnce.mem_erase_iff, h.opened]
  simp only [set_none_iff]
  constructor
  · rintro ⟨hne, b, hb⟩
    exact ⟨b, hne, hb⟩
  · rintro ⟨b, hne, hb⟩
    exact ⟨hne, b, hb⟩

/-- **`conn_destroy`** removes one connection from everywhere. -/
theorem Kept.destroy (h : Kept s (ys ++ a :: zs)) :
    ∃ s', connDestroy s a = .ok s' ∧ Kept s' (ys ++ zs) ∧
      s'.conns = Function.update s.conns a none ∧ s'.g = s.g ∧ s'.now = s.now ∧
      s'.fresh = s.fresh := by
  obtain ⟨conn, hc⟩ := h.exists_conn (a := a) (by simp)
  obtain ⟨hlen, -⟩ :=
    List.getElem?_eq_some_iff.mp ((h.mapped conn.fd a).mpr ⟨conn, hc, rfl⟩)
  have hring := h.ring
  rw [List.map_append, List.map_cons] at hring
  obtain ⟨idle, hd, hidle, -⟩ := dlistDetach_spec hring
  have hnot : a ∉ ys ++ zs := (List.nodup_cons.mp (List.nodup_middle.mp h.nodup)).1
  refine ⟨{ s with
    opened := s.opened.erase conn.fd
    fd2conn := s.fd2conn.set conn.fd none
    idle := Function.update idle (.conn a) none
    conns := Function.update s.conns a none }, ?_, ⟨?_, h.alive_erase, h.mapped_erase hc,
    h.opened_erase conn.fd, h.openedOnce.erase _, ?_, ?_, ?_, h.bounded⟩, rfl, rfl, rfl, rfl⟩
  · simp only [connDestroy, State.deref, hc, pure_eq_ok, ok_bind, if_pos hlen, hd]
  · rw [List.map_append]
    refine IsList.update hidle ?_ none
    rw [← List.map_append]
    simpa using hnot
  · have hsub : (ys ++ zs).Sublist (ys ++ a :: zs) :=
      (List.sublist_cons_self a zs).append_left ys
    refine (h.sorted.sublist hsub).imp fun hle c d hc' hd' => ?_
    exact hle c d (conns_erase hc').2 (conns_erase hd').2
  · exact fun b c hcb => h.past b c (conns_erase hcb).2
  · intro b hb
    obtain ⟨c, hcb⟩ := Option.isSome_iff_exists.mp hb
    exact h.fresh b (by rw [(conns_erase hcb).2]; rfl)

/-! ### Activity -/

/-- **A connection goes to the end of the list** with the time of its activity. -/
theorem Kept.touch (h : Kept s (ys ++ a :: zs)) (hc : s.conns a = some conn) {idle : Nodes Node}
    (hidle : IsList idle .head ((ys ++ zs ++ [a]).map .conn)) {now : ℕ} (hnow : s.now ≤ now)
    (hlt : now < 2 ^ 63) (g : GlobalData) (io : Connection) :
    Kept { s with
      g := g
      conns := Function.update s.conns a (some ⟨conn.fd, io, now⟩)
      idle := idle
      now := now } (ys ++ zs ++ [a]) := by
  have hperm : (ys ++ zs ++ [a]).Perm (ys ++ a :: zs) := by
    rw [List.append_assoc]
    exact List.perm_append_comm.append_left ys
  have hsome : ∀ b, (Function.update s.conns a (some ⟨conn.fd, io, now⟩) b).isSome =
      (s.conns b).isSome := by
    intro b
    by_cases hba : b = a
    · rw [hba, Function.update_self, hc]
      rfl
    · rw [Function.update_of_ne hba]
  refine ⟨hidle, fun b => ?_, fun fd b => ?_, h.opened, h.openedOnce, ?_, fun b c hb => ?_,
    fun b hb => ?_, hlt⟩
  · dsimp only
    rw [hsome, hperm.mem_iff, h.alive]
  · dsimp only
    rw [h.mapped]
    constructor
    · rintro ⟨c, hb, rfl⟩
      by_cases hba : b = a
      · subst hba
        obtain rfl := Option.some.inj (hc.symm.trans hb)
        exact ⟨_, Function.update_self .., rfl⟩
      · exact ⟨c, by rw [Function.update_of_ne hba, hb], rfl⟩
    · rintro ⟨c, hb, rfl⟩
      rcases conns_put.mp hb with ⟨rfl, rfl⟩ | ⟨-, hb⟩
      · exact ⟨conn, hc, rfl⟩
      · exact ⟨c, hb, rfl⟩
  · have hnot := (List.nodup_cons.mp (List.nodup_middle.mp h.nodup)).1
    exact h.sorted_put ((List.sublist_cons_self a zs).append_left ys) hnot hnow
  · exact h.past_put hnow hb
  · rw [hsome] at hb
    exact h.fresh b hb

/-! ### Accepting -/

/-- The table with room for a descriptor. -/
def roomFor (s : State) (fd : ℕ) : List (Option Addr) :=
  if s.fd2conn.length ≤ fd then resize s.fd2conn (fd + 1) else s.fd2conn

lemma roomFor_length (s : State) (fd : ℕ) : fd < (roomFor s fd).length := by
  unfold roomFor resize
  split_ifs with h
  · rw [List.length_append, List.length_replicate]
    omega
  · omega

lemma roomFor_iff (s : State) (fd : ℕ) {fd' : ℕ} {b : Addr} :
    (roomFor s fd)[fd']? = some (some b) ↔ s.fd2conn[fd']? = some (some b) := by
  unfold roomFor resize
  split_ifs with h
  · by_cases hlt : fd' < s.fd2conn.length
    · rw [List.getElem?_append_left hlt]
    · rw [List.getElem?_append_right (by omega), List.getElem?_replicate,
        List.getElem?_eq_none (by omega : s.fd2conn.length ≤ fd')]
      split_ifs <;> simp
  · rfl

/-- The entry of a descriptor that is not open is empty. -/
lemma Kept.room (h : Kept s xs) {fd : ℕ} (hfd : fd ∉ s.opened) :
    (roomFor s fd)[fd]? = some none := by
  have hlen := roomFor_length s fd
  rcases hx : (roomFor s fd)[fd]? with _ | _ | b
  · have := List.getElem?_eq_none_iff.mp hx
    omega
  · rfl
  · exact absurd ((h.opened fd).mpr ⟨b, (roomFor_iff s fd).mp hx⟩) hfd

lemma Kept.fresh_none (h : Kept s xs) : s.conns s.fresh = none := by
  cases hx : s.conns s.fresh with
  | none => rfl
  | some c => exact absurd (h.fresh s.fresh (by rw [hx]; rfl)) (lt_irrefl _)

/-- The entries of the table, with one more. -/
lemma Kept.mapped_link (h : Kept s xs) {fd : ℕ} (hfd : fd ∉ s.opened) (hc : conn.fd = fd)
    (fd' : ℕ) (b : Addr) :
    ((roomFor s fd).set fd (some s.fresh))[fd']? = some (some b) ↔
      ∃ c, Function.update s.conns s.fresh (some conn) b = some c ∧ c.fd = fd' := by
  rw [set_some_iff (roomFor_length s fd), roomFor_iff, h.mapped]
  simp only [conns_put]
  constructor
  · rintro (⟨rfl, rfl⟩ | ⟨-, c, hb, rfl⟩)
    · exact ⟨_, .inl ⟨rfl, rfl⟩, hc⟩
    · refine ⟨c, .inr ⟨?_, hb⟩, rfl⟩
      rintro rfl
      rw [h.fresh_none] at hb
      cases hb
  · rintro ⟨c, ⟨rfl, rfl⟩ | ⟨-, hb⟩, rfl⟩
    · exact .inl ⟨hc, rfl⟩
    · refine .inr ⟨fun hsame => hfd ?_, c, hb, rfl⟩
      rw [← hsame]
      exact (h.opened _).mpr ⟨b, (h.mapped _ b).mpr ⟨c, hb, rfl⟩⟩

lemma Kept.opened_link (h : Kept s xs) {fd : ℕ} (hfd : fd ∉ s.opened) (fd' : ℕ) :
    fd' ∈ fd :: s.opened ↔ ∃ b, ((roomFor s fd).set fd (some s.fresh))[fd']? = some (some b) := by
  rw [List.mem_cons, h.opened]
  simp only [set_some_iff (roomFor_length s fd), roomFor_iff]
  constructor
  · rintro (rfl | ⟨b, hb⟩)
    · exact ⟨_, .inl ⟨rfl, rfl⟩⟩
    · refine ⟨b, .inr ⟨?_, hb⟩⟩
      rintro rfl
      exact hfd ((h.opened _).mpr ⟨b, hb⟩)
  · rintro ⟨b, ⟨rfl, -⟩ | ⟨-, hb⟩⟩
    · exact .inl rfl
    · exact .inr ⟨b, hb⟩

lemma Kept.link (h : Kept s xs) {fd : ℕ} (hfd : fd ∉ s.opened) {idle : Nodes Node}
    (hidle : IsList idle .head ((xs ++ [s.fresh]).map .conn)) {now : ℕ} (hnow : s.now ≤ now)
    (hlt : now < 2 ^ 63) (io : Connection) :
    Kept { s with
      conns := Function.update s.conns s.fresh (some ⟨fd, io, now⟩)
      idle := idle
      fd2conn := (roomFor s fd).set fd (some s.fresh)
      fresh := s.fresh + 1
      opened := fd :: s.opened
      now := now } (xs ++ [s.fresh]) := by
  have hold : s.fresh ∉ xs := fun hm => lt_irrefl _ (h.fresh _ ((h.alive _).mp hm))
  refine ⟨hidle, fun b => ?_, h.mapped_link hfd rfl, h.opened_link hfd,
    List.nodup_cons.mpr ⟨hfd, h.openedOnce⟩, h.sorted_put (List.Sublist.refl xs) hold hnow,
    fun b c hb => h.past_put hnow hb, fun b hb => ?_, hlt⟩
  · rw [List.mem_append, List.mem_singleton, h.alive]
    by_cases hb : b = s.fresh
    · simp [hb]
    · simp [hb]
  · obtain ⟨c, hb⟩ := Option.isSome_iff_exists.mp hb
    rcases conns_put.mp hb with ⟨rfl, -⟩ | ⟨-, hb⟩
    · exact Nat.lt_succ_self _
    · exact Nat.lt_succ_of_lt (h.fresh b (by rw [hb]; rfl))

/-- **One connection is accepted**: the slot of its descriptor is empty. Where it cannot be
registered it is destroyed again. -/
theorem acceptOne_spec (h : Kept s xs) {fd : ℕ} (hfd : fd ∉ s.opened) {clock : Timespec}
    (hnow : s.now ≤ getMonotonicMsec clock) (added : Bool) :
    ∃ s' xs', acceptOne s fd clock added = .ok s' ∧ Kept s' xs' ∧ s'.g = s.g ∧
      s'.fresh = s.fresh + 1 ∧ (∀ b c, s.conns b = some c → s'.conns b = some c) ∧
      ∀ b c, s'.conns b = some c → s.conns b = some c ∨ b = s.fresh ∧ c.io = Server.accepted := by
  have hnew : Node.conn s.fresh ∉ Node.head :: xs.map .conn := by
    simp only [List.mem_cons, reduceCtorEq, List.mem_map, Node.conn.injEq, exists_eq_right,
      false_or]
    intro hm
    exact absurd (h.fresh s.fresh ((h.alive _).mp hm)) (lt_irrefl _)
  obtain ⟨idle, hi, hidle, -⟩ := dlistInsertBefore_spec (IsList.update h.ring hnew (some {})) hnew
    (by rw [Function.update_self]; rfl)
  have hring : IsList idle .head ((xs ++ [s.fresh]).map .conn) := by
    rw [List.map_append]
    exact hidle
  have hlink := fun io => h.link hfd hring hnow (msec_lt clock) io
  have hroom := h.room hfd
  have hold : ∀ b c, s.conns b = some c → b ≠ s.fresh := by
    rintro b c hb rfl
    rw [h.fresh_none] at hb
    cases hb
  cases added with
  | true =>
    refine ⟨_, _, ?_, hlink Server.accepted, rfl, rfl, fun b c hb => ?_, fun b c hb => ?_⟩
    · unfold acceptOne
      unfold roomFor at hroom ⊢
      simp only [hi, ok_bind, hroom, if_true, Function.update_idem, pure_eq_ok]
      rfl
    · exact conns_put.mpr (.inr ⟨hold b c hb, hb⟩)
    · rcases conns_put.mp hb with ⟨rfl, rfl⟩ | ⟨-, hb⟩
      · exact .inr ⟨rfl, rfl⟩
      · exact .inl hb
  | false =>
    obtain ⟨s', hd, hs', hconns, hg, -, hfresh⟩ :=
      @Kept.destroy _ xs [] _ (hlink { wantRead := true })
    refine ⟨s', xs ++ [], ?_, hs', hg, hfresh, fun b c hb => ?_, fun b c hb => ?_⟩
    · unfold acceptOne
      unfold roomFor at hroom hd
      simp only [hi, ok_bind, hroom, Bool.false_eq_true, if_false]
      exact hd
    · rw [hconns, Function.update_of_ne (hold b c hb)]
      exact conns_put.mpr (.inr ⟨hold b c hb, hb⟩)
    · rw [hconns] at hb
      obtain ⟨hne, hb⟩ := conns_erase hb
      dsimp only at hb
      rw [Function.update_of_ne hne] at hb
      exact .inl hb

/-- Between events: the registry is in order, the database stands for a store, and every connection
is between events. -/
structure Sound (s : State) : Prop where
  kept : ∃ xs, Kept s xs
  stands : ∃ σ, Good s.g σ
  between : ∀ a c, s.conns a = some c → ∃ u o, Between c.io u o

lemma start_sound (h : start = .ok s) : Sound s := by
  obtain ⟨idle, he, hidle, -⟩ := dlistInit_spec
    (m := Function.update (fun _ => none) Node.head (some {})) (h := .head)
    (by rw [Function.update_self]; rfl)
  unfold start at h
  rw [he, ok_bind] at h
  obtain rfl := Except.ok.inj h
  refine ⟨⟨[], hidle, ?_, ?_, ?_, ?_, ?_, ?_, ?_, ?_⟩, ⟨_, good_empty⟩, ?_⟩ <;> simp

/-- Connections were added, each at an address that was not in use before. -/
structure Joined (s s' : State) : Prop where
  fresh : s.fresh ≤ s'.fresh
  stay : ∀ b c, s.conns b = some c → s'.conns b = some c
  conns : ∀ b c, s'.conns b = some c →
    s.conns b = some c ∨ s.fresh ≤ b ∧ c.io = Server.accepted

lemma Joined.refl (s : State) : Joined s s := ⟨le_refl _, fun _ _ => id, fun _ _ => .inl⟩

lemma Joined.trans {s'' : State} (h : Joined s s') (h' : Joined s' s'') : Joined s s'' where
  fresh := h.fresh.trans h'.fresh
  stay b c hb := h'.stay b c (h.stay b c hb)
  conns b c hb := by
    rcases h'.conns b c hb with hb | ⟨hle, hio⟩
    · exact h.conns b c hb
    · exact .inr ⟨h.fresh.trans hle, hio⟩

/-- **`handle_accept`**: its assertion holds. -/
theorem handleAccept_spec (h : Sound s) (accepted : ℕ) {results : List Accept}
    (ha : Acceptable s results) :
    ∃ s' rv, handleAccept s accepted results = .ok (s', rv) ∧ Sound s' ∧ s'.g = s.g ∧
      Joined s s' := by
  induction results generalizing s accepted with
  | nil => exact ⟨s, 0, rfl, h, rfl, .refl s⟩
  | cons r results ih =>
    cases r with
    | eintr => exact ih h accepted ha
    | again => exact ⟨s, 0, rfl, h, rfl, .refl s⟩
    | error => exact ⟨s, _, rfl, h, rfl, .refl s⟩
    | conn fd clock added =>
      obtain ⟨hfd, hnow, hrest⟩ := ha
      obtain ⟨xs, hk⟩ := h.kept
      obtain ⟨s₁, xs₁, he, hk₁, hg, hfresh, hstay, hconns⟩ := acceptOne_spec hk hfd hnow added
      have hjoined : Joined s s₁ := by
        refine ⟨hfresh ▸ Nat.le_succ _, hstay, fun b c hb => (hconns b c hb).imp id ?_⟩
        rintro ⟨rfl, hio⟩
        exact ⟨le_refl _, hio⟩
      have hs₁ : Sound s₁ := by
        refine ⟨⟨xs₁, hk₁⟩, by rw [hg]; exact h.stands, fun b c hb => ?_⟩
        rcases hconns b c hb with hb | ⟨-, hio⟩
        · exact h.between b c hb
        · rw [hio]
          exact ⟨[], [], Server.between_accepted⟩
      obtain ⟨s₂, rv, he₂, hs₂, hg₂, hjoined₂⟩ :=
        ih hs₁ (accepted + added.toNat) (hrest s₁ he)
      exact ⟨s₂, rv, by rw [handleAccept, he, ok_bind, he₂], hs₂, hg₂.trans hg,
        hjoined.trans hjoined₂⟩

lemma Sound.destroy {b : Addr} (hk : Kept s (ys ++ b :: zs)) (hstands : ∃ σ, Good s.g σ)
    (hbetween : ∀ a c, a ≠ b → s.conns a = some c → ∃ u o, Between c.io u o) :
    ∃ s', connDestroy s b = .ok s' ∧ Sound s' ∧ s'.conns = Function.update s.conns b none ∧
      s'.now = s.now ∧ s'.fresh = s.fresh := by
  obtain ⟨s', hd, hs', hconns, hg, hnow, hfresh⟩ := hk.destroy
  refine ⟨s', hd, ⟨⟨_, hs'⟩, by rw [hg]; exact hstands, fun a c ha => ?_⟩, hconns, hnow, hfresh⟩
  rw [hconns] at ha
  obtain ⟨hne, ha⟩ := conns_erase ha
  exact hbetween a c hne ha

/-- A connection that has an event is moved to the end of the list. -/
lemma Kept.relink (h : Kept s (ys ++ a :: zs)) :
    ∃ m₁ m₂, dlistDetach s.idle (.conn a) = .ok m₁ ∧
      dlistInsertBefore m₁ .head (.conn a) = .ok m₂ ∧
      IsList m₂ .head ((ys ++ zs ++ [a]).map .conn) := by
  have hring := h.ring
  rw [List.map_append, List.map_cons] at hring
  obtain ⟨m₁, h₁, hl₁, hs₁⟩ := dlistDetach_spec hring
  have hnot : Node.conn a ∉ Node.head :: (ys.map .conn ++ zs.map .conn) := by
    have hnd := (List.nodup_cons.mp (List.nodup_middle.mp h.nodup)).1
    rw [← List.map_append]
    simpa using hnd
  obtain ⟨m₂, h₂, hl₂, -⟩ := dlistInsertBefore_spec hl₁ hnot
    ((hs₁ _).trans (IsList.allocated hring (by simp)))
  refine ⟨m₁, m₂, h₁, h₂, ?_⟩
  rw [List.map_append, List.map_append]
  exact hl₂

/-- What an event of a socket does to the connections: bytes pass through one of them, where the
descriptor is that of one, and the others are left alone. -/
structure Handled (strtod : Bytes → UInt64 × ℕ) (s : State) (a : Addr) (rv : ReadResult)
    (why : Bytes → Prop) (s' : State) (seen : Seen) (u o u' o' : Bytes) (done frames : List Bytes) :
    Prop where
  flow : Flow strtod u o seen done frames u' o'
  took : Took rv seen
  left : ∀ c, s'.conns a = some c → Between c.io u' o'
  gone : s'.conns a = none → why u'
  others : ∀ b, b ≠ a → s'.conns b = s.conns b
  fresh : s'.fresh = s.fresh

/-- Why an event may close a connection. -/
def Closes (socket : Mask) (rv : ReadResult) (wv wv' : WriteResult) (u : Bytes) : Prop :=
  socket.epollerr = true ∨ Cause u rv wv ∨ wv' = .error

/-- **An event of a connection** leaves the registry in order, or brings the process down with a
frame that is too large. -/
theorem handleReady_conn (h : Sound s) (strtod : Bytes → UInt64 × ℕ) {fd : ℕ}
    (hfd : s.fd2conn[fd]? = some (some a)) (hc : s.conns a = some conn) {u o : Bytes}
    (hb : Between conn.io u o) {clock : Timespec} (hnow : s.now ≤ getMonotonicMsec clock)
    (socket : Mask) (clocks : ℕ → Timespec) (rv : ReadResult) (wv wv' : WriteResult) :
    (handleReady strtod s fd clock socket clocks rv wv wv' = .error (.die "request too large") ∧
      Fatal u rv) ∨
      ∃ s' seen u' o' done frames,
        handleReady strtod s fd clock socket clocks rv wv wv' = .ok (s', seen) ∧ Sound s' ∧
          s'.now = getMonotonicMsec clock ∧
          Handled strtod s a rv (Closes socket rv wv wv') s' seen u o u' o' done frames := by
  unfold handleReady handleConn
  obtain ⟨xs, hk⟩ := h.kept
  obtain ⟨ys, zs, rfl⟩ := List.append_of_mem ((hk.alive a).mpr (by rw [hc]; rfl))
  obtain ⟨m₁, m₂, h₁, h₂, hidle⟩ := hk.relink
  obtain ⟨σ, hg⟩ := h.stands
  rw [hfd]
  simp only [Option.join_some, State.deref, hc, pure_eq_ok, ok_bind, h₁, h₂]
  rcases handleEvents_spec hg strtod clocks hb socket rv wv wv' with ⟨he, hfatal⟩ |
    ⟨g', σ', io, seen, done, frames, u', o', he, hg', hflow, htook, hleft⟩
  · exact .inl ⟨by rw [he]; rfl, hfatal⟩
  · have hk' := hk.touch hc hidle hnow (msec_lt clock) g' io
    have hothers : ∀ b c, b ≠ a → Function.update s.conns a
        (some ⟨conn.fd, io, getMonotonicMsec clock⟩) b = some c → ∃ u o, Between c.io u o := by
      intro b c hne hb
      rw [Function.update_of_ne hne] at hb
      exact h.between b c hb
    refine .inr ?_
    rw [he]
    simp only [ok_bind]
    cases hclosed : socket.epollerr || io.wantClose with
    | true =>
      obtain ⟨s', hd, hs', hconns, hnow', hfresh⟩ :=
        @Sound.destroy _ _ [] _ hk' ⟨σ', hg'⟩ hothers
      refine ⟨s', seen, u', o', done, frames, by simp [hd], hs', hnow', hflow, htook,
        fun c' hc' => ?_, fun _ => ?_, fun b hba => ?_, hfresh⟩
      · rw [hconns, Function.update_self] at hc'
        cases hc'
      · cases hleft with
        | between hb' =>
          rw [hb'.isOpen, Bool.or_false] at hclosed
          exact .inl hclosed
        | closing _ _ _ hwhy => exact .inr hwhy
      · rw [hconns, Function.update_of_ne hba]
        exact Function.update_of_ne hba ..
    | false =>
      have hbetween : Between io u' o' := by
        cases hleft with
        | between hb' => exact hb'
        | closing hclose _ _ _ => simp [hclose] at hclosed
      refine ⟨_, seen, u', o', done, frames, rfl, ⟨⟨_, hk'⟩, ⟨σ', hg'⟩, fun b c hb => ?_⟩, rfl,
        hflow, htook, fun c' hc' => ?_, fun hnone => ?_, fun b hba => ?_, rfl⟩
      · by_cases hba : b = a
        · dsimp only at hb
          rw [hba, Function.update_self, Option.some.injEq] at hb
          rw [← hb]
          exact ⟨u', o', hbetween⟩
        · exact hothers b c hba hb
      · dsimp only at hc'
        rw [Function.update_self, Option.some.injEq] at hc'
        rw [← hc']
        exact hbetween
      · dsimp only at hnone
        rw [Function.update_self] at hnone
        cases hnone
      · exact Function.update_of_ne hba ..

/-- An event of a descriptor that is that of no connection is ignored. -/
lemma handleReady_nobody (strtod : Bytes → UInt64 × ℕ) {fd : ℕ}
    (hfd : s.fd2conn[fd]?.join = none) (clock : Timespec) (socket : Mask) (clocks : ℕ → Timespec)
    (rv : ReadResult) (wv wv' : WriteResult) :
    handleReady strtod s fd clock socket clocks rv wv wv' = .ok (s, {}) := by
  unfold handleReady
  rw [hfd]
  rfl

lemma Sound.deref (h : Sound s) {fd : ℕ} (hfd : s.fd2conn[fd]? = some (some a)) :
    ∃ c u o, s.conns a = some c ∧ c.fd = fd ∧ Between c.io u o := by
  obtain ⟨xs, hk⟩ := h.kept
  obtain ⟨c, hc, hcfd⟩ := (hk.mapped fd a).mp hfd
  obtain ⟨u, o, hb⟩ := h.between a c hc
  exact ⟨c, u, o, hc, hcfd, hb⟩

lemma entry_of_join {l : List (Option Addr)} {fd : ℕ} (h : l[fd]?.join = some a) :
    l[fd]? = some (some a) := Option.join_eq_some_iff.mp h

/-- **An event of a socket** leaves the registry in order, or brings the process down with a frame
that is too large. -/
theorem handleReady_spec (h : Sound s) (strtod : Bytes → UInt64 × ℕ) (fd : ℕ) {clock : Timespec}
    (hnow : s.now ≤ getMonotonicMsec clock) (socket : Mask) (clocks : ℕ → Timespec)
    (rv : ReadResult) (wv wv' : WriteResult) :
    handleReady strtod s fd clock socket clocks rv wv wv' = .error (.die "request too large") ∨
      ∃ s' seen, handleReady strtod s fd clock socket clocks rv wv wv' = .ok (s', seen) ∧
        Sound s' := by
  cases hfd : s.fd2conn[fd]?.join with
  | none => exact .inr ⟨s, {}, handleReady_nobody strtod hfd .., h⟩
  | some a =>
    have hfd := entry_of_join hfd
    obtain ⟨c, u, o, hc, -, hb⟩ := h.deref hfd
    rcases handleReady_conn h strtod hfd hc hb hnow socket clocks rv wv wv' with ⟨hdie, -⟩ |
      ⟨s', seen, -, -, -, -, he, hs', -⟩
    · exact .inl hdie
    · exact .inr ⟨s', seen, he, hs'⟩

/-! ### Timers -/

lemma firstIdle_nil (h : Kept s []) : firstIdle s = .ok none := by
  have he := dlistEmpty_spec h.ring
  unfold firstIdle
  rw [he]
  rfl

/-- The connection at the front is the one that was active the longest time ago. -/
lemma firstIdle_cons (h : Kept s (a :: xs)) (hc : s.conns a = some conn) :
    firstIdle s = .ok (some (a, conn)) := by
  have he := dlistEmpty_spec h.ring
  obtain ⟨d, hd⟩ := Option.isSome_iff_exists.mp (IsList.allocated h.ring List.mem_cons_self)
  have hnext : d.next = some (.conn a) := by
    have := h.ring.next_head
    rw [nextOf, hd] at this
    exact this
  unfold firstIdle
  rw [he]
  simp only [ok_bind, List.map_cons, List.isEmpty_cons, Bool.false_eq_true, if_false,
    IdleList.deref, hd, pure_eq_ok, hnext, State.deref, hc]

lemma Kept.deadline (h : Kept s xs) (hc : s.conns a = some conn) :
    conn.deadline = conn.lastActiveMs + idleTimeoutMs := by
  have h₁ := h.past a conn hc
  have h₂ := h.bounded
  unfold EventLoop.Conn.deadline idleTimeoutMs
  omega

/-- The connection is idle too long. -/
def Expired (clock : Timespec) (c : EventLoop.Conn) : Prop :=
  c.lastActiveMs + idleTimeoutMs < getMonotonicMsec clock

instance (clock : Timespec) (c : EventLoop.Conn) : Decidable (Expired clock c) :=
  inferInstanceAs (Decidable (_ < _))

/-- **The loop over idle connections** stops at the first that is not expired, and none behind it
is. -/
theorem idleLoop_spec (h : Kept s xs) (clock : Timespec) {fuel : ℕ} (hf : xs.length < fuel) :
    ∃ s' ys, idleLoop clock fuel s = .ok s' ∧ Kept s' ys ∧ s'.g = s.g ∧ s'.now = s.now ∧
      s'.fresh = s.fresh ∧ ∀ a, s'.conns a = (s.conns a).filter fun c => ¬ Expired clock c := by
  induction xs generalizing s fuel with
  | nil =>
    obtain ⟨fuel, rfl⟩ : ∃ k, fuel = k + 1 := ⟨fuel - 1, by omega⟩
    refine ⟨s, [], by rw [idleLoop, firstIdle_nil h]; rfl, h, rfl, rfl, rfl, fun b => ?_⟩
    cases hb : s.conns b with
    | none => rfl
    | some c => exact absurd ((h.alive b).mpr (by rw [hb]; rfl)) (by simp)
  | cons a xs ih =>
    obtain ⟨fuel, rfl⟩ : ∃ k, fuel = k + 1 := ⟨fuel - 1, by omega⟩
    obtain ⟨conn, hc⟩ := h.exists_conn (a := a) List.mem_cons_self
    have hfirst := firstIdle_cons h hc
    rw [idleLoop, hfirst, ok_bind]
    dsimp only
    rw [h.deadline hc]
    by_cases hkeep : getMonotonicMsec clock ≤ conn.lastActiveMs + idleTimeoutMs
    · rw [if_pos hkeep]
      refine ⟨s, a :: xs, rfl, h, rfl, rfl, rfl, fun b => ?_⟩
      cases hb : s.conns b with
      | none => rfl
      | some c =>
        have hle : conn.lastActiveMs ≤ c.lastActiveMs := by
          rcases List.mem_cons.mp ((h.alive b).mpr (by rw [hb]; rfl)) with rfl | hmem
          · rw [Option.some.inj (hc.symm.trans hb)]
          · exact (List.pairwise_cons.mp h.sorted).1 b hmem conn c hc hb
        have hno : ¬ Expired clock c := by
          unfold Expired
          omega
        rw [Option.filter_some, if_pos (by simpa using hno)]
    · rw [if_neg hkeep]
      obtain ⟨s₁, hd, hk₁, hconns, hg, hnow, hfresh⟩ := @Kept.destroy _ [] _ _ h
      obtain ⟨s', ys, he, hk', hg', hnow', hfresh', hfilter⟩ :=
        ih hk₁ (by rw [List.length_cons] at hf; exact Nat.lt_of_succ_lt_succ hf)
      refine ⟨s', ys, by rw [hd, ok_bind, he], hk', hg'.trans hg, hnow'.trans hnow,
        hfresh'.trans hfresh, fun b => ?_⟩
      rw [hfilter, hconns]
      by_cases hb : b = a
      · have hexp : Expired clock conn := by
          unfold Expired
          omega
        rw [hb, Function.update_self, hc, Option.filter_some, if_neg (by simpa using hexp)]
        rfl
      · rw [Function.update_of_ne hb]

lemma Kept.length_le (h : Kept s xs) : xs.length ≤ s.fresh := by
  have hsub : xs ⊆ List.range s.fresh := fun a ha =>
    List.mem_range.mpr (h.fresh a ((h.alive a).mp ha))
  calc xs.length
    _ ≤ (List.range s.fresh).length := (List.subperm_of_subset h.nodup hsub).length_le
    _ = s.fresh := List.length_range

/-- `process_timers`, whatever the clock says: the idle connections first, and then the keys. -/
theorem processTimers_any {σ : Store} (h : Kept s xs) (hg : Good s.g σ) (clock : Timespec) :
    ∃ s' σ' ys, processTimers s clock = .ok s' ∧ processTtlTimers s.g clock = .ok s'.g ∧
      Good s'.g σ' ∧ Expires (maxWorks + 1) (getMonotonicMsec clock) σ σ' ∧
      (∀ a, s'.conns a = (s.conns a).filter fun c => ¬ Expired clock c) ∧
      (s.now ≤ getMonotonicMsec clock → Kept s' ys) ∧ s'.fresh = s.fresh := by
  obtain ⟨s₁, ys, he, hk₁, hsame, hnow₁, hfresh, hfilter⟩ :=
    idleLoop_spec h clock (Nat.lt_succ_of_le h.length_le)
  obtain ⟨g', σ', ht, hg', hx⟩ := processTtlTimers_spec hg clock
  refine ⟨{ s₁ with g := g', now := getMonotonicMsec clock }, σ', ys, ?_, ht, hg', hx, hfilter,
    fun hnow => ?_, hfresh⟩
  · simp only [processTimers, he, ok_bind, hsame, ht, pure_eq_ok]
  · exact ⟨hk₁.ring, hk₁.alive, hk₁.mapped, hk₁.opened, hk₁.openedOnce, hk₁.sorted,
      fun a c ha => (hk₁.past a c ha).trans (hnow₁.le.trans hnow), hk₁.fresh, msec_lt clock⟩

/-- **`process_timers`** destroys the connections that are idle too long, and no other. -/
theorem processTimers_spec (h : Sound s) {clock : Timespec}
    (hnow : s.now ≤ getMonotonicMsec clock) :
    ∃ s', processTimers s clock = .ok s' ∧ Sound s' ∧
      (∀ a, s'.conns a = (s.conns a).filter fun c => ¬ Expired clock c) ∧
      processTtlTimers s.g clock = .ok s'.g ∧ s'.fresh = s.fresh := by
  obtain ⟨xs, hk⟩ := h.kept
  obtain ⟨σ, hstands⟩ := h.stands
  obtain ⟨s', σ', ys, he, ht, hg', -, hfilter, hk', hfresh⟩ := processTimers_any hk hstands clock
  refine ⟨s', he, ⟨⟨ys, hk' hnow⟩, ⟨σ', hg'⟩, fun a c ha => ?_⟩, hfilter, ht, hfresh⟩
  rw [hfilter] at ha
  exact h.between a c (Option.eq_some_of_filter_eq_some ha)

/-! ### Runs -/

variable {strtod : Bytes → UInt64 × ℕ}

/-- **Every event** leaves the registry in order, or brings the process down with a frame that is
too large. -/
theorem step_sound (h : Sound s) {event : Event} (ha : Admissible s event) :
    step strtod s event = .error (.die "request too large") ∨
      ∃ s' seen, step strtod s event = .ok (s', seen) ∧ Sound s' := by
  cases event with
  | accept results =>
    obtain ⟨s', rv, he, hs', -⟩ := handleAccept_spec h 0 ha
    exact .inr ⟨s', {}, by simp [step, he], hs'⟩
  | ready fd clock socket clocks rv wv wv' =>
    exact handleReady_spec h strtod fd ha socket clocks rv wv wv'
  | timers clock =>
    obtain ⟨s', he, hs', -⟩ := processTimers_spec h ha
    exact .inr ⟨s', {}, by simp [step, he], hs'⟩

theorem sound_of_reachable (h : Reachable strtod s) : Sound s := by
  induction h with
  | start h => exact start_sound h
  | step _ ha he ih =>
    rcases @step_sound _ strtod ih _ ha with hdie | ⟨s', seen, he', hs'⟩
    · rw [hdie] at he
      cases he
    · obtain ⟨rfl, -⟩ := Prod.mk.inj (Except.ok.inj (he'.symm.trans he))
      exact hs'

lemma reachable_accept : ∃ s, Reachable (fun _ => (0, 0)) s ∧ s.opened = [5] := by
  have hclock : 1 * 10 ^ 9 + 0 < 2 ^ 63 := by decide
  obtain ⟨s₀, h₀⟩ : ∃ s, start = .ok s := ⟨_, rfl⟩
  obtain ⟨s, hs, hopened⟩ : ∃ s, step (fun _ => (0, 0)) s₀
      (.accept [.conn 5 ⟨1, 0, by decide, hclock⟩ true]) = .ok (s, {}) ∧ s.opened = [5] := by
    obtain rfl := Except.ok.inj h₀
    exact ⟨_, rfl, rfl⟩
  have ha : Admissible s₀ (.accept [.conn 5 ⟨1, 0, by decide, hclock⟩ true]) := by
    obtain rfl := Except.ok.inj h₀
    exact ⟨by simp, Nat.zero_le _, fun _ _ => trivial⟩
  exact ⟨s, .step (.start h₀) ha hs, hopened⟩

/-- **The registry of connections.** In every state that is reached, the connections in the idle
list are those of the table, in the order of their last activity; no assertion of an event fails;
and `process_timers` destroys the connections that are idle too long and no other. -/
theorem registry_kept (h : Reachable strtod s) : (∃ xs, Kept s xs) ∧
    (∀ event, Admissible s event → step strtod s event = .error (.die "request too large") ∨
      ∃ s' seen, step strtod s event = .ok (s', seen)) ∧
    (∀ results, Acceptable s results → ∃ s' rv, handleAccept s 0 results = .ok (s', rv)) ∧
    ∀ clock, s.now ≤ getMonotonicMsec clock → ∃ s', processTimers s clock = .ok s' ∧
      ∀ a, s'.conns a = (s.conns a).filter fun c =>
        ¬ (c.lastActiveMs + idleTimeoutMs < getMonotonicMsec clock) := by
  have hs := sound_of_reachable h
  refine ⟨hs.kept, fun event ha => ?_, fun results ha => ?_, fun clock hnow => ?_⟩
  · exact (step_sound hs ha).imp id fun ⟨s', seen, he, _⟩ => ⟨s', seen, he⟩
  · obtain ⟨s', rv, he, -⟩ := handleAccept_spec hs 0 ha
    exact ⟨s', rv, he⟩
  · obtain ⟨s', he, -, hfilter, -⟩ := processTimers_spec hs hnow
    exact ⟨s', he, hfilter⟩

lemma second_in_range (n : Fin 10) : (n : ℕ) * 10 ^ 9 + 0 < 2 ^ 63 := by omega

def second (n : Fin 10) : Timespec := ⟨n, 0, Timespec.nsec_zero, second_in_range n⟩

def joinsAt (fd : ℕ) (n : Fin 10) : Event := .accept [.conn fd (second n) true, .again]

lemma admissible_joinsAt {fd : ℕ} {n : Fin 10} (hfd : fd ∉ s.opened)
    (hnow : s.now ≤ getMonotonicMsec (second n)) : Admissible s (joinsAt fd n) :=
  ⟨hfd, hnow, fun _ _ => trivial⟩

/-- Three connections are accepted; the first one is active again, and the second one is closed. -/
lemma reachable_busy : ∃ s, Reachable (fun _ => (0, 0)) s ∧ s.opened = [7, 5] ∧
    (s.conns 0).map EventLoop.Conn.lastActiveMs = some 4000 ∧ s.conns 1 = none ∧
    (s.conns 2).map EventLoop.Conn.lastActiveMs = some 3000 ∧ s.now = 4000 := by
  let f : Bytes → UInt64 × ℕ := fun _ => (0, 0)
  let reads (fd : ℕ) (rv : ReadResult) : Event :=
    .ready fd (second 4) ⟨true, false, false⟩ (fun _ => second 4) rv .eagain .eagain
  have hall : (do
      let s₀ ← start
      let r₁ ← step f s₀ (joinsAt 5 1)
      let r₂ ← step f r₁.1 (joinsAt 6 2)
      let r₃ ← step f r₂.1 (joinsAt 7 3)
      let r₄ ← step f r₃.1 (reads 5 .eagain)
      let r₅ ← step f r₄.1 (reads 6 (.got []))
      let s := r₅.1
      pure ([s₀.opened, r₁.1.opened, r₂.1.opened, s.opened],
        [s₀.now, r₁.1.now, r₂.1.now, r₃.1.now, r₄.1.now, s.now],
        [0, 1, 2].map fun a => (s.conns a).map EventLoop.Conn.lastActiveMs) : Eff _) =
      .ok ([[], [5], [6, 5], [7, 5]], [0, 1000, 2000, 3000, 4000, 4000],
        [some 4000, none, some 3000]) := by
    decide +kernel
  obtain ⟨s₀, h₀, hall⟩ := bind_eq_ok.mp hall
  obtain ⟨⟨s₁, x₁⟩, h₁, hall⟩ := bind_eq_ok.mp hall
  obtain ⟨⟨s₂, x₂⟩, h₂, hall⟩ := bind_eq_ok.mp hall
  obtain ⟨⟨s₃, x₃⟩, h₃, hall⟩ := bind_eq_ok.mp hall
  obtain ⟨⟨s₄, x₄⟩, h₄, hall⟩ := bind_eq_ok.mp hall
  obtain ⟨⟨s₅, x₅⟩, h₅, hall⟩ := bind_eq_ok.mp hall
  simp only [pure_eq_ok, Except.ok.injEq, Prod.mk.injEq, List.cons.injEq, List.map_cons,
    List.map_nil, and_true] at hall
  obtain ⟨⟨ho₀, ho₁, ho₂, ho₅⟩, ⟨hn₀, hn₁, hn₂, hn₃, hn₄, hn₅⟩, hc₀, hc₁, hc₂⟩ := hall
  have hr₁ := (Reachable.start h₀).step (admissible_joinsAt (by simp [ho₀]) (by simp [hn₀])) h₁
  have hr₂ := hr₁.step (admissible_joinsAt (by simp [ho₁]) (hn₁.trans_le (by decide))) h₂
  have hr₃ := hr₂.step (admissible_joinsAt (by simp [ho₂]) (hn₂.trans_le (by decide))) h₃
  have ha₄ : Admissible s₃ (reads 5 .eagain) := hn₃.trans_le (by decide)
  have ha₅ : Admissible s₄ (reads 6 (.got [])) := hn₄.trans_le (by decide)
  exact ⟨s₅, (hr₃.step ha₄ h₄).step ha₅ h₅, ho₅, hc₀, Option.map_eq_none_iff.mp hc₁, hc₂, hn₅⟩

/-- The connection that was not active since is destroyed, and the first one is not. -/
theorem registry_kept_busy : ∃ s : State, s.opened = [7, 5] ∧ (∃ xs, Kept s xs) ∧
    ∃ s', processTimers s (second 9) = .ok s' ∧ s'.conns 0 = s.conns 0 ∧ s'.conns 0 ≠ none ∧
      s.conns 2 ≠ none ∧ s'.conns 2 = none := by
  obtain ⟨s, hs, hopened, hc₀, -, hc₂, hnow⟩ := reachable_busy
  obtain ⟨hk, -, -, htimers⟩ := registry_kept hs
  obtain ⟨s', he, hfilter⟩ := htimers (second 9) (hnow.trans_le (by decide))
  obtain ⟨c, hc, hactive⟩ := Option.map_eq_some_iff.mp hc₀
  obtain ⟨c', hc', hactive'⟩ := Option.map_eq_some_iff.mp hc₂
  have hms : getMonotonicMsec (second 9) = 9000 := by decide
  have hkeep : s'.conns 0 = s.conns 0 := by
    simp [hfilter, hc, hactive, hms, idleTimeoutMs]
  have hreap : s'.conns 2 = none := by
    simp [hfilter, hc', hactive', hms, idleTimeoutMs]
  exact ⟨s, hopened, hk, s', he, hkeep, by simp [hkeep, hc], by simp [hc'], hreap⟩

end ByoRedis.Registry
