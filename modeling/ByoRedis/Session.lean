import ByoRedis.ClientSafety
import ByoRedis.RequestSpec

/-!
The client as a process: one command after the other, each sent before its response is read.

It stops wherever it waits for the socket, in a round of the loop of `write_all` or of `read_full`.
What these calls return is an input. A command line is a list of one command, and `multi_req` and
`run_commands_from_file` have one loop over their commands.
-/

namespace ByoRedis.Session

open ByoRedis.Basic ByoRedis.Proto ByoRedis.Client ByoRedis.ClientSafety ByoRedis.RequestSpec
open ByoRedis.Lib.Runs ByoRedis.Lib.LittleEndian ByoRedis.Lib.Frames

inductive Phase
  /-- At the head of the loop over commands. -/
  | head
  /-- In `write_all`, with the bytes left to write. -/
  | writing (left : Bytes)
  /-- In `read_full` of a header. -/
  | header (buf : Bytes)
  /-- In `read_full` of a body of this size. -/
  | body (len : ℕ) (buf : Bytes)
  | stopped (err : ℤ)
  deriving DecidableEq

structure Process where
  phase : Phase := .head
  /-- The commands that were not sent yet. -/
  todo : List (List Bytes)
  stack : Stack
  printed : List Printed := []

/-- What `write` and `read` return. No bytes are an error, or the end of the file. -/
structure Returns where
  wrote : ℕ
  got : Bytes

/-- The bytes that were written to the socket and read from it. -/
structure Moved where
  written : Bytes := []
  read : Bytes := []

def Moved.append (a b : Moved) : Moved := ⟨a.written ++ b.written, a.read ++ b.read⟩

/-- One round of `write_all`: what is left, or `none` where it fails. -/
def writeAll (left : Bytes) (rv : ℕ) : Eff (Option Bytes) :=
  if rv = 0 then pure none
  else if left.length < rv then throw .assertion
  else pure (some (left.drop rv))

/-- One round of `read_full` of `n` bytes: what was read so far, or `none` where it fails. -/
def readFull (n : ℕ) (buf got : Bytes) : Eff (Option Bytes) :=
  if got = [] then pure none
  else if n < buf.length + got.length then throw .assertion
  else pure (some (buf ++ got))

def Process.stop (c : Process) (err : ℤ) : Process := { c with phase := .stopped err }

/-- `send_req`, up to its call of `write_all`. -/
def Process.send (c : Process) : Eff Process :=
  match c.todo with
  | [] => pure (c.stop 0)
  | cmd :: todo => do
    match ← sendReq cmd with
    | none => pure (c.stop (-1))
    | some wbuf => pure { c with phase := .writing wbuf, todo := todo }

/-- The end of `read_res`: the response is printed. -/
def Process.print (c : Process) (data : Bytes) : Eff Process := do
  let (rv, out) ← printResponse c.stack.calls data data.length
  let err := if 0 < rv ∧ rv ≠ data.length then -1 else rv
  pure { c with
    phase := if err < 0 then .stopped err else .head
    printed := c.printed ++ out }

/-- `read_res` between its two calls of `read_full`. The second one returns at once where there is
nothing to read. -/
def Process.readBody (c : Process) (hd : Bytes) : Eff Process :=
  let len := ofLeBytes hd
  if maxMsg < len then pure (c.stop (-1))
  else if len = 0 then c.print []
  else pure { c with phase := .body len [] }

/-- What the client does up to its next call of `write` or `read`. -/
def Process.step (c : Process) (r : Returns) : Eff (Process × Moved) :=
  match c.phase with
  | .head => do
    let c ← c.send
    pure (c, {})
  | .writing left => do
    match ← writeAll left r.wrote with
    | none => pure (c.stop (-1), {})
    | some left' =>
      let phase := if left' = [] then .header [] else .writing left'
      pure ({ c with phase := phase }, ⟨left.take r.wrote, []⟩)
  | .header buf => do
    match ← readFull 4 buf r.got with
    | none => pure (c.stop (-1), {})
    | some buf =>
      let c ← if buf.length = 4 then c.readBody buf else pure { c with phase := .header buf }
      pure (c, ⟨[], r.got⟩)
  | .body len buf => do
    match ← readFull len buf r.got with
    | none => pure (c.stop (-1), {})
    | some buf =>
      let c ← if buf.length = len then c.print buf else pure { c with phase := .body len buf }
      pure (c, ⟨[], r.got⟩)
  | .stopped _ => pure (c, {})

/-! ### What a step can be -/

/-- How many bytes the client waits for. -/
def Process.wants (c : Process) : ℕ :=
  match c.phase with
  | .header buf => 4 - buf.length
  | .body len buf => len - buf.length
  | _ => 0

lemma wants_header {c : Process} {buf : Bytes} (h : c.phase = .header buf) :
    c.wants = 4 - buf.length := by
  unfold Process.wants
  rw [h]

lemma wants_body {c : Process} {len : ℕ} {buf : Bytes} (h : c.phase = .body len buf) :
    c.wants = len - buf.length := by
  unfold Process.wants
  rw [h]

/-- What a step of the client can be. -/
inductive Act (c : Process) (r : Returns) : Eff (Process × Moved) → Prop
  | send (hphase : c.phase = .head) :
    Act c r (do
      let c ← c.send
      pure (c, {}))
  | failed (hphase : ∀ err, c.phase ≠ .stopped err) : Act c r (.ok (c.stop (-1), {}))
  /-- `write` claims to have taken more than there was. -/
  | overwritten {left : Bytes} (hphase : c.phase = .writing left) (h : left.length < r.wrote) :
    Act c r (.error .assertion)
  | wrote {left : Bytes} (hphase : c.phase = .writing left) (hpos : 0 < r.wrote)
    (hle : r.wrote ≤ left.length) :
    Act c r (.ok ({ c with
        phase := if left.drop r.wrote = [] then .header [] else .writing (left.drop r.wrote) },
      ⟨left.take r.wrote, []⟩))
  /-- `read` claims to have given more than it was asked for. -/
  | overread (h : c.wants < r.got.length) : Act c r (.error .assertion)
  | moreHeader {buf : Bytes} (hphase : c.phase = .header buf) (hne : r.got ≠ [])
    (hmore : (buf ++ r.got).length < 4) :
    Act c r (.ok ({ c with phase := .header (buf ++ r.got) }, ⟨[], r.got⟩))
  | wholeHeader {buf : Bytes} (hphase : c.phase = .header buf) (hne : r.got ≠ [])
    (hfull : (buf ++ r.got).length = 4) :
    Act c r (do
      let c ← c.readBody (buf ++ r.got)
      pure (c, ⟨[], r.got⟩))
  | moreBody {len : ℕ} {buf : Bytes} (hphase : c.phase = .body len buf) (hne : r.got ≠ [])
    (hmore : (buf ++ r.got).length < len) :
    Act c r (.ok ({ c with phase := .body len (buf ++ r.got) }, ⟨[], r.got⟩))
  | wholeBody {len : ℕ} {buf : Bytes} (hphase : c.phase = .body len buf) (hne : r.got ≠ [])
    (hfull : (buf ++ r.got).length = len) :
    Act c r (do
      let c ← c.print (buf ++ r.got)
      pure (c, ⟨[], r.got⟩))
  | stopped {err : ℤ} (hphase : c.phase = .stopped err) : Act c r (.ok (c, {}))

lemma step_act (c : Process) (r : Returns) : Act c r (c.step r) := by
  unfold Process.step
  cases hphase : c.phase with
  | head => exact .send hphase
  | writing left =>
    dsimp only
    unfold writeAll
    split_ifs with hnone hmore
    · exact .failed (by simp [hphase])
    · exact .overwritten hphase hmore
    · exact .wrote hphase (Nat.pos_of_ne_zero hnone) (Nat.le_of_not_lt hmore)
  | header buf =>
    dsimp only
    unfold readFull
    split_ifs with hnone hmore
    · exact .failed (by simp [hphase])
    · refine .overread ?_
      have hpos := List.length_pos_of_ne_nil hnone
      rw [wants_header hphase]
      omega
    · rw [← List.length_append] at hmore
      rw [pure_eq_ok, ok_bind]
      dsimp only
      split_ifs with hfull
      · exact .wholeHeader hphase hnone hfull
      · exact .moreHeader hphase hnone (by omega)
  | body len buf =>
    dsimp only
    unfold readFull
    split_ifs with hnone hmore
    · exact .failed (by simp [hphase])
    · refine .overread ?_
      have hpos := List.length_pos_of_ne_nil hnone
      rw [wants_body hphase]
      omega
    · rw [← List.length_append] at hmore
      rw [pure_eq_ok, ok_bind]
      dsimp only
      split_ifs with hfull
      · exact .wholeBody hphase hnone hfull
      · exact .moreBody hphase hnone (by omega)
  | stopped err => exact .stopped hphase

/-! ### What passes over the socket -/

def requests (cmds : List (List Bytes)) : Bytes := packAll (cmds.map payload)

lemma requests_concat (cmds : List (List Bytes)) (cmd : List Bytes) :
    requests (cmds ++ [cmd]) = requests cmds ++ pack (payload cmd) := by
  simp [requests, packAll_append]

/-- Responses that were read, each with the result of `read_res` and what was printed. -/
def Heard (stack : Stack) (bodies : List Bytes) (results : List (ℤ × List Printed)) : Prop :=
  List.Forall₂ (fun body r => body.length ≤ maxMsg ∧ readRes stack.calls (pack body) = .ok r) bodies
    results

/-- How far the client is: it sent the requests of `done`, the last of them maybe in part, and read
the frames of `bodies`, and maybe a part of one more. -/
inductive Stands (todo done : List (List Bytes)) (bodies : List Bytes)
    (results : List (ℤ × List Printed)) (m : Moved) : Phase → Prop
  | head (hw : m.written = requests done) (hr : m.read = packAll bodies)
    (hn : bodies.length = done.length) (hgood : ∀ r ∈ results, 0 ≤ r.1) :
    Stands todo done bodies results m .head
  | writing {left : Bytes} (hleft : left ≠ []) (hw : m.written ++ left = requests done)
    (hr : m.read = packAll bodies) (hn : bodies.length + 1 = done.length)
    (hgood : ∀ r ∈ results, 0 ≤ r.1) : Stands todo done bodies results m (.writing left)
  | header {buf : Bytes} (hw : m.written = requests done) (hr : m.read = packAll bodies ++ buf)
    (hbuf : buf.length < 4) (hn : bodies.length + 1 = done.length)
    (hgood : ∀ r ∈ results, 0 ≤ r.1) : Stands todo done bodies results m (.header buf)
  | body {len : ℕ} {buf : Bytes} (hw : m.written = requests done)
    (hr : m.read = packAll bodies ++ (leBytes 4 len ++ buf)) (hlen : len ≤ maxMsg)
    (hbuf : buf.length < len) (hn : bodies.length + 1 = done.length)
    (hgood : ∀ r ∈ results, 0 ≤ r.1) : Stands todo done bodies results m (.body len buf)
  | stopped {err : ℤ} (hw : m.written <+: requests done) (hr : packAll bodies <+: m.read)
    (hn : bodies.length ≤ done.length ∧ done.length ≤ bodies.length + 1)
    (hend : err < 0 ∨ err = 0 ∧ todo = [] ∧ bodies.length = done.length ∧
      ∀ r ∈ results, 0 ≤ r.1) : Stands todo done bodies results m (.stopped err)

/-- The client keeps to its script: one request at a time, in order, and what it prints are the
responses that it read. -/
structure Keeps (script : List (List Bytes)) (c : Process) (m : Moved) (done : List (List Bytes))
    (bodies : List Bytes) (results : List (ℤ × List Printed)) : Prop where
  script : script = done ++ c.todo
  fits : ∀ cmd ∈ done, trueSize cmd ≤ maxMsg
  heard : Heard c.stack bodies results
  printed : c.printed = (results.map Prod.snd).flatten
  stands : Stands c.todo done bodies results m c.phase

variable {script : List (List Bytes)} {c c' : Process} {m d : Moved} {done : List (List Bytes)}
  {bodies : List Bytes} {results : List (ℤ × List Printed)} {r : Returns}

lemma keeps_start (script : List (List Bytes)) (stack : Stack) :
    Keeps script { todo := script, stack := stack } {} [] [] [] :=
  ⟨rfl, by simp, .nil, rfl, .head rfl rfl rfl (by simp)⟩

lemma Keeps.stop {m' : Moved} (h : Keeps script c m done bodies results)
    (hw : m'.written <+: requests done) (hr : packAll bodies <+: m'.read)
    (hn : bodies.length ≤ done.length ∧ done.length ≤ bodies.length + 1) {err : ℤ}
    (herr : err < 0) : Keeps script (c.stop err) m' done bodies results :=
  ⟨h.script, h.fits, h.heard, h.printed, .stopped hw hr hn (.inl herr)⟩

/-- What becomes of the client by what `read_res` returns. -/
def Process.outcome (c : Process) (r : Eff (ℤ × List Printed)) : Eff Process := do
  let (err, out) ← r
  pure { c with
    phase := if err < 0 then .stopped err else .head
    printed := c.printed ++ out }

lemma outcome_pack (c : Process) {data : Bytes} (hlen : data.length ≤ maxMsg) (rest : Bytes) :
    c.outcome (readRes c.stack.calls (pack data ++ rest)) = c.print data := by
  have hhead : ofLeBytes ((pack data ++ rest).take 4) = data.length :=
    header_pack (Nat.lt_of_le_of_lt hlen (by decide)) rest
  unfold readRes
  dsimp only
  rw [hhead, payload_pack, List.length_append, pack_length, if_neg (by omega),
    if_neg (Nat.not_lt.mpr hlen), if_neg (by omega)]
  unfold Process.print Process.outcome
  cases printResponse c.stack.calls data data.length with
  | error e => rfl
  | ok p =>
    obtain ⟨rv, out⟩ := p
    rw [ok_bind, ok_bind]
    dsimp only
    by_cases hpart : 0 < rv ∧ rv ≠ data.length
    · rw [if_pos hpart, if_pos hpart]
      rfl
    · rw [if_neg hpart, if_neg hpart]
      rfl

lemma Keeps.print {data : Bytes} (h : Keeps script c m done bodies results)
    (hw : m.written = requests done) (hr : m.read ++ d.read = packAll (bodies ++ [data]))
    (hd : d.written = []) (hlen : data.length ≤ maxMsg) (hn : bodies.length + 1 = done.length)
    (hgood : ∀ r ∈ results, 0 ≤ r.1) (he : c.print data = .ok c') :
    ∃ r, Keeps script c' (m.append d) done (bodies ++ [data]) (results ++ [r]) := by
  have hout := outcome_pack c hlen []
  rw [List.append_nil, he] at hout
  obtain ⟨⟨err, out⟩, hread, he⟩ := bind_eq_ok.mp hout
  obtain rfl := Except.ok.inj he
  have hw' : (m.append d).written = requests done := by
    unfold Moved.append
    rw [hd, List.append_nil, hw]
  have hn' : (bodies ++ [data]).length = done.length := by
    rw [List.length_append, List.length_singleton, hn]
  refine ⟨(err, out), h.script, h.fits, ?_, ?_, ?_⟩
  · exact List.rel_append h.heard (.cons ⟨hlen, hread⟩ .nil)
  · simp [h.printed]
  · dsimp only
    by_cases hneg : err < 0
    · rw [if_pos hneg]
      exact .stopped (hw' ▸ List.prefix_refl _) (hr ▸ List.prefix_refl _) (by omega) (.inl hneg)
    · rw [if_neg hneg]
      refine .head hw' hr hn' fun r hr => ?_
      rcases List.mem_append.mp hr with hr | hr
      · exact hgood r hr
      · rw [List.mem_singleton.mp hr]
        exact not_lt.mp hneg

lemma Moved.append_nil (m : Moved) : m.append {} = m := by
  simp [Moved.append]

lemma Keeps.send (h : Keeps script c m done bodies results) (hw : m.written = requests done)
    (hr : m.read = packAll bodies) (hn : bodies.length = done.length)
    (hgood : ∀ r ∈ results, 0 ≤ r.1) (he : c.send = .ok c') :
    ∃ done', Keeps script c' m done' bodies results := by
  have hw' : m.written <+: requests done := hw ▸ List.prefix_refl _
  have hr' : packAll bodies <+: m.read := hr ▸ List.prefix_refl _
  unfold Process.send at he
  cases ht : c.todo with
  | nil =>
    rw [ht] at he
    obtain rfl := Except.ok.inj he
    exact ⟨done, h.script, h.fits, h.heard, h.printed,
      .stopped hw' hr' (by omega) (.inr ⟨rfl, ht, hn, hgood⟩)⟩
  | cons cmd todo =>
    rw [ht] at he
    dsimp only at he
    have hsent := sendReq_spec cmd
    generalize sendReq cmd = sent at hsent he
    cases hsent with
    | refused _ =>
      obtain rfl := Except.ok.inj he
      exact ⟨done, h.stop hw' hr' (by omega) (by decide)⟩
    | overrun _ _ => simp at he
    | frame hfits =>
      obtain rfl := Except.ok.inj he
      refine ⟨done ++ [cmd], ?_, ?_, h.heard, h.printed, .writing ?_ ?_ hr ?_ hgood⟩
      · rw [h.script, ht, List.append_assoc]
        rfl
      · intro x hx
        rcases List.mem_append.mp hx with hx | hx
        · exact h.fits x hx
        · rwa [List.mem_singleton.mp hx]
      · refine List.ne_nil_of_length_pos ?_
        rw [pack_length]
        omega
      · rw [hw, requests_concat]
      · rw [List.length_append, List.length_singleton, hn]

lemma Keeps.readBody {hd got : Bytes} (h : Keeps script c m done bodies results)
    (hw : m.written = requests done) (hr : m.read ++ got = packAll bodies ++ hd)
    (hlen : hd.length = 4) (hn : bodies.length + 1 = done.length)
    (hgood : ∀ r ∈ results, 0 ≤ r.1) (he : c.readBody hd = .ok c') :
    ∃ bodies' results', Keeps script c' (m.append ⟨[], got⟩) done bodies' results' := by
  have hw' : (m.append ⟨[], got⟩).written = requests done := (List.append_nil _).trans hw
  have hhd : leBytes 4 (ofLeBytes hd) = hd := by
    rw [← hlen]
    exact leBytes_ofLeBytes hd
  unfold Process.readBody at he
  dsimp only at he
  split_ifs at he with hbig hzero
  · obtain rfl := Except.ok.inj he
    refine ⟨bodies, results, h.stop (hw' ▸ List.prefix_refl _) ?_ (by omega) (by decide)⟩
    exact ⟨hd, hr.symm⟩
  · rw [hzero] at hhd
    have hr' : m.read ++ got = packAll (bodies ++ [[]]) := by
      rw [packAll_append, hr, ← hhd]
      rfl
    obtain ⟨r, h'⟩ := h.print (d := ⟨[], got⟩) hw hr' rfl (Nat.zero_le _) hn hgood he
    exact ⟨_, _, h'⟩
  · obtain rfl := Except.ok.inj he
    refine ⟨bodies, results, h.script, h.fits, h.heard, h.printed, .body hw' ?_ ?_ ?_ hn hgood⟩
    · rw [List.append_nil, hhd]
      exact hr
    · exact Nat.le_of_not_lt hbig
    · exact Nat.pos_of_ne_zero hzero

lemma Keeps.bounds (h : Keeps script c m done bodies results) :
    m.written <+: requests done ∧ packAll bodies <+: m.read ∧
      bodies.length ≤ done.length ∧ done.length ≤ bodies.length + 1 := by
  have hs := h.stands
  generalize c.phase = phase at hs
  cases hs with
  | head hw hr hn => exact ⟨hw ▸ List.prefix_refl _, hr ▸ List.prefix_refl _, by omega⟩
  | writing _ hw hr hn => exact ⟨⟨_, hw⟩, hr ▸ List.prefix_refl _, by omega⟩
  | header hw hr _ hn => exact ⟨hw ▸ List.prefix_refl _, ⟨_, hr.symm⟩, by omega⟩
  | body hw hr _ _ hn => exact ⟨hw ▸ List.prefix_refl _, ⟨_, hr.symm⟩, by omega⟩
  | stopped hw hr hn => exact ⟨hw, hr, hn⟩

/-- **One step** of the client keeps to the script. -/
theorem Keeps.step (h : Keeps script c m done bodies results) (he : c.step r = .ok (c', d)) :
    ∃ done' bodies' results', Keeps script c' (m.append d) done' bodies' results' := by
  have hs := h.stands
  have hact := step_act c r
  generalize c.step r = x at hact he
  cases hact with
  | send hphase =>
    rw [hphase] at hs
    cases hs with
    | head hw hr hn hgood =>
      obtain ⟨c₁, hsend, he⟩ := bind_eq_ok.mp he
      obtain ⟨rfl, rfl⟩ := Prod.mk.inj (Except.ok.inj he)
      obtain ⟨done', h'⟩ := h.send hw hr hn hgood hsend
      rw [Moved.append_nil]
      exact ⟨done', bodies, results, h'⟩
  | failed =>
    obtain ⟨rfl, rfl⟩ := Prod.mk.inj (Except.ok.inj he)
    obtain ⟨hw, hr, hn⟩ := h.bounds
    rw [Moved.append_nil]
    exact ⟨done, bodies, results, h.stop hw hr hn (by decide)⟩
  | overwritten | overread => cases he
  | @wrote left hphase hpos hle =>
    rw [hphase] at hs
    cases hs with
    | writing hleft hw hr hn hgood =>
      obtain ⟨rfl, rfl⟩ := Prod.mk.inj (Except.ok.inj he)
      have hr' : (m.append ⟨left.take r.wrote, []⟩).read = packAll bodies :=
        (List.append_nil _).trans hr
      have hw' : (m.append ⟨left.take r.wrote, []⟩).written ++ left.drop r.wrote =
          requests done := by
        unfold Moved.append
        dsimp only
        rw [List.append_assoc, List.take_append_drop, hw]
      refine ⟨done, bodies, results, h.script, h.fits, h.heard, h.printed, ?_⟩
      dsimp only
      split_ifs with hend
      · rw [hend, List.append_nil] at hw'
        exact .header hw' (by rw [hr', List.append_nil]) (by simp) hn hgood
      · exact .writing hend hw' hr' hn hgood
  | moreHeader hphase hne hmore =>
    rw [hphase] at hs
    cases hs with
    | header hw hr hbuf hn hgood =>
      obtain ⟨rfl, rfl⟩ := Prod.mk.inj (Except.ok.inj he)
      refine ⟨done, bodies, results, h.script, h.fits, h.heard, h.printed, .header ?_ ?_ hmore hn
        hgood⟩
      · exact (List.append_nil _).trans hw
      · exact (congrArg (· ++ r.got) hr).trans (List.append_assoc ..)
  | wholeHeader hphase hne hfull =>
    rw [hphase] at hs
    cases hs with
    | header hw hr hbuf hn hgood =>
      obtain ⟨c₁, hnext, he⟩ := bind_eq_ok.mp he
      obtain ⟨rfl, rfl⟩ := Prod.mk.inj (Except.ok.inj he)
      exact ⟨done, h.readBody hw (by rw [hr, List.append_assoc]) hfull hn hgood hnext⟩
  | moreBody hphase hne hmore =>
    rw [hphase] at hs
    cases hs with
    | body hw hr hlen hbuf hn hgood =>
      obtain ⟨rfl, rfl⟩ := Prod.mk.inj (Except.ok.inj he)
      refine ⟨done, bodies, results, h.script, h.fits, h.heard, h.printed, .body ?_ ?_ hlen hmore hn
        hgood⟩
      · exact (List.append_nil _).trans hw
      · refine (congrArg (· ++ r.got) hr).trans ?_
        rw [List.append_assoc, List.append_assoc]
  | @wholeBody len buf hphase hne hfull =>
    rw [hphase] at hs
    cases hs with
    | body hw hr hlen hbuf hn hgood =>
      obtain ⟨c₁, hnext, he⟩ := bind_eq_ok.mp he
      obtain ⟨rfl, rfl⟩ := Prod.mk.inj (Except.ok.inj he)
      have hr' : m.read ++ r.got = packAll (bodies ++ [buf ++ r.got]) := by
        rw [hr, packAll_append, ← hfull]
        simp [pack]
      obtain ⟨r', h'⟩ := h.print (d := ⟨[], r.got⟩) hw hr' rfl (hfull ▸ hlen) hn hgood hnext
      exact ⟨done, _, _, h'⟩
  | stopped =>
    obtain ⟨rfl, rfl⟩ := Prod.mk.inj (Except.ok.inj he)
    rw [Moved.append_nil]
    exact ⟨done, bodies, results, h⟩

def total (ms : List Moved) : Moved := ms.foldr Moved.append {}

lemma Keeps.run {rs : List Returns} {ms : List Moved} (h : Keeps script c m done bodies results)
    (he : run Process.step c rs = .ok (c', ms)) :
    ∃ done' bodies' results', Keeps script c' (m.append (total ms)) done' bodies' results' := by
  induction rs generalizing c m ms done bodies results with
  | nil =>
    obtain ⟨rfl, rfl⟩ := Prod.mk.inj (Except.ok.inj he)
    exact ⟨done, bodies, results, by rwa [total, List.foldr_nil, Moved.append_nil]⟩
  | cons r rs ih =>
    cases hstep : c.step r with
    | error e => simp [run, hstep] at he
    | ok p =>
      obtain ⟨c₁, d⟩ := p
      rw [run_cons hstep] at he
      cases hrest : Lib.Runs.run Process.step c₁ rs with
      | error e => simp [hrest] at he
      | ok q =>
        obtain ⟨c₂, ds⟩ := q
        rw [hrest] at he
        obtain ⟨rfl, rfl⟩ := Prod.mk.inj (Except.ok.inj he)
        obtain ⟨done₁, bodies₁, results₁, h₁⟩ := h.step hstep
        obtain ⟨done₂, bodies₂, results₂, h₂⟩ := ih h₁ hrest
        refine ⟨done₂, bodies₂, results₂, ?_⟩
        have hassoc : m.append (total (d :: ds)) = (m.append d).append (total ds) := by
          simp [total, Moved.append]
        rwa [hassoc]

/-- What ends the process of the client: `write` or `read` claims to have moved more than it was
asked to, the size of a request wraps around 32 bits, or a whole response is one that is read past
its end or is too deep for the stack. -/
inductive Fails (c : Process) (r : Returns) : Fault → Prop
  | write {left : Bytes} (hphase : c.phase = .writing left) (h : left.length < r.wrote) :
    Fails c r .assertion
  | read (h : c.wants < r.got.length) : Fails c r .assertion
  | send {cmd : List Bytes} {todo : List (List Bytes)} (hphase : c.phase = .head)
    (htodo : c.todo = cmd :: todo) (h : payloadSize cmd ≤ maxMsg) (h' : maxMsg < trueSize cmd) :
    Fails c r .access
  | runaway {len : ℕ} {buf : Bytes} (hphase : c.phase = .body len buf)
    (hlen : (buf ++ r.got).length = len) (w : Walk c.stack.calls 1 (buf ++ r.got) .runaway) :
    Fails c r .access
  | deep {len : ℕ} {buf : Bytes} (hphase : c.phase = .body len buf)
    (hlen : (buf ++ r.got).length = len) (w : Walk c.stack.calls 1 (buf ++ r.got) .deep) :
    Fails c r .overflow

lemma print_error {data : Bytes} {e : Fault} (hlen : data.length ≤ maxMsg)
    (he : c.print data = .error e) :
    e = .access ∧ Walk c.stack.calls 1 data .runaway ∨
      e = .overflow ∧ Walk c.stack.calls 1 data .deep := by
  have hprint := printResponse_printing c.stack.calls hlen
  unfold Process.print at he
  generalize printResponse c.stack.calls data data.length = x at hprint he
  cases hprint with
  | bad => simp at he
  | taken => simp at he
  | runaway w => exact .inl ⟨(Except.error.inj he).symm, w⟩
  | deep w => exact .inr ⟨(Except.error.inj he).symm, w⟩

/-- There is room on the stack to see that there are no bytes. -/
lemma print_nil (c : Process) : c.print [] = .ok (c.stop (-1)) := by
  have hcalls : c.stack.calls = (c.stack.calls - 1) + 1 := by
    have := c.stack.two_le
    omega
  unfold Process.print
  rw [hcalls]
  simp [printResponse, Process.stop]

lemma readBody_ok (c : Process) (hd : Bytes) : ∃ c', c.readBody hd = .ok c' := by
  unfold Process.readBody
  dsimp only
  rw [print_nil]
  split_ifs
  all_goals exact ⟨_, rfl⟩

lemma Keeps.fails {e : Fault} (h : Keeps script c m done bodies results)
    (he : c.step r = .error e) : Fails c r e := by
  have hs := h.stands
  have hact := step_act c r
  generalize c.step r = x at hact he
  cases hact with
  | send hphase =>
    unfold Process.send at he
    cases htodo : c.todo with
    | nil => simp [htodo] at he
    | cons cmd todo =>
      have hsent := sendReq_spec cmd
      rw [htodo] at he
      dsimp only at he
      generalize sendReq cmd = sent at hsent he
      cases hsent with
      | refused => simp at he
      | frame => simp at he
      | overrun hbig hmod =>
        obtain rfl := Except.error.inj he
        exact .send hphase htodo (payloadSize_eq cmd ▸ hmod) hbig
  | failed | wrote | moreHeader | moreBody | stopped => cases he
  | overwritten hphase hmore =>
    obtain rfl := Except.error.inj he
    exact .write hphase hmore
  | overread hmore =>
    obtain rfl := Except.error.inj he
    exact .read hmore
  | @wholeHeader buf =>
    obtain ⟨c', hbody⟩ := readBody_ok c (buf ++ r.got)
    simp [hbody] at he
  | @wholeBody len buf hphase hne hfull =>
    rw [hphase] at hs
    cases hs with
    | body hw hr hlen =>
      cases hprint : c.print (buf ++ r.got) with
      | ok c' => simp [hprint] at he
      | error e' =>
        rw [hprint] at he
        obtain rfl := Except.error.inj he
        rcases print_error (hfull ▸ hlen) hprint with ⟨rfl, w⟩ | ⟨rfl, w⟩
        · exact .runaway hphase hfull w
        · exact .deep hphase hfull w

/-- **The client keeps to its script**, whatever the sizes of the writes and reads, and whatever the
bytes that it reads: each request is sent whole before its response is read, and no request before
the response to the one before it; and what is printed are the responses. It does so in every run,
up to a step that fails if there is one. -/
theorem keeps_of_run (script : List (List Bytes)) (stack : Stack) (rs : List Returns) :
    ∃ front c ms done bodies results, front <+: rs ∧
      run Process.step { todo := script, stack := stack } front = .ok (c, ms) ∧
      Keeps script c (total ms) done bodies results ∧
      (front = rs ∨ ∃ r rest e, rs = front ++ r :: rest ∧ c.step r = .error e ∧ Fails c r e) := by
  induction rs using List.reverseRecOn with
  | nil => exact ⟨[], _, [], [], [], [], List.prefix_rfl, rfl, keeps_start script stack, .inl rfl⟩
  | append_singleton rs r ih =>
    obtain ⟨front, c, ms, done, bodies, results, hfront, hrun, hkeeps, hend⟩ := ih
    rcases hend with rfl | ⟨r', rest, e, rfl, hstep, hfails⟩
    · cases hstep : c.step r with
      | error e =>
        exact ⟨front, c, ms, done, bodies, results, List.prefix_append _ _, hrun, hkeeps,
          .inr ⟨r, [], e, rfl, hstep, hkeeps.fails hstep⟩⟩
      | ok p =>
        obtain ⟨c', d⟩ := p
        have hrun' := run_append hrun (run_cons hstep [])
        obtain ⟨done', bodies', results', hkeeps'⟩ := (keeps_start script stack).run hrun'
        exact ⟨front ++ [r], c', ms ++ [d], done', bodies', results', List.prefix_rfl, hrun',
          hkeeps', .inl rfl⟩
    · -- it has failed before
      refine ⟨front, c, ms, done, bodies, results, hfront.trans (List.prefix_append _ _), hrun,
        hkeeps, .inr ⟨r', rest ++ [r], e, ?_, hstep, hfails⟩⟩
      simp

/-- What comes after a response is printed with it, where its length wraps around. -/
example : run Process.step { todo := [[[103]]], stack := .least }
    [⟨0, []⟩, ⟨13, []⟩, ⟨0, [8, 0, 0, 0]⟩, ⟨0, [2, 255, 255, 255, 255, 97, 98, 99]⟩] =
      .error .access := by
  rfl

/-! ### Reading a response -/

/-- The calls of `read` until the client waits for no more, where the socket gives these bytes in
pieces of any size, and then ends. -/
def Process.receive : ℕ → Process → Bytes → (ℕ → ℕ) → Eff Process
  | 0, _, _, _ => throw .spin
  | fuel + 1, c, socket, sizes =>
    if c.wants = 0 then pure c
    else do
      let got := socket.take (min c.wants (sizes 0 + 1))
      let (c, _) ← c.step ⟨0, got⟩
      c.receive fuel (socket.drop got.length) fun i => sizes (i + 1)

/-- The client waits for more of a response, of which it has read these bytes. -/
inductive Waits : Phase → Bytes → Prop
  | header {buf : Bytes} (hbuf : buf.length < 4) : Waits (.header buf) buf
  | body {len : ℕ} {buf : Bytes} (hlen : len ≤ maxMsg) (hbuf : buf.length < len) :
    Waits (.body len buf) (leBytes 4 len ++ buf)

lemma Waits.wants_pos {front : Bytes} (h : Waits c.phase front) : 0 < c.wants := by
  unfold Process.wants
  generalize c.phase = phase at h
  cases h with
  | header hbuf => exact Nat.sub_pos_of_lt hbuf
  | body _ hbuf => exact Nat.sub_pos_of_lt hbuf

lemma receive_rest {fuel : ℕ} (h : c.wants = 0) (socket : Bytes) (sizes : ℕ → ℕ) :
    c.receive (fuel + 1) socket sizes = .ok c := by
  rw [Process.receive, if_pos h]
  rfl

/-- The client does not wait after a response. -/
lemma receive_outcome (c : Process) (x : Eff (ℤ × List Printed)) (fuel : ℕ) (socket : Bytes)
    (sizes : ℕ → ℕ) :
    (do
      let c ← c.outcome x
      c.receive (fuel + 1) socket sizes) = c.outcome x := by
  unfold Process.outcome
  cases x with
  | error e => rfl
  | ok p =>
    obtain ⟨err, out⟩ := p
    refine receive_rest ?_ socket sizes
    unfold Process.wants
    dsimp only
    by_cases hneg : err < 0
    · rw [if_pos hneg]
    · rw [if_neg hneg]

/-- A response that ends too early is an error. -/
lemma readRes_short {front : Bytes} {phase : Phase} (h : Waits phase front) (stack : ℕ) :
    readRes stack front = .ok (-1, []) := by
  cases h with
  | header hbuf =>
    unfold readRes
    rw [if_pos hbuf]
    rfl
  | @body len buf hlen hbuf =>
    have hhead : ofLeBytes ((leBytes 4 len ++ buf).take 4) = len := by
      rw [List.take_left' (leBytes_length 4 len), ofLeBytes_leBytes]
      exact Nat.mod_eq_of_lt (Nat.lt_of_le_of_lt hlen (by decide))
    unfold readRes
    dsimp only
    rw [hhead, List.length_append, leBytes_length, if_neg (by omega),
      if_neg (Nat.not_lt.mpr hlen), if_pos (by omega)]
    rfl

/-- What the client does with more bytes: it waits for still more, or it is done with the response,
whatever follows. -/
inductive Fed (c : Process) (front : Bytes) : Eff Process → Prop
  | more {c' : Process} (hw : Waits c'.phase front) (hrest : c' = { c with phase := c'.phase }) :
    Fed c front (.ok c')
  | whole {x : Eff Process} (h : ∀ rest, x = c.outcome (readRes c.stack.calls (front ++ rest))) :
    Fed c front x

lemma fed_readBody (c : Process) {hd : Bytes} (hlen : hd.length = 4) :
    Fed c hd (c.readBody hd) := by
  have hhd : leBytes 4 (ofLeBytes hd) = hd := by
    rw [← hlen]
    exact leBytes_ofLeBytes hd
  unfold Process.readBody
  dsimp only
  by_cases hbig : maxMsg < ofLeBytes hd
  · rw [if_pos hbig]
    refine .whole fun rest => ?_
    unfold readRes
    rw [List.length_append, if_neg (by omega), List.take_left' hlen]
    dsimp only
    rw [if_pos hbig]
    simp [Process.outcome, Process.stop]
  · rw [if_neg hbig]
    by_cases hzero : ofLeBytes hd = 0
    · rw [if_pos hzero]
      rw [hzero] at hhd
      refine .whole fun rest => ?_
      have hpack : hd = pack [] := by
        rw [← hhd]
        rfl
      rw [hpack, outcome_pack c (Nat.zero_le _)]
    · rw [if_neg hzero]
      have hw : Waits (.body (ofLeBytes hd) []) (leBytes 4 (ofLeBytes hd) ++ []) :=
        .body (Nat.le_of_not_lt hbig) (Nat.pos_of_ne_zero hzero)
      rw [List.append_nil, hhd] at hw
      exact .more hw rfl

lemma readFull_got {n : ℕ} {buf got : Bytes} (hne : got ≠ []) (hle : (buf ++ got).length ≤ n) :
    readFull n buf got = .ok (some (buf ++ got)) := by
  rw [List.length_append] at hle
  unfold readFull
  rw [if_neg hne, if_neg (Nat.not_lt.mpr hle)]
  rfl

/-- **More bytes**, and no more than the client waits for. -/
lemma step_got {front got : Bytes} (h : Waits c.phase front) (hne : got ≠ [])
    (hle : got.length ≤ c.wants) : ∃ x, Fed c (front ++ got) x ∧
      c.step ⟨0, got⟩ = (do
        let c ← x
        pure (c, ⟨[], got⟩)) := by
  unfold Process.wants at hle
  unfold Process.step
  generalize hphase : c.phase = phase at h hle
  cases h with
  | @header buf hbuf =>
    have hle' : (front ++ got).length ≤ 4 := by
      rw [List.length_append]
      dsimp only at hle
      omega
    dsimp only
    rw [readFull_got hne hle', ok_bind]
    dsimp only
    by_cases hfull : (front ++ got).length = 4
    · rw [if_pos hfull]
      exact ⟨_, fed_readBody c hfull, rfl⟩
    · rw [if_neg hfull]
      have hmore : Fed c (front ++ got) (.ok { c with phase := .header (front ++ got) }) :=
        .more (.header (by omega)) rfl
      exact ⟨_, hmore, rfl⟩
  | @body len buf hlen hbuf =>
    have hle' : (buf ++ got).length ≤ len := by
      rw [List.length_append]
      dsimp only at hle
      omega
    dsimp only
    rw [readFull_got hne hle', ok_bind, List.append_assoc]
    dsimp only
    by_cases hfull : (buf ++ got).length = len
    · rw [if_pos hfull]
      refine ⟨_, .whole fun rest => ?_, rfl⟩
      rw [← hfull] at hlen
      rw [← outcome_pack c hlen rest, ← hfull]
      rfl
    · rw [if_neg hfull]
      have hmore : Fed c (leBytes 4 len ++ (buf ++ got))
          (.ok { c with phase := .body len (buf ++ got) }) := .more (.body hlen (by omega)) rfl
      exact ⟨_, hmore, rfl⟩

/-- **Short reads make no difference**: in pieces of any size, a response is printed, or is found to
be too large, too short or broken, as `read_res` finds it in one piece. -/
theorem receive_eq {front socket : Bytes} (h : Waits c.phase front) {sizes : ℕ → ℕ} {fuel : ℕ}
    (hf : socket.length + 1 < fuel) :
    c.receive fuel socket sizes = c.outcome (readRes c.stack.calls (front ++ socket)) := by
  induction fuel generalizing c front socket sizes with
  | zero => omega
  | succ fuel ih =>
    obtain ⟨fuel, rfl⟩ : ∃ k, fuel = k + 1 := ⟨fuel - 1, by omega⟩
    have hpos := h.wants_pos
    rw [Process.receive, if_neg (by omega)]
    cases socket with
    | nil =>
      have hstop : c.step ⟨0, []⟩ = .ok (c.stop (-1), {}) := by
        unfold Process.step
        generalize c.phase = phase at h
        cases h <;> rfl
      rw [List.take_nil, List.append_nil, readRes_short h c.stack.calls]
      dsimp only
      rw [hstop, ok_bind]
      dsimp only
      rw [receive_rest rfl]
      simp [Process.outcome, Process.stop]
    | cons b socket =>
      dsimp only
      generalize hgot : (b :: socket).take (min c.wants (sizes 0 + 1)) = got
      have hlen : got.length = min (min c.wants (sizes 0 + 1)) (socket.length + 1) := by
        rw [← hgot, List.length_take, List.length_cons]
      have hne : got ≠ [] := List.ne_nil_of_length_pos (by omega)
      have hsplit : got ++ (b :: socket).drop got.length = b :: socket := by
        have hprefix : got <+: b :: socket := hgot ▸ List.take_prefix _ _
        exact List.prefix_iff_eq_append.mp hprefix
      obtain ⟨x, hfed, hstep⟩ := step_got h hne (by omega)
      rw [hstep]
      cases hfed with
      | @more c' hw hrest =>
        have hless : ((b :: socket).drop got.length).length + 1 < fuel + 1 := by
          rw [List.length_drop, List.length_cons]
          rw [List.length_cons] at hf
          omega
        rw [ok_bind, pure_eq_ok, ok_bind, ih hw hless, List.append_assoc, hsplit, hrest]
        rfl
      | whole hall =>
        have hwhole := hall ((b :: socket).drop got.length)
        rw [List.append_assoc, hsplit] at hwhole
        rw [hwhole]
        refine Eq.trans ?_ (receive_outcome c (readRes c.stack.calls (front ++ b :: socket)) fuel
          ((b :: socket).drop got.length) fun i => sizes (i + 1))
        simp only [bind_assoc, pure_bind]

def waiting : Process := { phase := .header [], todo := [], stack := .least }

theorem receive_eq_bytes : waiting.receive 7 [1, 0, 0, 0, 0] (fun _ => 0) =
    waiting.outcome (readRes 2 [1, 0, 0, 0, 0]) := by
  have hwaits : Waits waiting.phase [] := .header (by decide)
  have hlen : ([1, 0, 0, 0, 0] : Bytes).length + 1 < 7 := by decide
  exact receive_eq hwaits hlen

end ByoRedis.Session
