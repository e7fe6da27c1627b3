import ByoRedis.RequestSpec

/-!
The requests that `parse_req` accepts.

Here the cursor is a position in the bytes of the request, and a read that is not inside them fails.
No read of `parse_req` fails, and what it accepts is what `send_req` writes.
-/

namespace ByoRedis.RequestGrammar

open ByoRedis.Basic ByoRedis.Proto ByoRedis.Conn ByoRedis.Client ByoRedis.RequestSpec
open ByoRedis.Lib.Runs ByoRedis.Lib.LittleEndian ByoRedis.Lib.Frames

/-! ### The cursor -/

/-- `out.assign(cur, cur + n)`, from the bytes of a request. -/
def assignFrom (data : Bytes) (cur n : ℕ) : Eff Bytes :=
  if cur + n ≤ data.length then pure ((data.drop cur).take n) else throw .access

/-- `read_u32`, with the cursor and the end of `data`. -/
def readU32At (data : Bytes) (cur : ℕ) : Eff (Option (ℕ × ℕ)) :=
  if data.length < cur + 4 then pure none
  else do
    let out ← readAt data cur 4
    pure (some (out, cur + 4))

/-- `read_str` -/
def readStrAt (data : Bytes) (cur n : ℕ) : Eff (Option (Bytes × ℕ)) :=
  if data.length < cur + n then pure none
  else do
    let out ← assignFrom data cur n
    pure (some (out, cur + n))

/-- The loop of `parse_req` and what comes after it: what is returned, and `out`. -/
def parseStrsAt (data : Bytes) (nstr : ℕ) : ℕ → ℕ → List Bytes → Eff (ℤ × List Bytes)
  | 0, _, _ => throw .spin
  | fuel + 1, cur, out =>
    if out.length < nstr then do
      match ← readU32At data cur with
      | none => pure (-1, out)
      | some (len, cur) =>
        match ← readStrAt data cur len with
        | none => pure (-1, out ++ [[]])
        | some (s, cur) => parseStrsAt data nstr fuel cur (out ++ [s])
    else if cur = data.length then pure (0, out)
    else pure (-1, out)

/-- `parse_req` -/
def parseReqAt (data : Bytes) (out : List Bytes) : Eff (ℤ × List Bytes) := do
  match ← readU32At data 0 with
  | none => pure (-1, out)
  | some (nstr, cur) =>
    if maxArgs < nstr then pure (-1, out) else parseStrsAt data nstr (nstr + 1) cur out

variable {data rest : Bytes} {cur n : ℕ} {cmd out : List Bytes}

lemma readU32At_eq (h : cur ≤ data.length) :
    readU32At data cur = .ok ((readU32 (data.drop cur)).map fun x => (x.1, cur + 4)) := by
  unfold readU32At readU32 readAt
  rw [List.length_drop]
  by_cases hshort : data.length < cur + 4
  · rw [if_pos hshort, if_pos (by omega)]
    rfl
  · rw [if_neg hshort, if_pos (Nat.le_of_not_lt hshort), if_neg (by omega)]
    rfl

lemma readStrAt_eq (h : cur ≤ data.length) :
    readStrAt data cur n = .ok ((readStr (data.drop cur) n).map fun x => (x.1, cur + n)) := by
  unfold readStrAt readStr assignFrom
  rw [List.length_drop]
  by_cases hshort : data.length < cur + n
  · rw [if_pos hshort, if_pos (by omega)]
    rfl
  · rw [if_neg hshort, if_pos (Nat.le_of_not_lt hshort), if_neg (by omega)]
    rfl

lemma readU32_eq_some (h : readU32 data = some (n, rest)) :
    data = leBytes 4 n ++ rest ∧ n < 2 ^ 32 := by
  unfold readU32 at h
  by_cases hshort : data.length < 4
  · rw [if_pos hshort] at h
    cases h
  · rw [if_neg hshort, Option.some.injEq, Prod.mk.injEq] at h
    obtain ⟨rfl, rfl⟩ := h
    have hlen : (data.take 4).length = 4 := List.length_take_of_le (Nat.le_of_not_lt hshort)
    have hbytes := leBytes_ofLeBytes (data.take 4)
    have hlt := ofLeBytes_lt (data.take 4)
    rw [hlen] at hbytes hlt
    exact ⟨by rw [hbytes, List.take_append_drop], hlt⟩

lemma readStr_eq_some {s : Bytes} (h : readStr data n = some (s, rest)) :
    data = s ++ rest ∧ s.length = n := by
  unfold readStr at h
  by_cases hshort : data.length < n
  · rw [if_pos hshort] at h
    cases h
  · rw [if_neg hshort, Option.some.injEq, Prod.mk.injEq] at h
    obtain ⟨rfl, rfl⟩ := h
    exact ⟨(List.take_append_drop n data).symm, List.length_take_of_le (Nat.le_of_not_lt hshort)⟩

lemma parseStrs_eq_some (h : parseStrs n data = some (out, rest)) :
    out.length = n ∧ data = packAll out ++ rest := by
  induction n generalizing data out with
  | zero =>
    obtain ⟨rfl, rfl⟩ := Prod.mk.inj (Option.some.inj h)
    exact ⟨rfl, rfl⟩
  | succ n ih =>
    unfold parseStrs at h
    obtain ⟨⟨len, data₁⟩, hlen, h⟩ := Option.bind_eq_some_iff.mp h
    obtain ⟨⟨s, data₂⟩, hs, h⟩ := Option.bind_eq_some_iff.mp h
    obtain ⟨⟨out', data₃⟩, hout, h⟩ := Option.bind_eq_some_iff.mp h
    obtain ⟨rfl, rfl⟩ := Prod.mk.inj (Option.some.inj h)
    obtain ⟨rfl, -⟩ := readU32_eq_some hlen
    obtain ⟨rfl, rfl⟩ := readStr_eq_some hs
    obtain ⟨rfl, rfl⟩ := ih hout
    refine ⟨rfl, ?_⟩
    rw [packAll_cons, pack, List.append_assoc, List.append_assoc]

/-- **A vector that is parsed** is the one whose payload the bytes are. -/
theorem parseReq_eq_some (h : parseReq data = some cmd) :
    data = payload cmd ∧ cmd.length ≤ maxArgs := by
  unfold parseReq at h
  obtain ⟨⟨nstr, data₁⟩, hn, hargs⟩ := Option.bind_eq_some_iff.mp h
  obtain ⟨hdata, -⟩ := readU32_eq_some hn
  dsimp only at hargs
  by_cases hmany : maxArgs < nstr
  · rw [if_pos hmany] at hargs
    cases hargs
  · rw [if_neg hmany] at hargs
    obtain ⟨⟨out, data₂⟩, hout, hend⟩ := Option.bind_eq_some_iff.mp hargs
    obtain ⟨rfl, rfl⟩ := parseStrs_eq_some hout
    dsimp only at hend
    by_cases hrest : data₂ = []
    · rw [if_pos hrest] at hend
      obtain rfl := Option.some.inj hend
      rw [hdata, hrest, List.append_nil]
      exact ⟨rfl, Nat.le_of_not_lt hmany⟩
    · rw [if_neg hrest] at hend
      cases hend

/-- What `parse_req` returns, where it reads inside the bytes. -/
inductive Returns (parsed : Option (List Bytes)) : ℤ × List Bytes → Prop
  | accepted {out : List Bytes} (h : parsed = some out) : Returns parsed (0, out)
  | refused {out : List Bytes} (h : parsed = none) : Returns parsed (-1, out)

lemma parseStrsAt_spec (left : ℕ) (hcur : cur ≤ data.length) {fuel : ℕ} (hf : left < fuel) :
    ∃ r, parseStrsAt data (out.length + left) fuel cur out = .ok r ∧
      Returns ((parseStrs left (data.drop cur)).bind fun x =>
        if x.2 = [] then some (out ++ x.1) else none) r := by
  induction left generalizing cur out fuel with
  | zero =>
    obtain ⟨fuel, rfl⟩ : ∃ k, fuel = k + 1 := ⟨fuel - 1, by omega⟩
    rw [parseStrsAt, if_neg (by omega), parseStrs, Option.bind_some, List.append_nil]
    by_cases hend : cur = data.length
    · rw [if_pos hend, if_pos (by rw [hend, List.drop_length])]
      exact ⟨_, rfl, .accepted rfl⟩
    · have hne : data.drop cur ≠ [] := by
        rw [Ne, List.drop_eq_nil_iff]
        omega
      rw [if_neg hend, if_neg hne]
      exact ⟨_, rfl, .refused rfl⟩
  | succ left ih =>
    obtain ⟨fuel, rfl⟩ : ∃ k, fuel = k + 1 := ⟨fuel - 1, by omega⟩
    rw [parseStrsAt, if_pos (by omega), readU32At_eq hcur, ok_bind]
    cases hlen : readU32 (data.drop cur) with
    | none => exact ⟨_, rfl, .refused (by simp [parseStrs, hlen])⟩
    | some x =>
      obtain ⟨len, data₁⟩ := x
      obtain ⟨hdata, -⟩ := readU32_eq_some hlen
      have hlong : cur + 4 ≤ data.length := by
        have := congrArg List.length hdata
        rw [List.length_drop, List.length_append, leBytes_length] at this
        omega
      have hdata₁ : data₁ = data.drop (cur + 4) := by
        rw [← List.drop_drop, hdata, List.drop_left' (leBytes_length 4 len)]
      dsimp only [Option.map_some]
      rw [readStrAt_eq hlong, ok_bind, ← hdata₁]
      cases hs : readStr data₁ len with
      | none => exact ⟨_, rfl, .refused (by simp [parseStrs, hlen, hs])⟩
      | some y =>
        obtain ⟨s, data₂⟩ := y
        obtain ⟨hdata', rfl⟩ := readStr_eq_some hs
        have hlong' : cur + 4 + s.length ≤ data.length := by
          have := congrArg List.length (hdata₁.symm.trans hdata')
          rw [List.length_drop, List.length_append] at this
          omega
        have hdata₂ : data.drop (cur + 4 + s.length) = data₂ := by
          rw [← List.drop_drop, ← hdata₁, hdata', List.drop_left]
        obtain ⟨r, he, hr⟩ := @ih _ (out ++ [s]) hlong' fuel (by omega)
        have hcount : out.length + (left + 1) = (out ++ [s]).length + left := by
          rw [List.length_append, List.length_singleton]
          omega
        have hparse : parseStrs (left + 1) (data.drop cur) =
            (parseStrs left data₂).map fun x => (s :: x.1, x.2) := by
          simp only [parseStrs, hlen, hs, Option.bind_eq_bind, Option.bind_some]
          rw [Option.map_eq_bind]
          rfl
        refine ⟨r, by rw [hcount]; exact he, ?_⟩
        rw [hdata₂] at hr
        rw [hparse, Option.bind_map]
        simpa [Function.comp_def] using hr

/-- **`parse_req` reads inside the bytes**, and returns what it parses. -/
theorem parseReqAt_spec (data : Bytes) :
    ∃ r, parseReqAt data [] = .ok r ∧ Returns (parseReq data) r := by
  unfold parseReqAt
  rw [readU32At_eq (Nat.zero_le _), ok_bind, List.drop_zero]
  cases hn : readU32 data with
  | none => exact ⟨_, rfl, .refused (by simp [parseReq, hn])⟩
  | some x =>
    obtain ⟨nstr, data₁⟩ := x
    obtain ⟨hdata, -⟩ := readU32_eq_some hn
    dsimp only [Option.map_some]
    by_cases hmany : maxArgs < nstr
    · rw [if_pos hmany]
      exact ⟨_, rfl, .refused (by simp [parseReq, hn, hmany])⟩
    · have hlong : 0 + 4 ≤ data.length := by
        have := congrArg List.length hdata
        rw [List.length_append, leBytes_length] at this
        omega
      have hdata₁ : data.drop (0 + 4) = data₁ := by
        rw [Nat.zero_add, hdata, List.drop_left' (leBytes_length 4 nstr)]
      obtain ⟨r, he, hr⟩ := @parseStrsAt_spec data _ [] nstr hlong _ (Nat.lt_succ_self nstr)
      have hparse : parseReq data = (parseStrs nstr data₁).bind fun x =>
          if x.2 = [] then some x.1 else none := by
        simp only [parseReq, hn, hmany, if_false, Option.bind_eq_bind, Option.bind_some]
      rw [List.length_nil, Nat.zero_add] at he
      rw [hdata₁] at hr
      rw [if_neg hmany, hparse]
      exact ⟨r, he, hr⟩

/-! ### The grammar -/

lemma sendReq_eq_some {bytes : Bytes} (h : sendReq cmd = .ok (some bytes)) :
    bytes = pack (payload cmd) ∧ trueSize cmd ≤ maxMsg := by
  have hs := sendReq_spec cmd
  rw [h] at hs
  cases hs with
  | frame hsize => exact ⟨rfl, hsize⟩

lemma sendReq_payload (hsize : trueSize cmd ≤ maxMsg) :
    sendReq cmd = .ok (some (pack (payload cmd))) := by
  have hmod : trueSize cmd % 2 ^ 32 = trueSize cmd :=
    Nat.mod_eq_of_lt (Nat.lt_of_le_of_lt hsize (by decide))
  have hs := sendReq_spec cmd
  generalize sendReq cmd = r at hs
  cases hs with
  | refused hbig => omega
  | frame => rfl
  | overrun hbig => omega

/-- **`parse_req` accepts its grammar and nothing else.** On any bytes that are not too many it
returns, having read no others: the vector whose payload they are, where this has no more strings
than are allowed, and otherwise an error. What it accepts is what `send_req` sends. -/
theorem parse_req_grammar {data : Bytes} (hdata : data.length ≤ maxMsg) :
    ∃ rv out, parseReqAt data [] = .ok (rv, out) ∧ (rv = 0 ∨ rv = -1) ∧
      (∀ cmd, rv = 0 ∧ out = cmd ↔ data = payload cmd ∧ cmd.length ≤ maxArgs) ∧
      ∀ cmd, rv = 0 ∧ out = cmd ↔
        sendReq cmd = .ok (some (pack data)) ∧ cmd.length ≤ maxArgs := by
  have hgrammar : ∀ cmd, parseReq data = some cmd ↔ data = payload cmd ∧ cmd.length ≤ maxArgs := by
    intro cmd
    refine ⟨parseReq_eq_some, ?_⟩
    rintro ⟨rfl, hn⟩
    rw [payload_length] at hdata
    exact (Within.mk hdata hn).parse
  have hsend : ∀ cmd, data = payload cmd ↔ sendReq cmd = .ok (some (pack data)) := by
    intro cmd
    constructor
    · rintro rfl
      rw [payload_length] at hdata
      exact sendReq_payload hdata
    · intro h
      obtain ⟨hpack, hsize⟩ := sendReq_eq_some h
      rw [← payload_length] at hsize
      have hlt : maxMsg < 2 ^ 32 := by decide
      exact (@pack_inj data (payload cmd) [] [] (Nat.lt_of_le_of_lt hdata hlt)
        (Nat.lt_of_le_of_lt hsize hlt) (by rw [List.append_nil, List.append_nil, hpack])).1
  obtain ⟨⟨rv, out⟩, he, hr⟩ := parseReqAt_spec data
  have hiff : (rv = 0 ∨ rv = -1) ∧ ∀ cmd, rv = 0 ∧ out = cmd ↔ parseReq data = some cmd := by
    cases hr with
    | accepted h =>
      refine ⟨.inl rfl, fun cmd => ?_⟩
      rw [h, Option.some.injEq]
      exact ⟨fun h => h.2, fun h => ⟨rfl, h⟩⟩
    | refused h =>
      refine ⟨.inr rfl, fun cmd => ?_⟩
      rw [h]
      exact ⟨fun h => by omega, fun h => by cases h⟩
  refine ⟨rv, out, he, hiff.1, fun cmd => (hiff.2 cmd).trans (hgrammar cmd), fun cmd => ?_⟩
  rw [hiff.2, hgrammar, hsend]

/-- The request `get k`, with a byte after it that does not belong there. -/
theorem parse_req_grammar_trailing :
    let data := payload [str "get", str "k"] ++ [0]
    ∃ rv out, parseReqAt data [] = .ok (rv, out) ∧ (rv = 0 ∨ rv = -1) ∧
      ∀ cmd, rv = 0 ∧ out = cmd ↔ data = payload cmd ∧ cmd.length ≤ maxArgs := by
  intro data
  obtain ⟨rv, out, he, hrv, hgrammar, -⟩ := parse_req_grammar (show data.length ≤ maxMsg by decide)
  exact ⟨rv, out, he, hrv, hgrammar⟩

end ByoRedis.RequestGrammar
