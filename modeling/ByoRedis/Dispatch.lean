import ByoRedis.MemberCommands

/-!
The commands as they are sent, as vectors of byte strings, and what the dispatcher does with any
vector.
-/

namespace ByoRedis.Dispatch

open ByoRedis.Basic ByoRedis.SortedSet ByoRedis.ByteBuffer ByoRedis.Proto ByoRedis.Tlv
open ByoRedis.Database ByoRedis.DatabaseSpec ByoRedis.Commands ByoRedis.KeySpace
open ByoRedis.CommandSpec ByoRedis.MemberCommands

/-- The command of the reference that a vector stands for, where it stands for one. -/
def denote (strtod : Bytes → UInt64 × ℕ) : List Bytes → Option Command
  | [name] => if name = str "keys" then some .keys else none
  | [name, key] =>
    if name = str "get" then some (.get key)
    else if name = str "del" then some (.del key)
    else if name = str "pttl" then some (.pttl key)
    else none
  | [name, key, x] =>
    if name = str "set" then some (.set key x)
    else if name = str "zrem" then some (.zrem key x)
    else if name = str "zscore" then some (.zscore key x)
    else if name = str "pexpire" then (str2int x).map (.pexpire key)
    else none
  | [name, key, x, y] =>
    if name = str "zadd" then (str2dbl strtod x).map fun score => .zadd key score y else none
  | _ => none

/-- What a vector is answered, and what it does to the store. Any vector that does not stand for
a command leaves the store as it is. -/
def Answers (strtod : Bytes → UInt64 × ℕ) (now : ℕ) (σ : Store) (cmd : List Bytes) (v : Value)
    (σ' : Store) : Prop :=
  match denote strtod cmd with
  | some c => Reference now σ c v σ'
  | none => σ' = σ

/-- What a vector is answered on any clock: the time left of a key may not be told exactly. -/
def Told (strtod : Bytes → UInt64 × ℕ) (clock : Timespec) (σ : Store) (cmd : List Bytes)
    (v : Value) (σ' : Store) : Prop :=
  match denote strtod cmd with
  | some (.pttl key) => TtlTold clock σ key v σ'
  | some c => Reference (getMonotonicMsec clock) σ c v σ'
  | none => σ' = σ

variable {strtod : Bytes → UInt64 × ℕ} {g : GlobalData} {σ σ' : Store} {clock : Timespec}

lemma Told.answers {cmd : List Bytes} {v : Value} (h : Told strtod clock σ cmd v σ')
    (hnear : Near (getMonotonicMsec clock) σ) :
    Answers strtod (getMonotonicMsec clock) σ cmd v σ' := by
  unfold Told at h
  unfold Answers
  cases hc : denote strtod cmd with
  | none =>
    rw [hc] at h
    exact h
  | some c =>
    rw [hc] at h
    cases c with
    | pttl key => exact h.reference (hnear key)
    | get | set | del | keys | zadd | zrem | zscore | pexpire => exact h

lemma denote_pexpire {cmd : List Bytes} {key : Bytes} {ttl : ℤ}
    (h : denote strtod cmd = some (.pexpire key ttl)) : ttl < 2 ^ 63 := by
  match cmd with
  | [] => simp [denote] at h
  | [name] =>
    unfold denote at h
    dsimp only at h
    split_ifs at h
    cases h
  | [name, k] =>
    unfold denote at h
    dsimp only at h
    split_ifs at h <;> cases h
  | [name, k, x] =>
    unfold denote at h
    dsimp only at h
    split_ifs at h with h1 h2 h3 h4
    · cases h
    · cases h
    · cases h
    · obtain ⟨n, hn, hc⟩ := Option.map_eq_some_iff.mp h
      rw [← (Command.pexpire.inj hc).2]
      exact str2int_lt hn
  | [name, k, x, y] =>
    unfold denote at h
    dsimp only at h
    split_ifs at h
    obtain ⟨score, -, hc⟩ := Option.map_eq_some_iff.mp h
    cases hc
  | _ :: _ :: _ :: _ :: _ :: _ => simp [denote] at h

lemma Told.near {bound : ℕ} {cmd : List Bytes} {v : Value} (h : Told strtod clock σ cmd v σ')
    (hle : getMonotonicMsec clock ≤ bound) (hnear : Near bound σ) : Near bound σ' := by
  unfold Told at h
  cases hc : denote strtod cmd with
  | none =>
    rw [hc] at h
    rw [h]
    exact hnear
  | some c =>
    rw [hc] at h
    have httl : ∀ key ttl, c = .pexpire key ttl → ttl < 2 ^ 63 := by
      rintro key ttl rfl
      exact denote_pexpire hc
    cases c with
    | pttl key =>
      rw [h.1]
      exact hnear
    | get | set | del | keys | zadd | zrem | zscore | pexpire => exact hnear.reference hle h httl

/-- A vector leaves the store as it is, or its answer is `nil` or a number. -/
lemma Told.small {cmd : List Bytes} {v : Value} (h : Told strtod clock σ cmd v σ') :
    σ' = σ ∨ v = .nil ∨ ∃ n, v = .int n := by
  unfold Told at h
  cases hc : denote strtod cmd with
  | none =>
    rw [hc] at h
    exact .inl h
  | some c =>
    rw [hc] at h
    cases c with
    | pttl key => exact .inl h.1
    | get | set | del | keys | zadd | zrem | zscore | pexpire => exact h.small

lemma vector_eq {cmd : List Bytes} {name : Bytes} {n : ℕ}
    (h : cmd.length = n + 1 ∧ arg cmd 0 = name) :
    cmd = name :: (List.range n).map fun i => arg cmd (i + 1) := by
  obtain ⟨hlen, hname⟩ := h
  cases cmd with
  | nil => simp at hlen
  | cons x args =>
    have hargs : args = (List.range args.length).map fun i => arg (x :: args) (i + 1) := by
      apply List.ext_getElem
      · simp
      · intro i hi _
        simp [arg, hi]
    rw [List.length_cons, Nat.add_right_cancel_iff] at hlen
    rw [hlen] at hargs
    rw [← hargs, ← hname]
    rfl

lemma told_of_reference {act : Buffer → Eff (GlobalData × Buffer)} {cmd : List Bytes} {c : Command}
    (hd : denote strtod cmd = some c) (hc : ∀ key, c ≠ .pttl key)
    (h : Does act (Reference (getMonotonicMsec clock) σ c)) :
    Does act (Told strtod clock σ cmd) := by
  refine h.mono fun v σ' hr => ?_
  unfold Told
  rw [hd]
  cases c with
  | pttl key => exact absurd rfl (hc key)
  | get | set | del | keys | zadd | zrem | zscore | pexpire => exact hr

lemma told_of_unchanged {act : Buffer → Eff (GlobalData × Buffer)} {cmd : List Bytes}
    (hd : denote strtod cmd = none) (h : Does act (Unchanged σ)) :
    Does act (Told strtod clock σ cmd) := by
  refine h.mono fun v σ' hr => ?_
  unfold Told
  rw [hd]
  exact hr

lemma does_ite {c : Prop} [Decidable c] {f h : Buffer → Eff (GlobalData × Buffer)}
    {R : Value → Store → Prop} (hf : c → Does f R) (hh : ¬ c → Does h R) :
    Does (fun b => if c then f b else h b) R := by
  by_cases hc : c
  · exact (hf hc).congr fun b => if_pos hc
  · exact (hh hc).congr fun b => if_neg hc

/-- A vector without the name and the arity of a command. -/
lemma denote_unknown {cmd : List Bytes} (h1 : ¬ (cmd.length = 2 ∧ arg cmd 0 = str "get"))
    (h2 : ¬ (cmd.length = 3 ∧ arg cmd 0 = str "set"))
    (h3 : ¬ (cmd.length = 2 ∧ arg cmd 0 = str "del"))
    (h4 : ¬ (cmd.length = 1 ∧ arg cmd 0 = str "keys"))
    (h5 : ¬ (cmd.length = 4 ∧ arg cmd 0 = str "zadd"))
    (h6 : ¬ (cmd.length = 3 ∧ arg cmd 0 = str "zrem"))
    (h7 : ¬ (cmd.length = 3 ∧ arg cmd 0 = str "zscore"))
    (h8 : ¬ (cmd.length = 3 ∧ arg cmd 0 = str "pexpire"))
    (h9 : ¬ (cmd.length = 2 ∧ arg cmd 0 = str "pttl")) : denote strtod cmd = none := by
  match cmd with
  | [] => rfl
  | [x] => simpa [denote, arg] using h4
  | [x, key] =>
    simp only [arg, List.length_cons, List.length_nil, List.getD_cons_zero] at h1 h3 h9
    simp_all [denote]
  | [x, key, y] =>
    simp only [arg, List.length_cons, List.length_nil, List.getD_cons_zero] at h2 h6 h7 h8
    simp_all [denote]
  | [x, key, y, u] =>
    simp only [arg, List.length_cons, List.length_nil, List.getD_cons_zero] at h5
    simp_all [denote]
  | _ :: _ :: _ :: _ :: _ :: _ => rfl

/-- **Any vector** is answered with one value, appended to the buffer. -/
theorem doRequest_spec (hg : Good g σ) (strtod : Bytes → UInt64 × ℕ) (clock : Timespec)
    (cmd : List Bytes) :
    Does (doRequestAndMakeResponse strtod g clock cmd) (Told strtod clock σ cmd) := by
  unfold doRequestAndMakeResponse
  refine does_ite (fun h => ?_) fun h1 => does_ite (fun h => ?_) fun h2 =>
    does_ite (fun h => ?_) fun h3 => does_ite (fun h => ?_) fun h4 =>
    does_ite (fun h => ?_) fun h5 => does_ite (fun h => ?_) fun h6 =>
    does_ite (fun h => ?_) fun h7 => does_ite (fun h => ?_) fun _ =>
    does_ite (fun h => ?_) fun _ => does_ite (fun h => ?_) fun _ =>
    does_ite (fun h => ?_) fun h8 => does_ite (fun h => ?_) fun h9 => ?_
  · exact told_of_reference (by rw [vector_eq h]; rfl) (by simp) (doGet_spec hg _ cmd)
  · exact told_of_reference (by rw [vector_eq h]; rfl) (by simp) (doSet_spec hg _ cmd)
  · exact told_of_reference (by rw [vector_eq h]; rfl) (by simp) (doDel_spec hg _ clock cmd)
  · exact told_of_reference (by rw [vector_eq h]; rfl) (by simp) (doKeys_spec hg _)
  · have hd : denote strtod cmd = (str2dbl strtod (arg cmd 2)).map fun score =>
        .zadd (arg cmd 1) score (arg cmd 3) := by
      rw [vector_eq h]
      rfl
    cases hscore : str2dbl strtod (arg cmd 2) with
    | none =>
      rw [hscore] at hd
      exact told_of_unchanged hd (.of_eq (fun b => by simp [doZadd, hscore])
        (fun h => shows_outErr h .badArg "expect float") hg rfl)
    | some score =>
      rw [hscore] at hd
      exact told_of_reference hd (by simp) (doZadd_spec hg _ hscore)
  · exact told_of_reference (by rw [vector_eq h]; rfl) (by simp) (doZrem_spec hg _ cmd)
  · exact told_of_reference (by rw [vector_eq h]; rfl) (by simp) (doZscore_spec hg _ cmd)
  · exact told_of_unchanged (by rw [vector_eq h]; rfl) (doZquery_spec strtod hg cmd)
  · exact told_of_unchanged (by rw [vector_eq h]; rfl) (doZrank_spec hg cmd)
  · exact told_of_unchanged (by rw [vector_eq h]; rfl) (doZcount_spec strtod hg cmd)
  · have hd : denote strtod cmd = (str2int (arg cmd 2)).map (.pexpire (arg cmd 1)) := by
      rw [vector_eq h]
      rfl
    cases httl : str2int (arg cmd 2) with
    | none =>
      rw [httl] at hd
      exact told_of_unchanged hd (.of_eq (fun b => by simp [doExpire, httl])
        (fun h => shows_outErr h .badArg "expect int64") hg rfl)
    | some ttl =>
      rw [httl] at hd
      exact told_of_reference hd (by simp)
        ((doExpire_spec hg clock httl).mono fun v σ' hr => hr.reference httl)
  · have hd : denote strtod cmd = some (.pttl (arg cmd 1)) := by
      rw [vector_eq h]
      rfl
    refine (doTtl_spec hg clock cmd).mono fun v σ' hr => ?_
    unfold Told
    rw [hd]
    exact hr
  · exact told_of_unchanged (denote_unknown h1 h2 h3 h4 h5 h6 h7 h8 h9)
      (.of_eq (fun b => rfl) (fun h => shows_outErr h .unknown "unknown command") hg rfl)

end ByoRedis.Dispatch
