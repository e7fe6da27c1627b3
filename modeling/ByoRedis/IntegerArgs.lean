import ByoRedis.Encoding
import ByoRedis.Lib.Numerals

/-!
The arguments that have to be integers.

A text is accepted where `strtoll` stops at its end. It does so at the end of the text of any
integer, whatever its size, and at the end of no text at all.
-/

namespace ByoRedis.IntegerArgs

open ByoRedis.Basic ByoRedis.ByteBuffer ByoRedis.ByteBufferSpec ByoRedis.Proto ByoRedis.Tlv
open ByoRedis.SortedSet ByoRedis.Database ByoRedis.DatabaseSpec ByoRedis.Commands
open ByoRedis.KeySpace ByoRedis.CommandSpec ByoRedis.Encoding ByoRedis.Lib.Runs
open ByoRedis.Lib.Numerals

/-! ### What `strtoll` reads -/

/-- Decimal integers in the C locale. -/
def decimals : Script UInt8 where
  isSpace := isSpace
  sign b := if b = 45 then some (-1) else if b = 43 then some 1 else none
  isDigit := isDigit
  digit b := b.toNat - 48
  base := 10
  not_space_of_sign {b f} h := by
    split_ifs at h with h1 h2
    · rw [h1]
      rfl
    · rw [h2]
      rfl
  not_space_of_digit {b} h := by
    simp only [isDigit, isSpace] at h ⊢
    grind
  not_sign_of_digit {b} h := by
    simp only [isDigit] at h ⊢
    grind

/-- The nearest `int64_t`. -/
def clamp (n : ℤ) : ℤ := max (-2 ^ 63) (min (2 ^ 63 - 1) n)

def Fits (n : ℤ) : Prop := -2 ^ 63 ≤ n ∧ n < 2 ^ 63

instance (n : ℤ) : Decidable (Fits n) := inferInstanceAs (Decidable (_ ∧ _))

lemma clamp_eq_iff {n : ℤ} : clamp n = n ↔ Fits n := by
  unfold clamp Fits
  omega

variable {s cmd : Bytes} {n v : ℤ}

lemma signOf_eq (s : Bytes) : signOf s = decimals.signOf s := by
  cases s with
  | nil => rfl
  | cons b s =>
    by_cases h1 : b = 45
    · rw [h1]
      rfl
    · by_cases h2 : b = 43
      · rw [h2]
        rfl
      · simp [signOf, Script.signOf, decimals, h1, h2]

lemma digitsVal_eq (ds : Bytes) : digitsVal ds = decimals.value ds := by
  unfold digitsVal Script.value
  rw [Nat.ofDigits_eq_foldr, List.foldr_reverse, List.foldl_map]
  refine congrArg (fun step => List.foldl step 0 ds) (funext fun n => funext fun b => ?_)
  simp only [decimals, Nat.cast_id]
  omega

lemma strtoll_eq (s : Bytes) :
    strtoll s = (decimals.scan s).elim (0, 0) fun r => (clamp r.1, r.2) := by
  have hspace : decimals.isSpace = isSpace := rfl
  have hdigit : decimals.isDigit = isDigit := rfl
  unfold strtoll Script.scan
  dsimp only
  rw [signOf_eq]
  simp only [digitsVal_eq, hspace, hdigit]
  split_ifs <;> rfl

/-- **What `strtoll` does**: it takes the longest text of an integer in front, and yields the
integer clamped. Where there is none it takes nothing and yields 0. -/
theorem strtoll_spec (s : Bytes) :
    (∃ n k, strtoll s = (clamp n, k) ∧ decimals.Longest s n k) ∨
      (strtoll s = (0, 0) ∧ ∀ p n, p <+: s → ¬ decimals.Numeral p n) := by
  rw [strtoll_eq]
  rcases decimals.scan_spec s with ⟨n, k, hscan, hlong⟩ | ⟨hscan, hnone⟩
  · exact .inl ⟨n, k, by rw [hscan]; rfl, hlong⟩
  · exact .inr ⟨by rw [hscan]; rfl, hnone⟩

/-! ### What `str2int` accepts -/

lemma cStr_numeral (h : decimals.Numeral s n) : cStr s = s := by
  refine List.takeWhile_eq_self_iff.mpr fun b hb => ?_
  rw [decide_eq_true_eq]
  rintro rfl
  rcases h.mem hb with h | h | h
  · cases h
  · exact h rfl
  · cases h

/-- **What `str2int` accepts**: the text of any integer, which is clamped, and the empty text, which
is 0. -/
theorem str2int_eq_some :
    str2int s = some v ↔ (s = [] ∧ v = 0) ∨ ∃ n, decimals.Numeral s n ∧ v = clamp n := by
  constructor
  · intro h
    unfold str2int at h
    dsimp only at h
    split_ifs at h with hend
    have hfront : cStr s <+: s := List.takeWhile_prefix _
    rcases strtoll_spec (cStr s) with ⟨n, k, hread, p, hp, hlen, hnum, -⟩ | ⟨hread, -⟩
    · rw [hread] at h hend
      obtain rfl : p = s := (hp.trans hfront).eq_of_length (hlen.trans hend)
      exact .inr ⟨n, hnum, (Option.some.inj h).symm⟩
    · rw [hread] at h hend
      exact .inl ⟨List.eq_nil_of_length_eq_zero hend.symm, (Option.some.inj h).symm⟩
  · rintro (⟨rfl, rfl⟩ | ⟨n, hnum, rfl⟩)
    · rfl
    · unfold str2int
      rw [cStr_numeral hnum, strtoll_eq, hnum.scan]
      exact if_pos rfl

open Classical in
/-- What a text says where an integer is asked for: nothing says 0, and an integer that is too large
the nearest one in 64 bits. -/
noncomputable def integer (s : Bytes) : Option ℤ :=
  if s = [] then some 0
  else if h : ∃ n, decimals.Numeral s n then some (clamp h.choose)
  else none

lemma str2int_eq_integer : str2int s = integer s := by
  unfold integer
  split_ifs with hs h
  · rw [hs]
    rfl
  · exact str2int_eq_some.mpr (.inr ⟨_, h.choose_spec, rfl⟩)
  · refine Option.eq_none_iff_forall_ne_some.mpr fun v hv => ?_
    rcases str2int_eq_some.mp hv with ⟨hnil, -⟩ | ⟨n, hn, -⟩
    · exact hs hnil
    · exact h ⟨n, hn⟩

example : str2int (str " -12") = some (-12) := rfl
example : str2int (str "12 ") = none := rfl
example : str2int (str "12" ++ [0]) = none := rfl

/-- `s` is the text of `n`, which is an `int64_t`. -/
def IsInt64 (s : Bytes) (n : ℤ) : Prop := decimals.Numeral s n ∧ Fits n

/-- A text is accepted exactly when it is that of an `int64_t`, and yields it. -/
def Exact (s : Bytes) : Prop := ∀ n, str2int s = some n ↔ IsInt64 s n

/-- There is a character, and what is the text of an integer is that of an `int64_t`. -/
def Plain (s : Bytes) : Prop := s ≠ [] ∧ ∀ n, decimals.Numeral s n → Fits n

lemma exact_iff : Exact s ↔ Plain s := by
  constructor
  · intro h
    refine ⟨?_, fun n hnum => ?_⟩
    · rintro rfl
      exact ((h 0).mp (str2int_eq_some.mpr (.inl ⟨rfl, rfl⟩))).1.ne_nil rfl
    · obtain ⟨hclamp, hfits⟩ := (h (clamp n)).mp (str2int_eq_some.mpr (.inr ⟨n, hnum, rfl⟩))
      rwa [hnum.unique hclamp]
  · rintro ⟨hne, hfits⟩ v
    rw [str2int_eq_some]
    constructor
    · rintro (⟨rfl, -⟩ | ⟨n, hnum, rfl⟩)
      · exact absurd rfl hne
      · rw [clamp_eq_iff.mpr (hfits n hnum)]
        exact ⟨hnum, hfits n hnum⟩
    · rintro ⟨hnum, hv⟩
      exact .inr ⟨v, hnum, (clamp_eq_iff.mpr hv).symm⟩

lemma none_iff : ((∀ n, ¬ IsInt64 s n) → str2int s = none) ↔ Plain s := by
  constructor
  · intro h
    refine ⟨?_, fun n hnum => ?_⟩
    · rintro rfl
      cases h fun n hn => hn.1.ne_nil rfl
    · by_contra hfits
      have hother : ∀ m, ¬ IsInt64 s m := fun m hm => hfits (by rw [hnum.unique hm.1]; exact hm.2)
      have htaken := str2int_eq_some.mpr (.inr ⟨n, hnum, rfl⟩)
      rw [h hother] at htaken
      cases htaken
  · intro hp hother
    refine Option.eq_none_iff_forall_ne_some.mpr fun v hv => ?_
    exact hother v ((exact_iff.mpr hp v).mp hv)

/-! ### What the commands answer -/

/-- The arguments that have to be integers. -/
inductive Argument
  | ttl | offset | limit

/-- The vectors with a text at such an argument. -/
inductive Asks (s : Bytes) : Argument → List Bytes → Prop
  | ttl (key : Bytes) : Asks s .ttl [str "pexpire", key, s]
  | offset (key score name limit : Bytes) :
    Asks s .offset [str "zquery", key, score, name, s, limit]
  | limit (key score name offset : Bytes) :
    Asks s .limit [str "zquery", key, score, name, offset, s]

/-- `ERR_BAD_ARG` is answered, and the store is left as it is. -/
def Refused (cmd : List Bytes) : Prop :=
  ∀ strtod g clock buffer, ∃ msg,
    doRequestAndMakeResponse strtod g clock cmd buffer = .ok (g, outErr buffer .badArg msg)

/-- What is not the text of an `int64_t` is refused. -/
def Guarded (a : Argument) (s : Bytes) : Prop :=
  (∀ n, ¬ IsInt64 s n) → ∀ cmd, Asks s a cmd → Refused cmd

variable {strtod : Bytes → UInt64 × ℕ} {g : GlobalData} {σ : Store} {clock : Timespec}
  {a : Argument} {key score name x y : Bytes} {b : Buffer}

lemma doRequest_pexpire : doRequestAndMakeResponse strtod g clock [str "pexpire", key, x] b =
    doExpire g clock [str "pexpire", key, x] b := by
  have hname : str "pexpire" ∉ [str "set", str "zrem", str "zscore", str "zrank"] := by decide
  simp only [List.mem_cons, not_or] at hname
  simp [doRequestAndMakeResponse, arg, hname]

lemma doRequest_zquery :
    doRequestAndMakeResponse strtod g clock [str "zquery", key, score, name, x, y] b =
      doZquery strtod g [str "zquery", key, score, name, x, y] b := by
  simp [doRequestAndMakeResponse, arg]

/-- An empty store has nothing to tell, whatever the numbers are. -/
lemma zquery_empty {offset limit : ℤ} (hx : str2int x = some offset) (hy : str2int y = some limit) :
    Does (doZquery (fun _ => (0, 0)) {} [str "zquery", [], [], [], x, y])
      fun w _ => w = .arr [] := by
  have hscore : str2dbl (fun _ => (0, 0)) [] = some ⟨0, rfl⟩ := rfl
  have hset : expectZset {} [] = .ok ({}, some .empty) := rfl
  by_cases hlimit : limit ≤ 0
  · refine .of_eq (fun b => ?_) (fun h => shows_outArr h 0) good_empty rfl
    simp only [doZquery, arg, List.getD_cons_succ, List.getD_cons_zero, hscore, hx, hy, hset,
      ok_bind, if_pos hlimit, pure_eq_ok]
  · have hloop : ∀ left b, zqueryLoop {} left none b 0 = .ok (b, 0) := fun left b => by
      cases left <;> rfl
    have hread : readZset {} .empty = .ok {} := rfl
    have hseek : zsetSeekge {} ⟨0, rfl⟩ [] = .ok none := rfl
    have hoffset : znodeOffset {} none offset = .ok none := rfl
    refine ⟨{}, .arr [], _, good_empty, rfl, by decide, fun b u hs hb => ?_⟩
    have hbegin := shows_outBeginArr hb
    rw [← List.append_nil (u ++ arrHead 0)] at hbegin
    obtain ⟨b', he, hb'⟩ := shows_outEndArr hbegin 0
    rw [List.append_nil] at hb'
    refine ⟨b', ?_, hb'⟩
    simp only [doZquery, arg, List.getD_cons_succ, List.getD_cons_zero, hscore, hx, hy, hset,
      ok_bind, if_neg hlimit, pure_eq_ok, hread, hseek, hoffset, hloop, Nat.zero_mul, he]

/-- What is accepted is not answered with an error on an empty store. The score is the empty text,
of which `strtod` takes nothing. -/
lemma answered (h : str2int s = some v) (clock : Timespec) (a : Argument) :
    ∃ cmd, Asks s a cmd ∧
      Does (doRequestAndMakeResponse (fun _ => (0, 0)) {} clock cmd) fun w _ => tag w ≠ .err := by
  have hzero : str2int (str "0") = some 0 := rfl
  have harr : ∀ w (_ : Store), w = .arr [] → tag w ≠ .err := by
    rintro w - rfl
    decide
  cases a with
  | ttl =>
    have harg : str2int (arg [str "pexpire", [], s] 2) = some v := h
    refine ⟨_, .ttl [], Does.congr ?_ fun b => doRequest_pexpire⟩
    refine (doExpire_spec good_empty clock harg).mono ?_
    rintro w σ' ⟨rfl, -⟩
    decide
  | offset =>
    refine ⟨_, .offset [] [] [] (str "0"), Does.congr ?_ fun b => doRequest_zquery⟩
    exact (zquery_empty h hzero).mono harr
  | limit =>
    refine ⟨_, .limit [] [] [] (str "0"), Does.congr ?_ fun b => doRequest_zquery⟩
    exact (zquery_empty hzero h).mono harr

/-- `zquery` turns down either number, and a score, with the same code. -/
lemma zquery_refused (h : str2int x = none ∨ str2int y = none) :
    ∃ msg, doZquery strtod g [str "zquery", key, score, name, x, y] b =
      .ok (g, outErr b .badArg msg) := by
  cases hscore : str2dbl strtod score with
  | none => exact ⟨"expect fp number", by simp [doZquery, arg, hscore]⟩
  | some score =>
    refine ⟨"expect int", ?_⟩
    rcases h with hx | hy
    · simp [doZquery, arg, hscore, hx]
    · simp [doZquery, arg, hscore, hy]

lemma refused_iff (a : Argument) : (∀ cmd, Asks s a cmd → Refused cmd) ↔ str2int s = none := by
  constructor
  · intro h
    let clock : Timespec := ⟨0, 0, Timespec.nsec_zero, by decide⟩
    refine Option.eq_none_iff_forall_ne_some.mpr fun v hv => ?_
    obtain ⟨cmd, hasks, g', w, σ', -, hw, -, hact⟩ := answered hv clock a
    obtain ⟨b', he, hb'⟩ := hact {} [] [] shows_empty
    obtain ⟨msg, herr⟩ := h cmd hasks (fun _ => (0, 0)) {} clock {}
    obtain ⟨rfl, rfl⟩ := Prod.mk.inj (Except.ok.inj (he.symm.trans herr))
    have hbytes := hb'.unread.symm.trans (shows_outErr shows_empty .badArg msg).unread
    have htag : tag w = tag (errVal .badArg msg) :=
      tag_eq (x := []) (y := []) (congrArg (· ++ []) hbytes)
    exact hw htag
  · intro h cmd hasks strtod g clock buffer
    cases hasks with
    | ttl key =>
      refine ⟨"expect int64", ?_⟩
      rw [doRequest_pexpire]
      simp [doExpire, arg, h]
    | offset key score name limit =>
      rw [doRequest_zquery]
      exact zquery_refused (.inl h)
    | limit key score name offset =>
      rw [doRequest_zquery]
      exact zquery_refused (.inr h)

lemma guarded_iff : Guarded a s ↔ Plain s := by
  unfold Guarded
  rw [refused_iff, none_iff]

/-- **Integers are accepted, and nothing else**, by `str2int` and at each argument, exactly where a
text is not empty and is not that of an integer beyond 64 bits. -/
theorem integer_args_iff (s : Bytes) : (Exact s ↔ Plain s) ∧ ∀ a, Guarded a s ↔ Plain s := by
  refine ⟨exact_iff, fun a => ?_⟩
  exact guarded_iff

lemma numeral_two_pow : decimals.Numeral (str "9223372036854775808") (2 ^ 63) := by
  have hblank : ∀ c ∈ ([] : Bytes), decimals.isSpace c = true := nofun
  have hdigits : ∀ c ∈ str "9223372036854775808", decimals.isDigit c = true :=
    List.all_eq_true.mp rfl
  exact Script.Numeral.mk hblank .none (by decide) hdigits

/-- The empty text is taken for 0, and the number after the last one for the last one. -/
theorem empty_and_large_taken :
    let large := str "9223372036854775808"
    str2int [] = some 0 ∧ str2int large = some (2 ^ 63 - 1) ∧
      ∀ s ∈ [[], large], ¬ Exact s ∧ ∀ a, ¬ Guarded a s := by
  intro large
  have hplain : ∀ s ∈ [[], large], ¬ Plain s := by
    simp only [List.forall_mem_cons]
    refine ⟨fun h => h.1 rfl, fun h => ?_, nofun⟩
    exact absurd (h.2 _ numeral_two_pow) (by decide)
  refine ⟨rfl, rfl, fun s hs => ⟨?_, fun a => ?_⟩⟩
  · rw [exact_iff]
    exact hplain s hs
  · rw [guarded_iff]
    exact hplain s hs

end ByoRedis.IntegerArgs
