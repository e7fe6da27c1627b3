import ByoRedis.Lib.LittleEndian

/-!
Streams of frames: a payload behind its length in four bytes.
-/

namespace ByoRedis.Lib.Frames

open ByoRedis.Lib.LittleEndian

def pack (p : List UInt8) : List UInt8 := leBytes 4 p.length ++ p

def packAll (ps : List (List UInt8)) : List UInt8 := (ps.map pack).flatten

/-- The length that the first four bytes tell. -/
def header (u : List UInt8) : ℕ := ofLeBytes (u.take 4)

/-- The bytes do not have a whole frame at their front, and their header is not too large. -/
def Incomplete (most : ℕ) (u : List UInt8) : Prop :=
  u.length < 4 ∨ header u ≤ most ∧ u.length < 4 + header u

/-- A frame was begun, and is not finished. -/
def Begun (most : ℕ) (u : List UInt8) : Prop :=
  ∃ p : List UInt8, p.length ≤ most ∧ List.IsPrefix u (pack p) ∧ u ≠ pack p

@[simp] lemma pack_length (p : List UInt8) : (pack p).length = 4 + p.length := by
  simp [pack]

@[simp] lemma packAll_nil : packAll [] = [] := rfl

@[simp] lemma packAll_cons (p : List UInt8) (ps : List (List UInt8)) :
    packAll (p :: ps) = pack p ++ packAll ps := rfl

lemma packAll_append (ps qs : List (List UInt8)) :
    packAll (ps ++ qs) = packAll ps ++ packAll qs := by
  simp [packAll]

lemma header_append {u : List UInt8} (h : 4 ≤ u.length) (v : List UInt8) :
    header (u ++ v) = header u := by
  unfold header
  rw [List.take_append_of_le_length h]

lemma header_pack {p : List UInt8} (hp : p.length < 2 ^ 32) (rest : List UInt8) :
    header (pack p ++ rest) = p.length := by
  have htake : (pack p ++ rest).take 4 = leBytes 4 p.length := by
    rw [pack, List.append_assoc, List.take_left' (leBytes_length 4 p.length)]
  have hmod : p.length % 256 ^ 4 = p.length := Nat.mod_eq_of_lt hp
  unfold header
  rw [htake, ofLeBytes_leBytes, hmod]

lemma payload_pack (p rest : List UInt8) : ((pack p ++ rest).drop 4).take p.length = p := by
  rw [pack, List.append_assoc, List.drop_left' (leBytes_length 4 p.length), List.take_left]

/-- The first frame of a stream is read back. -/
lemma pack_inj {p q x y : List UInt8} (hp : p.length < 2 ^ 32) (hq : q.length < 2 ^ 32)
    (h : pack p ++ x = pack q ++ y) : p = q ∧ x = y := by
  have hlen : p.length = q.length := by rw [← header_pack hp x, h, header_pack hq]
  have hpq : p = q := by
    rw [← payload_pack p x, h, hlen, payload_pack]
  subst hpq
  exact ⟨rfl, List.append_cancel_left h⟩

/-- **Frames are read back one way**: those at the front of a stream are its first ones. -/
theorem packAll_front {ps qs : List (List UInt8)} {x : List UInt8}
    (hp : ∀ p ∈ ps, p.length < 2 ^ 32) (hq : ∀ q ∈ qs, q.length < 2 ^ 32)
    (h : packAll ps ++ x = packAll qs) : ∃ rs, qs = ps ++ rs ∧ x = packAll rs := by
  induction ps generalizing qs with
  | nil => exact ⟨qs, rfl, h⟩
  | cons p ps ih =>
    cases qs with
    | nil =>
      have := congrArg List.length h
      simp only [packAll_cons, packAll_nil, List.length_append, pack_length,
        List.length_nil] at this
      omega
    | cons q qs =>
      rw [packAll_cons, packAll_cons, List.append_assoc] at h
      obtain ⟨hpq, hrest⟩ := pack_inj (hp p List.mem_cons_self) (hq q List.mem_cons_self) h
      subst hpq
      obtain ⟨rs, rfl, hx⟩ := ih (fun r hr => hp r (List.mem_cons_of_mem p hr))
        (fun r hr => hq r (List.mem_cons_of_mem p hr)) hrest
      exact ⟨rs, rfl, hx⟩

/-- **A whole frame** is its payload packed, with the bytes after it. -/
theorem eq_pack_append {u : List UInt8} (h4 : 4 ≤ u.length) (h : 4 + header u ≤ u.length) :
    ((u.drop 4).take (header u)).length = header u ∧
      u = pack ((u.drop 4).take (header u)) ++ u.drop (4 + header u) := by
  have hlen : ((u.drop 4).take (header u)).length = header u := by
    rw [List.length_take, List.length_drop]
    omega
  have htake : leBytes 4 (header u) = u.take 4 := by
    have := leBytes_ofLeBytes (u.take 4)
    rwa [List.length_take, Nat.min_eq_left h4] at this
  refine ⟨hlen, ?_⟩
  unfold pack
  rw [hlen, htake, List.append_assoc, ← List.drop_drop, List.take_append_drop,
    List.take_append_drop]

lemma ofLeBytes_zeros (u : List UInt8) (k : ℕ) :
    ofLeBytes (u ++ List.replicate k 0) = ofLeBytes u := by
  induction u with
  | nil =>
    induction k with
    | zero => rfl
    | succ k ih =>
      rw [List.nil_append] at ih ⊢
      simp [List.replicate_succ, ofLeBytes, ih]
  | cons b u ih =>
    rw [List.cons_append, ofLeBytes, ih, ofLeBytes]

lemma begun_of_whole {most : ℕ} (u z : List UInt8) (hz : 0 < z.length)
    (h : (u ++ z).length = 4 + header (u ++ z)) (hle : header (u ++ z) ≤ most) : Begun most u := by
  have heq := eq_pack_append (u := u ++ z) (by omega) (by omega)
  generalize ((u ++ z).drop 4).take (header (u ++ z)) = p at heq
  obtain ⟨hlen, heq⟩ := heq
  have hnil : (u ++ z).drop (4 + header (u ++ z)) = [] := List.drop_of_length_le (by omega)
  rw [hnil, List.append_nil] at heq
  refine ⟨p, by omega, ⟨z, heq⟩, fun hu => ?_⟩
  have := congrArg List.length (heq.trans hu.symm)
  rw [List.length_append] at this
  omega

/-- **Bytes without a whole frame** begin one. -/
theorem Incomplete.begun {most : ℕ} (hmost : 256 ^ 3 ≤ most) {u : List UInt8}
    (h : Incomplete most u) : Begun most u := by
  by_cases h4 : u.length < 4
  · have hlt : ofLeBytes u < 256 ^ 3 := by
      calc ofLeBytes u < 256 ^ u.length := ofLeBytes_lt u
        _ ≤ 256 ^ 3 := Nat.pow_le_pow_right (by omega) (by omega)
    have hlen : (u ++ List.replicate (4 - u.length) 0).length = 4 := by
      rw [List.length_append, List.length_replicate]
      omega
    have hhead : header (u ++ (List.replicate (4 - u.length) 0 ++
        List.replicate (ofLeBytes u) 0)) = ofLeBytes u := by
      rw [← List.append_assoc, header_append (by omega), header, List.take_of_length_le (by omega),
        ofLeBytes_zeros]
    refine begun_of_whole u (List.replicate (4 - u.length) 0 ++ List.replicate (ofLeBytes u) 0)
      ?_ ?_ (by omega)
    · simp only [List.length_append, List.length_replicate]
      omega
    · rw [hhead]
      simp only [List.length_append, List.length_replicate]
      omega
  · obtain ⟨hle, hlt⟩ := h.resolve_left h4
    have hhead := header_append (Nat.le_of_not_lt h4)
      (List.replicate (4 + header u - u.length) 0)
    refine begun_of_whole u (List.replicate (4 + header u - u.length) 0) ?_ ?_ (by omega)
    · rw [List.length_replicate]
      omega
    · rw [hhead, List.length_append, List.length_replicate]
      omega

/-- Bytes without a whole frame at the front of a stream are shorter than its first frame. -/
lemma Incomplete.lt {most : ℕ} {u v p rest : List UInt8} (h : Incomplete most u)
    (hp : p.length < 2 ^ 32) (he : u ++ v = pack p ++ rest) : u.length < 4 + p.length := by
  by_cases h4 : u.length < 4
  · omega
  · have h1 := header_append (Nat.le_of_not_lt h4) v
    rw [he, header_pack hp] at h1
    rw [h1]
    exact (h.resolve_left h4).2

end ByoRedis.Lib.Frames
