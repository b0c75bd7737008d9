import Overthinkin.GoRuntime

/-! The three variable-length integers of a pack, as `pack.go` and `delta.go` read them and as
a pack writer spells them. The readers keep the 64-bit pattern that the Go code accumulates. -/
namespace GitpVarint

open GoRuntime GoRuntime.Outcome

def headerLoop (pack : List UInt8) (c : UInt8) (accum shift pos : ℕ) : Outcome (ℕ × ℕ) :=
  if c &&& 0x80 = 0 then ok (accum, pos)
  else if pack.length ≤ pos then error "malformed packfile header"
  else do
    let c ← index pack pos
    headerLoop pack c (accum ||| ((c &&& 0x7f).toNat <<< shift) % 2 ^ 64) (shift + 7) (pos + 1)
termination_by pack.length - pos

/-- Returns the type, the size and the new value of `*pos`. -/
def decodePackObjectHeader (pack : List UInt8) (pos : ℕ) : Outcome (ℕ × ℕ × ℕ) := do
  failIf (pack.length ≤ pos) "truncated packfile header"
  let c ← index pack pos
  let objType := ((c >>> 4) &&& 0x07).toNat
  let (accum, pos) ← headerLoop pack c (c &&& 0x0f).toNat 4 (pos + 1)
  failIf (accum > 2 ^ 63 - 1) "pack object size too large"
  ok (objType, accum, pos)

def ofsLoop (pack : List UInt8) (offset pos : ℕ) : Outcome (ℕ × ℕ) :=
  if pack.length ≤ pos then error "truncated offset delta"
  else do
    let c ← index pack pos
    let offset := (offset <<< 7) % 2 ^ 64 ||| (c &&& 0x7f).toNat
    if c &&& 0x80 = 0 then ok (offset, pos + 1)
    else ofsLoop pack ((offset + 1) % 2 ^ 64) (pos + 1)
termination_by pack.length - pos

def decodeOFSDelta (pack : List UInt8) (pos : ℕ) : Outcome (ℤ × ℕ) := do
  let (offset, pos) ← ofsLoop pack 0 pos
  ok (int64 offset, pos)

def deltaVarintLoop (data : List UInt8) (accum shift pos : ℕ) : Outcome (ℕ × ℕ) :=
  if data.length ≤ pos ∨ shift ≥ 64 then error "malformed delta varint"
  else do
    let c ← index data pos
    let accum := accum ||| ((c &&& 0x7f).toNat <<< shift) % 2 ^ 64
    if c &&& 0x80 = 0 then ok (accum, pos + 1)
    else deltaVarintLoop data accum (shift + 7) (pos + 1)
termination_by data.length - pos

/-- The sign bit of the accumulator is reachable: the result may be negative. -/
def readDeltaVarint (data : List UInt8) (pos : ℕ) : Outcome (ℤ × ℕ) := do
  let (accum, pos) ← deltaVarintLoop data 0 0 pos
  ok (int64 accum, pos)

/-- Little-endian groups of seven bits, all but the last with the continuation bit. -/
def leb128 (n : ℕ) : List UInt8 :=
  if n < 128 then [UInt8.ofNat n] else UInt8.ofNat (n % 128 + 128) :: leb128 (n / 128)
termination_by n

/-- Type and size as a pack writer spells them: four bits of the size beside the type. -/
def encodePackObjectHeader (objType size : ℕ) : List UInt8 :=
  if size < 16 then [UInt8.ofNat (objType * 16 + size)]
  else UInt8.ofNat (objType * 16 + size % 16 + 128) :: leb128 (size / 16)

/-- The groups above the last one: big-endian, each standing for one less than its value. -/
def offsetPrefix (n : ℕ) : List UInt8 :=
  if n = 0 then [] else offsetPrefix ((n - 1) / 128) ++ [UInt8.ofNat ((n - 1) % 128 + 128)]
termination_by n
decreasing_by omega

def encodeOFSDelta (n : ℕ) : List UInt8 := offsetPrefix (n / 128) ++ [UInt8.ofNat (n % 128)]

/-! ### Bits of one byte -/

theorem continuation_bit (c : UInt8) : c &&& 0x80 = 0 ↔ c.toNat < 128 := by
  have key : ∀ n < 256, (n &&& 128 = 0) ↔ n < 128 := by decide +kernel
  rw [← key c.toNat c.toNat_lt, ← UInt8.toNat_inj]
  rfl

@[simp] theorem payload_bits (c : UInt8) : (c &&& 0x7f).toNat = c.toNat % 128 := by
  rw [UInt8.toNat_and]
  exact Nat.and_two_pow_sub_one_eq_mod c.toNat 7

theorem size_bits (c : UInt8) : (c &&& 0x0f).toNat = c.toNat % 16 := by
  rw [UInt8.toNat_and]
  exact Nat.and_two_pow_sub_one_eq_mod c.toNat 4

theorem type_bits (c : UInt8) : ((c >>> 4) &&& 0x07).toNat = c.toNat / 16 % 8 := by
  rw [UInt8.toNat_and, UInt8.toNat_shiftRight]
  change c.toNat >>> 4 &&& (2 ^ 3 - 1) = _
  rw [Nat.and_two_pow_sub_one_eq_mod, Nat.shiftRight_eq_div_pow]

theorem byte_toNat {n : ℕ} (h : n < 256) : (UInt8.ofNat n).toNat = n := by
  rw [UInt8.toNat_ofNat']
  omega

/-- A group lands above the bits that are there. -/
theorem or_shifted {accum shift : ℕ} (ha : accum < 2 ^ shift) (g : ℕ) :
    accum ||| g <<< shift = accum + g * 2 ^ shift := by
  rw [Nat.shiftLeft_eq, Nat.or_comm, Nat.mul_comm, ← Nat.two_pow_add_eq_or_of_lt ha,
    Nat.add_comm]

/-- In a word the bits beyond it are lost. -/
theorem or_group_mod {accum shift : ℕ} (ha : accum < 2 ^ shift) (hw : accum < 2 ^ 64) (g : ℕ) :
    accum ||| (g <<< shift) % 2 ^ 64 = (accum + g * 2 ^ shift) % 2 ^ 64 := by
  rw [← or_shifted ha, Nat.or_mod_two_pow, Nat.mod_eq_of_lt hw]

theorem or_group {accum shift g : ℕ} (ha : accum < 2 ^ shift) (hg : g * 2 ^ shift < 2 ^ 64) :
    accum ||| (g <<< shift) % 2 ^ 64 = accum + g * 2 ^ shift := by
  rw [Nat.mod_eq_of_lt (by rwa [Nat.shiftLeft_eq]), or_shifted ha]

theorem group_lt {accum shift g : ℕ} (ha : accum < 2 ^ shift) (hg : g < 128) :
    (accum + g * 2 ^ shift) % 2 ^ 64 < 2 ^ (shift + 7) := by
  have hle : g * 2 ^ shift ≤ 127 * 2 ^ shift := Nat.mul_le_mul_right _ (by omega)
  have hpow : 2 ^ (shift + 7) = 128 * 2 ^ shift := by ring
  have hmod := Nat.mod_le (accum + g * 2 ^ shift) (2 ^ 64)
  omega

theorem split_group (m shift : ℕ) :
    m * 2 ^ shift = m % 128 * 2 ^ shift + m / 128 * 2 ^ (shift + 7) := by
  conv_lhs => rw [← Nat.mod_add_div m 128]
  ring

theorem leb128_last {m : ℕ} (h : m < 128) : leb128 m = [UInt8.ofNat m] := by
  rw [leb128, if_pos h]

theorem leb128_more {m : ℕ} (h : ¬ m < 128) :
    leb128 m = UInt8.ofNat (m % 128 + 128) :: leb128 (m / 128) := by
  rw [leb128, if_neg h]

theorem or_last_group {offset g : ℕ} (hg : g < 128) (h : offset * 128 < 2 ^ 64) :
    (offset <<< 7) % 2 ^ 64 ||| g = offset * 128 + g := by
  rw [Nat.shiftLeft_eq, show 2 ^ 7 = 128 from rfl, Nat.mod_eq_of_lt h, Nat.mul_comm]
  exact (Nat.two_pow_add_eq_or_of_lt (i := 7) hg offset).symm

/-! ### Reading back what the writer wrote -/

theorem headerLoop_leb128 (pack pre rest : List UInt8) (c : UInt8) (m accum shift : ℕ)
    (hpack : pack = pre ++ leb128 m ++ rest) (hc : ¬ c.toNat < 128) (ha : accum < 2 ^ shift)
    (hfit : accum + m * 2 ^ shift < 2 ^ 64) :
    headerLoop pack c accum shift pre.length =
      ok (accum + m * 2 ^ shift, pre.length + (leb128 m).length) := by
  induction m using Nat.strong_induction_on generalizing pre c accum shift with
  | _ m ih =>
    rw [headerLoop, if_neg (by rwa [continuation_bit])]
    by_cases hm : m < 128
    · have hl := leb128_last hm
      have hb := byte_toNat (show m < 256 by omega)
      rw [hl] at hpack ⊢
      subst hpack
      rw [if_neg (by simp)]
      simp only [List.append_assoc, List.cons_append, List.nil_append, index_append, ok_bind]
      rw [headerLoop, if_pos (by rw [continuation_bit, hb]; exact hm), payload_bits, hb,
        Nat.mod_eq_of_lt hm, or_group ha (by omega)]
      rfl
    · have hl := leb128_more hm
      have hb := byte_toNat (show m % 128 + 128 < 256 by omega)
      have hsplit := split_group m shift
      have hg : m % 128 * 2 ^ shift ≤ 127 * 2 ^ shift := Nat.mul_le_mul_right _ (by omega)
      have hpow : 2 ^ (shift + 7) = 128 * 2 ^ shift := by ring
      rw [if_neg (by rw [hpack, hl]; simp)]
      have hi : index pack pre.length = ok (UInt8.ofNat (m % 128 + 128)) := by
        rw [hpack, hl]; simp [index]
      rw [hi, ok_bind, payload_bits, hb, show (m % 128 + 128) % 128 = m % 128 by omega,
        or_group ha (by omega)]
      have := ih (m / 128) (by omega) (pre ++ [UInt8.ofNat (m % 128 + 128)])
        (UInt8.ofNat (m % 128 + 128)) (accum + m % 128 * 2 ^ shift) (shift + 7)
        (by rw [hpack, hl]; simp) (by omega) (by omega) (by omega)
      rw [List.length_append, List.length_singleton] at this
      rw [this, hl, List.length_cons]
      have hsum : accum + m % 128 * 2 ^ shift + m / 128 * 2 ^ (shift + 7) =
          accum + m * 2 ^ shift := by
        omega
      rw [hsum, Nat.add_assoc, Nat.add_comm 1]

theorem decode_header_encode (pre rest : List UInt8) {t size : ℕ} (ht : t < 8)
    (hs : size < 2 ^ 63) :
    decodePackObjectHeader (pre ++ encodePackObjectHeader t size ++ rest) pre.length =
      ok (t, size, pre.length + (encodePackObjectHeader t size).length) := by
  unfold encodePackObjectHeader decodePackObjectHeader
  split
  · have hb := byte_toNat (show t * 16 + size < 256 by omega)
    simp only [List.append_assoc, List.cons_append, List.nil_append, index_append, ok_bind]
    rw [failIf_of_not (by simp), headerLoop,
      if_pos (by rw [continuation_bit, hb]; omega), type_bits, size_bits, hb,
      show (t * 16 + size) / 16 % 8 = t by omega, show (t * 16 + size) % 16 = size by omega]
    simp only [ok_bind]
    rw [failIf_of_not (by omega)]
    rfl
  · have hb := byte_toNat (show t * 16 + size % 16 + 128 < 256 by omega)
    rw [failIf_of_not (by simp)]
    have hi : index (pre ++ UInt8.ofNat (t * 16 + size % 16 + 128) :: leb128 (size / 16) ++ rest)
        pre.length = ok (UInt8.ofNat (t * 16 + size % 16 + 128)) := by simp [index]
    have hloop := headerLoop_leb128
      (pre ++ UInt8.ofNat (t * 16 + size % 16 + 128) :: leb128 (size / 16) ++ rest)
      (pre ++ [UInt8.ofNat (t * 16 + size % 16 + 128)]) rest
      (UInt8.ofNat (t * 16 + size % 16 + 128)) (size / 16) (size % 16) 4
      (by simp) (by omega) (by omega) (by omega)
    rw [List.length_append, List.length_singleton] at hloop
    rw [ok_bind, hi, ok_bind, type_bits, size_bits, hb,
      show (t * 16 + size % 16 + 128) % 16 = size % 16 by omega,
      show (t * 16 + size % 16 + 128) / 16 % 8 = t by omega, hloop,
      show size % 16 + size / 16 * 2 ^ 4 = size by omega]
    simp only [ok_bind]
    rw [failIf_of_not (by omega), List.length_cons, Nat.add_right_comm, Nat.add_assoc]
    rfl

theorem ofsLoop_offsetPrefix (pack pre rest : List UInt8) (m : ℕ)
    (hpack : pack = pre ++ offsetPrefix m ++ rest) (hm : m < 2 ^ 56) :
    ofsLoop pack 0 pre.length = ofsLoop pack m (pre.length + (offsetPrefix m).length) := by
  induction m using Nat.strong_induction_on generalizing rest with
  | _ m ih =>
    by_cases h0 : m = 0
    · rw [h0, offsetPrefix, if_pos rfl]
      rfl
    · have hl : offsetPrefix m =
          offsetPrefix ((m - 1) / 128) ++ [UInt8.ofNat ((m - 1) % 128 + 128)] := by
        rw [offsetPrefix, if_neg h0]
      have hb := byte_toNat (show (m - 1) % 128 + 128 < 256 by omega)
      rw [hl, ← List.append_assoc pre, List.append_assoc _ _ rest] at hpack
      rw [ih ((m - 1) / 128) (by omega) _ hpack (by omega), ofsLoop, if_neg (by simp [hpack])]
      have hi : index pack (pre.length + (offsetPrefix ((m - 1) / 128)).length) =
          ok (UInt8.ofNat ((m - 1) % 128 + 128)) := by
        rw [← List.length_append, hpack]
        exact index_append _ _ _
      simp only [hi, ok_bind, payload_bits]
      rw [if_neg (by rw [continuation_bit, hb]; omega), hb,
        or_last_group (by omega) (by omega), hl, List.length_append, List.length_singleton]
      have hgroup : ((m - 1) / 128 * 128 + ((m - 1) % 128 + 128) % 128 + 1) % 2 ^ 64 = m := by omega
      rw [hgroup, Nat.add_assoc]

theorem decode_ofs_encode (pre rest : List UInt8) {n : ℕ} (hn : n < 2 ^ 63) :
    decodeOFSDelta (pre ++ encodeOFSDelta n ++ rest) pre.length =
      ok ((n : ℤ), pre.length + (encodeOFSDelta n).length) := by
  have hb := byte_toNat (show n % 128 < 256 by omega)
  have hi : index (pre ++ encodeOFSDelta n ++ rest)
      (pre.length + (offsetPrefix (n / 128)).length) = ok (UInt8.ofNat (n % 128)) := by
    rw [← List.length_append, encodeOFSDelta, ← List.append_assoc pre, List.append_assoc _ _ rest]
    exact index_append _ _ _
  unfold decodeOFSDelta
  rw [ofsLoop_offsetPrefix _ pre ([UInt8.ofNat (n % 128)] ++ rest) (n / 128)
    (by simp [encodeOFSDelta]) (by omega), ofsLoop, if_neg (by simp [encodeOFSDelta])]
  simp only [hi, ok_bind, payload_bits]
  rw [if_pos (by rw [continuation_bit, hb]; omega), hb, or_last_group (by omega) (by omega),
    ok_bind, show n / 128 * 128 + n % 128 % 128 = n by omega, int64_of_range (by omega) (by omega)]
  simp only [encodeOFSDelta, List.length_append, List.length_singleton, Nat.add_assoc]

theorem deltaVarintLoop_leb128 (data pre rest : List UInt8) (m accum shift : ℕ)
    (hdata : data = pre ++ leb128 m ++ rest) (ha : accum < 2 ^ shift)
    (hfit : accum + m * 2 ^ shift < 2 ^ 63) (hs : shift < 64) :
    deltaVarintLoop data accum shift pre.length =
      ok (accum + m * 2 ^ shift, pre.length + (leb128 m).length) := by
  induction m using Nat.strong_induction_on generalizing pre accum shift with
  | _ m ih =>
    by_cases hm : m < 128
    · have hl := leb128_last hm
      have hb := byte_toNat (show m < 256 by omega)
      rw [hl] at hdata ⊢
      subst hdata
      rw [deltaVarintLoop, if_neg (by simp; omega)]
      simp only [List.append_assoc, List.cons_append, List.nil_append, index_append, ok_bind]
      rw [if_pos (by rw [continuation_bit, hb]; exact hm), payload_bits, hb,
        Nat.mod_eq_of_lt hm, or_group ha (by omega)]
      rfl
    · have hl := leb128_more hm
      have hb := byte_toNat (show m % 128 + 128 < 256 by omega)
      have hsplit := split_group m shift
      have hg : m % 128 * 2 ^ shift ≤ 127 * 2 ^ shift := Nat.mul_le_mul_right _ (by omega)
      have hpow : 2 ^ (shift + 7) = 128 * 2 ^ shift := by ring
      -- The next group is not empty, so its shift is still below the word size.
      have hnext : 2 ^ (shift + 7) ≤ m / 128 * 2 ^ (shift + 7) :=
        Nat.le_mul_of_pos_left _ (by omega)
      have hs' : shift + 7 < 64 :=
        (Nat.pow_lt_pow_iff_right (show 1 < 2 by omega)).mp (by omega)
      have hi : index data pre.length = ok (UInt8.ofNat (m % 128 + 128)) := by
        rw [hdata, hl]; simp [index]
      rw [deltaVarintLoop, if_neg (by rw [hdata, hl]; simp; omega), hi, ok_bind]
      simp only [payload_bits]
      rw [if_neg (by rw [continuation_bit, hb]; omega), hb,
        show (m % 128 + 128) % 128 = m % 128 by omega, or_group ha (by omega)]
      have := ih (m / 128) (by omega) (pre ++ [UInt8.ofNat (m % 128 + 128)])
        (accum + m % 128 * 2 ^ shift) (shift + 7) (by rw [hdata, hl]; simp)
        (by omega) (by omega) hs'
      rw [List.length_append, List.length_singleton] at this
      rw [this, hl, List.length_cons]
      have hsum : accum + m % 128 * 2 ^ shift + m / 128 * 2 ^ (shift + 7) =
          accum + m * 2 ^ shift := by
        omega
      rw [hsum, Nat.add_assoc, Nat.add_comm 1]

theorem read_delta_varint_encode (pre rest : List UInt8) {n : ℕ} (hn : n < 2 ^ 63) :
    readDeltaVarint (pre ++ leb128 n ++ rest) pre.length =
      ok ((n : ℤ), pre.length + (leb128 n).length) := by
  unfold readDeltaVarint
  rw [deltaVarintLoop_leb128 _ pre rest n 0 0 rfl (by simp) (by omega) (by omega), ok_bind]
  simp only [Nat.zero_add, Nat.pow_zero, Nat.mul_one]
  rw [int64_of_range (by omega) (by omega)]

/-! ### Every read moves forward, inside the data, and no index is out of range -/

theorem headerLoop_pos {pack : List UInt8} {c : UInt8} {accum shift pos a p : ℕ}
    (h : headerLoop pack c accum shift pos = ok (a, p)) (hp : pos ≤ pack.length) :
    pos ≤ p ∧ p ≤ pack.length := by
  fun_induction headerLoop pack c accum shift pos with
  | case1 => simp_all
  | case2 => simp at h
  | case3 c accum shift pos hc hlt ih =>
    obtain ⟨b, _, hb⟩ := bind_eq_ok.mp h
    have := ih b hb (by omega)
    omega

theorem headerLoop_ne_panic (pack : List UInt8) (c : UInt8) (accum shift pos : ℕ) :
    headerLoop pack c accum shift pos ≠ panic := by
  fun_induction headerLoop pack c accum shift pos with
  | case1 => simp
  | case2 => simp
  | case3 c accum shift pos hc hlt ih =>
    intro h
    rcases bind_eq_panic.mp h with h | ⟨b, _, hb⟩
    · exact hlt (index_eq_panic.mp h)
    · exact ih b hb

theorem decode_header_pos {pack : List UInt8} {pos t n p : ℕ}
    (h : decodePackObjectHeader pack pos = ok (t, n, p)) : pos < p ∧ p ≤ pack.length := by
  simp only [decodePackObjectHeader, bind_eq_ok, failIf_eq_ok, ok.injEq, Prod.mk.injEq] at h
  obtain ⟨_, hlt, c, _, ⟨a, q⟩, hl, _, _, _, _, rfl⟩ := h
  have := headerLoop_pos hl (by omega)
  simp only at *
  omega

theorem decode_header_ne_panic (pack : List UInt8) (pos : ℕ) :
    decodePackObjectHeader pack pos ≠ panic := by
  intro h
  simp only [decodePackObjectHeader, bind_eq_panic, failIf_eq_ok, failIf_ne_panic, false_or,
    index_eq_panic, reduceCtorEq, and_false, exists_false, or_false] at h
  obtain ⟨_, hlt, h | ⟨c, _, h⟩⟩ := h
  · exact hlt h
  · exact headerLoop_ne_panic _ _ _ _ _ h

theorem ofsLoop_pos {pack : List UInt8} {offset pos a p : ℕ}
    (h : ofsLoop pack offset pos = ok (a, p)) : pos < p ∧ p ≤ pack.length := by
  fun_induction ofsLoop pack offset pos with
  | case1 => simp at h
  | case2 offset pos hlt ih =>
    obtain ⟨c, _, hc⟩ := bind_eq_ok.mp h
    simp only at hc
    split at hc
    · simp only [ok.injEq, Prod.mk.injEq] at hc
      omega
    · have := ih c hc
      omega

theorem ofsLoop_ne_panic (pack : List UInt8) (offset pos : ℕ) :
    ofsLoop pack offset pos ≠ panic := by
  fun_induction ofsLoop pack offset pos with
  | case1 => simp
  | case2 offset pos hlt ih =>
    intro h
    rcases bind_eq_panic.mp h with h | ⟨c, _, hc⟩
    · exact hlt (index_eq_panic.mp h)
    · simp only at hc
      split at hc
      · cases hc
      · exact ih c hc

theorem decode_ofs_pos {pack : List UInt8} {pos p : ℕ} {n : ℤ}
    (h : decodeOFSDelta pack pos = ok (n, p)) : pos < p ∧ p ≤ pack.length := by
  simp only [decodeOFSDelta, bind_eq_ok, ok.injEq, Prod.mk.injEq] at h
  obtain ⟨⟨a, q⟩, hl, _, rfl⟩ := h
  exact ofsLoop_pos hl

theorem decode_ofs_ne_panic (pack : List UInt8) (pos : ℕ) : decodeOFSDelta pack pos ≠ panic := by
  intro h
  simp only [decodeOFSDelta, bind_eq_panic, reduceCtorEq, and_false, exists_false, or_false] at h
  exact ofsLoop_ne_panic _ _ _ h

theorem deltaVarintLoop_ne_panic (data : List UInt8) (accum shift pos : ℕ) :
    deltaVarintLoop data accum shift pos ≠ panic := by
  fun_induction deltaVarintLoop data accum shift pos with
  | case1 => simp
  | case2 accum shift pos hlt ih =>
    intro h
    rcases bind_eq_panic.mp h with h | ⟨c, _, hc⟩
    · exact hlt (Or.inl (index_eq_panic.mp h))
    · simp only at hc
      split at hc
      · cases hc
      · exact ih c hc

theorem read_delta_varint_ne_panic (data : List UInt8) (pos : ℕ) :
    readDeltaVarint data pos ≠ panic := by
  intro h
  simp only [readDeltaVarint, bind_eq_panic, reduceCtorEq, and_false, exists_false, or_false] at h
  exact deltaVarintLoop_ne_panic _ _ _ _ h

end GitpVarint
