import Mathlib.Data.Nat.ModEq
import Overthinkin.GitpVarint

/-! What the three readers make of any bytes: the value of the encoding they consume, modulo the
word size, and when that is the value itself. -/
namespace GitpVarint

open GoRuntime GoRuntime.Outcome

/-- The bytes up to the first one without the continuation bit. -/
def encoding : List UInt8 → Option (List UInt8)
  | [] => none
  | c :: rest => if c.toNat < 128 then some [c] else (encoding rest).map (c :: ·)

/-- Groups of seven bits, the lowest first. -/
def groupsValue : List UInt8 → ℕ
  | [] => 0
  | c :: rest => c.toNat % 128 + 128 * groupsValue rest

/-- Four bits beside the type, then groups of seven. -/
def headerValue : List UInt8 → ℕ
  | [] => 0
  | c :: rest => c.toNat % 16 + 16 * groupsValue rest

/-- Groups of seven bits, the highest first; one is added between two groups. -/
def offsetFrom (offset : ℕ) : List UInt8 → ℕ
  | [] => offset
  | [c] => offset * 128 + c.toNat % 128
  | c :: rest => offsetFrom (offset * 128 + c.toNat % 128 + 1) rest

def offsetValue (bytes : List UInt8) : ℕ := offsetFrom 0 bytes

/-- The size in an object header, and the new value of `*pos`. -/
def headerSize (pack : List UInt8) (pos : ℕ) : Outcome (ℤ × ℕ) := do
  let (_, size, pos) ← decodePackObjectHeader pack pos
  ok (size, pos)

/-- Whatever is read at `pos` is the value of the encoding there, and all of it is consumed. -/
def Exact (read : Outcome (ℤ × ℕ)) (value : List UInt8 → ℕ) (data : List UInt8) (pos : ℕ) :
    Prop :=
  ∀ n p, read = ok (n, p) →
    ∃ e, encoding (data.drop pos) = some e ∧ p = pos + e.length ∧ n = value e

/-! ### Encodings -/

variable {data e : List UInt8} {pos : ℕ}

theorem encoding_ne_nil {bytes : List UInt8} (h : encoding bytes = some e) : e ≠ [] := by
  cases bytes with
  | nil => cases h
  | cons c rest =>
    rw [encoding] at h
    split_ifs at h
    · cases h
      exact List.cons_ne_nil _ _
    · obtain ⟨_, _, rfl⟩ := Option.map_eq_some_iff.mp h
      exact List.cons_ne_nil _ _

theorem index_of_lt (h : ¬ data.length ≤ pos) : ∃ c, index data pos = ok c := by
  rw [Nat.not_le] at h
  exact ⟨data[pos], by rw [index, List.getElem?_eq_getElem h]⟩

theorem encoding_nothing (h : data.length ≤ pos) : encoding (data.drop pos) = none := by
  rw [List.drop_of_length_le h, encoding]

/-! ### One group more -/

/-- The groups that follow are added to what the word has kept. -/
theorem group_then (accum shift g m : ℕ) :
    ((accum + g * 2 ^ shift) % 2 ^ 64 + m * 2 ^ (shift + 7)) % 2 ^ 64 =
      (accum + (g + 128 * m) * 2 ^ shift) % 2 ^ 64 := by
  have hsum : accum + g * 2 ^ shift + m * 2 ^ (shift + 7) = accum + (g + 128 * m) * 2 ^ shift := by
    ring
  rw [Nat.mod_add_mod, hsum]

theorem or_last_group_mod {g : ℕ} (hg : g < 128) (offset : ℕ) :
    (offset <<< 7) % 2 ^ 64 ||| g = (offset * 128 + g) % 2 ^ 64 := by
  have hsum : offset <<< 7 ||| g = offset * 128 + g := by
    rw [Nat.shiftLeft_eq, Nat.mul_comm]
    exact (Nat.two_pow_add_eq_or_of_lt (i := 7) hg offset).symm
  rw [← hsum, Nat.or_mod_two_pow, Nat.mod_eq_of_lt (show g < 2 ^ 64 by omega)]

theorem offsetFrom_modEq {n a b : ℕ} (h : a ≡ b [MOD n]) (bytes : List UInt8) :
    offsetFrom a bytes ≡ offsetFrom b bytes [MOD n] := by
  induction bytes generalizing a b with
  | nil => exact h
  | cons c rest ih =>
    have hstep := (h.mul_right 128).add_right (c.toNat % 128)
    cases rest with
    | nil => exact hstep
    | cons c' rest => exact ih (hstep.add_right 1)

/-! ### The loops -/

theorem headerLoop_eq (pack : List UInt8) {c : UInt8} {accum shift : ℕ} (pos : ℕ)
    (hc : ¬ c.toNat < 128) (ha : accum < 2 ^ shift) (hw : accum < 2 ^ 64) :
    headerLoop pack c accum shift pos =
      match encoding (pack.drop pos) with
      | none => error "malformed packfile header"
      | some e => ok ((accum + groupsValue e * 2 ^ shift) % 2 ^ 64, pos + e.length) := by
  fun_induction headerLoop pack c accum shift pos with
  | case1 c _ _ _ h => exact (hc ((continuation_bit c).mp h)).elim
  | case2 _ _ _ _ _ h => rw [encoding_nothing h]
  | case3 c accum shift pos _ hlt ih =>
    obtain ⟨d, hd⟩ := index_of_lt hlt
    rw [hd, ok_bind, drop_of_index hd, encoding, payload_bits, or_group_mod ha hw]
    have hmod : (accum + d.toNat % 128 * 2 ^ shift) % 2 ^ 64 < 2 ^ 64 :=
      Nat.mod_lt _ (by decide)
    split_ifs with hlast
    · rw [headerLoop, if_pos ((continuation_bit d).mpr hlast)]
      simp only [groupsValue, Nat.mul_zero, Nat.add_zero, List.length_singleton]
    · have hnext := ih d hlast
      rw [payload_bits, or_group_mod ha hw] at hnext
      rw [hnext (group_lt ha (Nat.mod_lt _ (by decide))) hmod]
      cases encoding (pack.drop (pos + 1)) with
      | none => rfl
      | some e =>
        simp only [Option.map_some, groupsValue, List.length_cons, group_then]
        rw [Nat.add_assoc, Nat.add_comm 1]

theorem ofsLoop_eq (pack : List UInt8) (offset pos : ℕ) :
    ofsLoop pack offset pos =
      match encoding (pack.drop pos) with
      | none => error "truncated offset delta"
      | some e => ok (offsetFrom offset e % 2 ^ 64, pos + e.length) := by
  fun_induction ofsLoop pack offset pos with
  | case1 _ _ h => rw [encoding_nothing h]
  | case2 offset pos hlt ih =>
    obtain ⟨d, hd⟩ := index_of_lt hlt
    have hg : d.toNat % 128 < 128 := Nat.mod_lt _ (by decide)
    rw [hd, ok_bind, drop_of_index hd, encoding, payload_bits, or_last_group_mod hg]
    simp only [continuation_bit]
    split_ifs with hlast
    · rfl
    · have hnext := ih d
      rw [payload_bits, or_last_group_mod hg] at hnext
      rw [hnext]
      cases he : encoding (pack.drop (pos + 1)) with
      | none => rfl
      | some e =>
        obtain ⟨c, rest, rfl⟩ := List.exists_cons_of_ne_nil (encoding_ne_nil he)
        simp only [Option.map_some, List.length_cons, offsetFrom]
        have hmod : ((offset * 128 + d.toNat % 128) % 2 ^ 64 + 1) % 2 ^ 64 ≡
            offset * 128 + d.toNat % 128 + 1 [MOD 2 ^ 64] :=
          (Nat.mod_modEq _ _).trans ((Nat.mod_modEq _ _).add_right 1)
        have hpos : pos + 1 + (rest.length + 1) = pos + (rest.length + 1 + 1) := by omega
        rw [offsetFrom_modEq hmod (c :: rest), hpos]

theorem deltaVarintLoop_eq (data : List UInt8) {accum shift : ℕ} (pos : ℕ)
    (ha : accum < 2 ^ shift) (hw : accum < 2 ^ 64) :
    deltaVarintLoop data accum shift pos =
      match encoding (data.drop pos) with
      | none => error "malformed delta varint"
      | some e =>
        if shift + 7 * e.length < 71 then
          ok ((accum + groupsValue e * 2 ^ shift) % 2 ^ 64, pos + e.length)
        else error "malformed delta varint" := by
  fun_induction deltaVarintLoop data accum shift pos with
  | case1 accum shift pos h =>
    rcases h with h | h
    · rw [encoding_nothing h]
    · cases he : encoding (data.drop pos) with
      | none => rfl
      | some e =>
        have hpos := List.length_pos_of_ne_nil (encoding_ne_nil he)
        dsimp only
        rw [if_neg (by omega)]
  | case2 accum shift pos h ih =>
    rw [not_or] at h
    obtain ⟨d, hd⟩ := index_of_lt h.1
    rw [hd, ok_bind, drop_of_index hd, encoding, payload_bits, or_group_mod ha hw]
    simp only [continuation_bit]
    have hmod : (accum + d.toNat % 128 * 2 ^ shift) % 2 ^ 64 < 2 ^ 64 :=
      Nat.mod_lt _ (by decide)
    split_ifs with hlast
    · have hshort : shift + 7 * 1 < 71 := by omega
      simp only [groupsValue, Nat.mul_zero, Nat.add_zero, List.length_singleton, if_pos hshort]
    · have hnext := ih d
      rw [payload_bits, or_group_mod ha hw] at hnext
      rw [hnext (group_lt ha (Nat.mod_lt _ (by decide))) hmod]
      cases encoding (data.drop (pos + 1)) with
      | none => rfl
      | some e =>
        have hlen : shift + 7 + 7 * e.length = shift + 7 * (e.length + 1) := by ring
        simp only [Option.map_some, groupsValue, List.length_cons, group_then, hlen]
        rw [Nat.add_assoc pos 1, Nat.add_comm 1]

/-! ### The readers -/

/-- The check behind the loop, on what the loop returned. -/
theorem sized_eq_ok {t accum pos p : ℕ} {n : ℤ} :
    ((failIf (accum > 2 ^ 63 - 1) "pack object size too large" >>= fun _ => ok (t, accum, pos)) >>=
      fun read => ok ((read.2.1 : ℤ), read.2.2)) = ok (n, p) ↔
      accum < 2 ^ 63 ∧ n = accum ∧ p = pos := by
  by_cases hbig : accum > 2 ^ 63 - 1
  · have hnot : ¬ accum < 2 ^ 63 := by omega
    rw [failIf, if_pos hbig]
    simp only [error_bind, reduceCtorEq, hnot, false_and]
  · have hlt : accum < 2 ^ 63 := by omega
    rw [failIf_of_not hbig]
    simp only [ok_bind, ok.injEq, Prod.mk.injEq, hlt, true_and, eq_comm]

/-- Four bits of the first byte and the groups behind its continuation bit, modulo 2^64. -/
theorem headerSize_eq_ok {pack : List UInt8} {n : ℤ} {pos p : ℕ} :
    headerSize pack pos = ok (n, p) ↔ ∃ e, encoding (pack.drop pos) = some e ∧
      headerValue e % 2 ^ 64 < 2 ^ 63 ∧ n = (headerValue e % 2 ^ 64 : ℕ) ∧ p = pos + e.length := by
  by_cases hpos : pack.length ≤ pos
  · rw [encoding_nothing hpos, headerSize, decodePackObjectHeader, failIf, if_pos hpos]
    simp
  · obtain ⟨c, hc⟩ := index_of_lt hpos
    rw [headerSize, decodePackObjectHeader, failIf_of_not hpos, ok_bind, hc, ok_bind, size_bits,
      drop_of_index hc, encoding]
    have hbits : c.toNat % 16 < 2 ^ 4 := Nat.mod_lt _ (by decide)
    by_cases hlast : c.toNat < 128
    · have hval : headerValue [c] % 2 ^ 64 = c.toNat % 16 := by
        rw [headerValue, groupsValue]
        omega
      rw [headerLoop, if_pos ((continuation_bit c).mpr hlast), if_pos hlast, ok_bind]
      simp only [Option.some.injEq, exists_eq_left', hval, List.length_singleton]
      exact sized_eq_ok
    · rw [headerLoop_eq pack (pos + 1) hlast hbits (by omega), if_neg hlast]
      cases encoding (pack.drop (pos + 1)) with
      | none => simp
      | some e =>
        have hval : (c.toNat % 16 + groupsValue e * 2 ^ 4) % 2 ^ 64 =
            headerValue (c :: e) % 2 ^ 64 := by
          rw [headerValue, Nat.mul_comm (groupsValue e)]
          rfl
        have hlen : pos + 1 + e.length = pos + (c :: e).length := by
          rw [List.length_cons]
          omega
        simp only [Option.map_some, Option.some.injEq, exists_eq_left', hval, hlen, ok_bind]
        exact sized_eq_ok

theorem decodeOFSDelta_eq_ok {pack : List UInt8} {n : ℤ} {pos p : ℕ} :
    decodeOFSDelta pack pos = ok (n, p) ↔ ∃ e, encoding (pack.drop pos) = some e ∧
      n = int64 (offsetValue e % 2 ^ 64 : ℕ) ∧ p = pos + e.length := by
  rw [decodeOFSDelta, ofsLoop_eq]
  cases encoding (pack.drop pos) with
  | none => simp
  | some e =>
    simp only [Option.some.injEq, exists_eq_left', ok_bind, ok.injEq, Prod.mk.injEq, offsetValue,
      eq_comm]

/-- The tenth byte is the last whose group still has a place in the word. -/
theorem readDeltaVarint_eq_ok {n : ℤ} {p : ℕ} :
    readDeltaVarint data pos = ok (n, p) ↔ ∃ e, encoding (data.drop pos) = some e ∧
      e.length ≤ 10 ∧ n = int64 (groupsValue e % 2 ^ 64 : ℕ) ∧ p = pos + e.length := by
  rw [readDeltaVarint, deltaVarintLoop_eq data pos (by decide) (by decide)]
  cases encoding (data.drop pos) with
  | none => simp
  | some e =>
    simp only [Option.some.injEq, exists_eq_left']
    by_cases hlen : e.length ≤ 10
    · rw [if_pos (by omega)]
      simp only [hlen, true_and, ok_bind, ok.injEq, Prod.mk.injEq, Nat.zero_add, Nat.pow_zero,
        Nat.mul_one, eq_comm]
    · rw [if_neg (by omega)]
      simp only [hlen, false_and, error_bind, reduceCtorEq]

/-! ### When a read is exact -/

theorem int64_mod (v : ℕ) : int64 (v % 2 ^ 64 : ℕ) = v ↔ v < 2 ^ 63 := by
  rw [int64, Int.bmod_def]
  omega

theorem exact_header_iff (pack : List UInt8) (pos : ℕ) :
    Exact (headerSize pack pos) headerValue pack pos ↔
      ∀ e, encoding (pack.drop pos) = some e →
        headerValue e < 2 ^ 64 ∨ 2 ^ 63 ≤ headerValue e % 2 ^ 64 := by
  constructor
  · intro h e he
    by_cases hsmall : headerValue e % 2 ^ 64 < 2 ^ 63
    · obtain ⟨e', he', -, hn⟩ := h _ _ (headerSize_eq_ok.mpr ⟨e, he, hsmall, rfl, rfl⟩)
      obtain rfl : e = e' := Option.some.inj (he.symm.trans he')
      left
      omega
    · right
      omega
  · intro h n p hr
    obtain ⟨e, he, hsmall, hn, hp⟩ := headerSize_eq_ok.mp hr
    have hfits := h e he
    have hmod : headerValue e % 2 ^ 64 = headerValue e := Nat.mod_eq_of_lt (by omega)
    rw [hmod] at hn
    exact ⟨e, he, hp, hn⟩

theorem exact_ofs_iff (pack : List UInt8) (pos : ℕ) :
    Exact (decodeOFSDelta pack pos) offsetValue pack pos ↔
      ∀ e, encoding (pack.drop pos) = some e → offsetValue e < 2 ^ 63 := by
  constructor
  · intro h e he
    obtain ⟨e', he', -, hn⟩ := h _ _ (decodeOFSDelta_eq_ok.mpr ⟨e, he, rfl, rfl⟩)
    obtain rfl : e = e' := Option.some.inj (he.symm.trans he')
    exact (int64_mod _).mp hn
  · intro h n p hr
    obtain ⟨e, he, hn, hp⟩ := decodeOFSDelta_eq_ok.mp hr
    exact ⟨e, he, hp, hn.trans ((int64_mod _).mpr (h e he))⟩

theorem exact_delta_iff (data : List UInt8) (pos : ℕ) :
    Exact (readDeltaVarint data pos) groupsValue data pos ↔
      ∀ e, encoding (data.drop pos) = some e → e.length ≤ 10 → groupsValue e < 2 ^ 63 := by
  constructor
  · intro h e he hlen
    obtain ⟨e', he', -, hn⟩ := h _ _ (readDeltaVarint_eq_ok.mpr ⟨e, he, hlen, rfl, rfl⟩)
    obtain rfl : e = e' := Option.some.inj (he.symm.trans he')
    exact (int64_mod _).mp hn
  · intro h n p hr
    obtain ⟨e, he, hlen, hn, hp⟩ := readDeltaVarint_eq_ok.mp hr
    exact ⟨e, he, hp, hn.trans ((int64_mod _).mpr (h e he hlen))⟩

/-- A read is exact unless the value has bits above the word: a header may keep 64 bits and is
then checked against the largest `int`, an offset is never checked, and a delta varint is only
checked for its length. -/
theorem integers_exact_iff (data : List UInt8) (pos : ℕ) :
    (Exact (headerSize data pos) headerValue data pos ↔
      ∀ e, encoding (data.drop pos) = some e →
        headerValue e < 2 ^ 64 ∨ 2 ^ 63 ≤ headerValue e % 2 ^ 64) ∧
    (Exact (decodeOFSDelta data pos) offsetValue data pos ↔
      ∀ e, encoding (data.drop pos) = some e → offsetValue e < 2 ^ 63) ∧
    (Exact (readDeltaVarint data pos) groupsValue data pos ↔
      ∀ e, encoding (data.drop pos) = some e → e.length ≤ 10 → groupsValue e < 2 ^ 63) :=
  ⟨exact_header_iff data pos, exact_ofs_iff data pos, exact_delta_iff data pos⟩

/-- Ten bytes whose last group does not fit. -/
def overflowing : List UInt8 := 0x90 :: (List.replicate 8 0x80 ++ [0x10])

theorem encoding_overflowing : encoding (overflowing.drop 0) = some overflowing := by decide

theorem integers_wrap :
    ¬ Exact (headerSize overflowing 0) headerValue overflowing 0 ∧
    ¬ Exact (decodeOFSDelta overflowing 0) offsetValue overflowing 0 ∧
    ¬ Exact (readDeltaVarint overflowing 0) groupsValue overflowing 0 ∧
    headerSize overflowing 0 = ok (0, 10) ∧
    readDeltaVarint (List.replicate 9 0x80 ++ [1]) 0 = ok (-2 ^ 63, 10) := by
  refine ⟨?_, ?_, ?_, ?_, ?_⟩
  · intro h
    have hfits := (exact_header_iff _ _).mp h _ encoding_overflowing
    revert hfits
    decide
  · intro h
    have hfits := (exact_ofs_iff _ _).mp h _ encoding_overflowing
    revert hfits
    decide
  · intro h
    have hfits := (exact_delta_iff _ _).mp h _ encoding_overflowing (by decide)
    revert hfits
    decide
  · exact headerSize_eq_ok.mpr ⟨_, encoding_overflowing, by decide, by decide, by decide⟩
  · exact readDeltaVarint_eq_ok.mpr
      ⟨List.replicate 9 0x80 ++ [1], by decide, by decide, by decide, by decide⟩

end GitpVarint
