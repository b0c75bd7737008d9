import Overthinkin.GitpVarint
import Mathlib.Data.Fin.VecNotation
import Mathlib.Data.Fintype.Basic
import Mathlib.Tactic.FinCases

/-! `applyDelta` of `delta.go`, the instruction language it interprets, and the exact condition
under which its `make` panics. -/
namespace GitpDelta

open GoRuntime GoRuntime.Outcome GitpVarint

/-- One optional byte of a copy command: read when its bit of the command is set. -/
def copyByte (delta : List UInt8) (cmd mask : UInt8) (shift accum pos : ℕ) : Outcome (ℕ × ℕ) :=
  if cmd &&& mask ≠ 0 then do
    failIf (delta.length ≤ pos) "truncated delta"
    let b ← index delta pos
    ok (accum ||| (b.toNat <<< shift), pos + 1)
  else ok (accum, pos)

/-- Offset, size and the position after a copy command. -/
def readCopy (delta : List UInt8) (cmd : UInt8) (pos : ℕ) : Outcome (ℕ × ℕ × ℕ) := do
  let (offset, pos) ← copyByte delta cmd 0x01 0 0 pos
  let (offset, pos) ← copyByte delta cmd 0x02 8 offset pos
  let (offset, pos) ← copyByte delta cmd 0x04 16 offset pos
  let (offset, pos) ← copyByte delta cmd 0x08 24 offset pos
  let (size, pos) ← copyByte delta cmd 0x10 0 0 pos
  let (size, pos) ← copyByte delta cmd 0x20 8 size pos
  let (size, pos) ← copyByte delta cmd 0x40 16 size pos
  ok (offset, if size = 0 then 0x10000 else size, pos)

/-- One turn of the loop: the position after the command and the longer result. -/
def deltaStep (base delta : List UInt8) (targetSize : ℤ) (pos : ℕ) (result : List UInt8) :
    Outcome (ℕ × List UInt8) := do
  failIf (delta.length ≤ pos) "truncated delta"
  let cmd ← index delta pos
  if cmd &&& 0x80 ≠ 0 then
    let (offset, size, pos) ← readCopy delta cmd (pos + 1)
    failIf ((offset : ℤ) < 0 ∨ offset > base.length ∨ (size : ℤ) > base.length - offset ∨
      (size : ℤ) > targetSize - result.length) "delta copy out of range"
    let chunk ← slice base offset (offset + size)
    ok (pos, result ++ chunk)
  else if cmd = 0 then error "invalid delta command"
  else
    failIf (pos + 1 + cmd.toNat > delta.length) "truncated delta"
    failIf ((cmd.toNat : ℤ) > targetSize - result.length) "delta insert out of range"
    let chunk ← slice delta (pos + 1) (pos + 1 + cmd.toNat)
    ok (pos + 1 + cmd.toNat, result ++ chunk)

theorem copyByte_pos {delta : List UInt8} {cmd mask : UInt8} {shift accum pos a p : ℕ}
    (h : copyByte delta cmd mask shift accum pos = ok (a, p)) :
    pos ≤ p ∧ p ≤ max pos delta.length := by
  unfold copyByte at h
  split at h
  · simp only [bind_eq_ok, failIf_eq_ok, ok.injEq, Prod.mk.injEq] at h
    obtain ⟨_, hlt, _, _, _, rfl⟩ := h
    omega
  · simp only [ok.injEq, Prod.mk.injEq] at h
    omega

theorem copyByte_ne_panic (delta : List UInt8) (cmd mask : UInt8) (shift accum pos : ℕ) :
    copyByte delta cmd mask shift accum pos ≠ panic := by
  unfold copyByte
  split
  · simp [bind_eq_panic, failIf_eq_ok, index_eq_panic]
  · simp

theorem readCopy_pos {delta : List UInt8} {cmd : UInt8} {pos o n p : ℕ}
    (h : readCopy delta cmd pos = ok (o, n, p)) : pos ≤ p ∧ p ≤ max pos delta.length := by
  simp only [readCopy, bind_eq_ok, ok.injEq, Prod.mk.injEq, Prod.exists] at h
  obtain ⟨_, p₁, h₁, _, p₂, h₂, _, p₃, h₃, _, p₄, h₄, _, p₅, h₅, _, p₆, h₆, _, p₇, h₇, _, _,
    rfl⟩ := h
  have := copyByte_pos h₁
  have := copyByte_pos h₂
  have := copyByte_pos h₃
  have := copyByte_pos h₄
  have := copyByte_pos h₅
  have := copyByte_pos h₆
  have := copyByte_pos h₇
  omega

theorem readCopy_ne_panic (delta : List UInt8) (cmd : UInt8) (pos : ℕ) :
    readCopy delta cmd pos ≠ panic := by
  simp [readCopy, bind_eq_panic, copyByte_ne_panic]

/-- A command consumes at least its own byte and stays inside the delta. -/
theorem deltaStep_pos {base delta result r : List UInt8} {targetSize : ℤ} {pos p : ℕ}
    (h : deltaStep base delta targetSize pos result = ok (p, r)) :
    pos < p ∧ p ≤ delta.length := by
  simp only [deltaStep, bind_eq_ok, failIf_eq_ok] at h
  obtain ⟨_, hlt, cmd, _, h⟩ := h
  split_ifs at h
  · simp only [bind_eq_ok, failIf_eq_ok, ok.injEq, Prod.mk.injEq, Prod.exists] at h
    obtain ⟨o, n, q, hc, _, _, _, _, rfl, _⟩ := h
    have := readCopy_pos hc
    omega
  · simp only [bind_eq_ok, failIf_eq_ok, ok.injEq, Prod.mk.injEq] at h
    obtain ⟨_, hle, _, _, _, _, rfl, _⟩ := h
    omega

theorem deltaStep_ne_panic (base delta : List UInt8) (targetSize : ℤ) (pos : ℕ)
    (result : List UInt8) : deltaStep base delta targetSize pos result ≠ panic := by
  intro h
  simp only [deltaStep, bind_eq_panic, failIf_ne_panic, failIf_eq_ok, index_eq_panic,
    false_or] at h
  obtain ⟨_, hlt, h | ⟨cmd, _, h⟩⟩ := h
  · omega
  · split_ifs at h
    · simp only [bind_eq_panic, readCopy_ne_panic, failIf_ne_panic, failIf_eq_ok, false_or,
        slice_eq_panic, reduceCtorEq, and_false, exists_false, or_false, Prod.exists] at h
      obtain ⟨o, n, q, _, _, hr, hs⟩ := h
      exact hs (by omega)
    · simp only [bind_eq_panic, failIf_ne_panic, failIf_eq_ok, false_or,
        slice_eq_panic, reduceCtorEq, and_false, exists_false, or_false] at h
      obtain ⟨_, hle, _, _, hs⟩ := h
      exact hs (by omega)

/-- `for len(result) < targetSize`. -/
def applyLoop (base delta : List UInt8) (targetSize : ℤ) (pos : ℕ) (result : List UInt8) :
    Outcome (ℕ × List UInt8) :=
  if (result.length : ℤ) < targetSize then
    match _h : deltaStep base delta targetSize pos result with
    | .ok (p, r) => applyLoop base delta targetSize p r
    | .error e => .error e
    | .panic => .panic
  else ok (pos, result)
termination_by delta.length - pos
decreasing_by
  have := deltaStep_pos _h
  omega

def applyDelta (rt : Runtime) (base delta : List UInt8) : Outcome (List UInt8) := do
  let (baseSize, pos) ← readDeltaVarint delta 0
  let (targetSize, pos) ← readDeltaVarint delta pos
  failIf (baseSize ≠ base.length) "delta base size mismatch"
  let result ← rt.make targetSize
  let (pos, result) ← applyLoop base delta targetSize pos result
  failIf ((result.length : ℤ) ≠ targetSize ∨ pos ≠ delta.length) "trailing garbage in delta"
  ok result

theorem applyLoop_of_step {base delta result r : List UInt8} {targetSize : ℤ} {pos p : ℕ}
    (hlt : (result.length : ℤ) < targetSize)
    (h : deltaStep base delta targetSize pos result = ok (p, r)) :
    applyLoop base delta targetSize pos result = applyLoop base delta targetSize p r := by
  rw [applyLoop, if_pos hlt]
  split
  · rename_i q s hq
    rw [h] at hq
    simp only [ok.injEq, Prod.mk.injEq] at hq
    rw [hq.1, hq.2]
  all_goals simp_all

theorem applyLoop_ne_panic (base delta : List UInt8) (targetSize : ℤ) (pos : ℕ)
    (result : List UInt8) : applyLoop base delta targetSize pos result ≠ panic := by
  fun_induction applyLoop base delta targetSize pos result with
  | case1 pos result hlt p r h ih => exact ih
  | case2 => simp
  | case3 pos result hlt h => exact (deltaStep_ne_panic _ _ _ _ _ h).elim
  | case4 => simp

/-- The header of `delta` matches `base` and declares a target size `make` refuses. -/
def RefusedTarget (rt : Runtime) (base delta : List UInt8) : Prop :=
  ∃ p q targetSize, readDeltaVarint delta 0 = ok ((base.length : ℤ), p) ∧
    readDeltaVarint delta p = ok (targetSize, q) ∧
    ¬ (0 ≤ targetSize ∧ targetSize ≤ rt.maxAlloc)

theorem applyDelta_panics_iff (rt : Runtime) (base delta : List UInt8) :
    applyDelta rt base delta = panic ↔ RefusedTarget rt base delta := by
  simp only [applyDelta, bind_eq_panic, read_delta_varint_ne_panic, failIf_ne_panic, failIf_eq_ok,
    applyLoop_ne_panic, Runtime.make_eq_panic, false_or, reduceCtorEq, and_false, exists_false,
    or_false, Prod.exists, RefusedTarget]
  constructor
  · rintro ⟨b, p, hb, t, q, ht, _, hm, hr⟩
    rw [not_not] at hm
    exact ⟨p, q, t, hm ▸ hb, ht, hr⟩
  · rintro ⟨p, q, t, hb, ht, hr⟩
    exact ⟨_, p, hb, t, q, ht, (), by simp, hr⟩

/-! ### The instruction language

A delta is a list of copies from the base and insertions; `keep` names the zero bytes of a copy
that are written although they could be left out, and `short` says that a size of 0x10000 is
written as zero. -/

inductive DeltaOp where
  | copy (offset size : ℕ) (keep : Fin 7 → Bool) (short : Bool)
  | insert (data : List UInt8)

namespace DeltaOp

def Valid (base : List UInt8) : DeltaOp → Prop
  | copy offset size _ _ =>
    offset < 2 ^ 32 ∧ 1 ≤ size ∧ size < 2 ^ 24 ∧ offset + size ≤ base.length
  | insert data => 1 ≤ data.length ∧ data.length ≤ 127

instance (base : List UInt8) (op : DeltaOp) : Decidable (op.Valid base) := by
  cases op <;> unfold Valid <;> infer_instance

def output (base : List UInt8) : DeltaOp → List UInt8
  | copy offset size _ _ => (base.drop offset).take size
  | insert data => data

theorem output_pos {base : List UInt8} {op : DeltaOp} (h : op.Valid base) :
    0 < (op.output base).length := by
  cases op with
  | copy offset size keep short =>
    simp only [Valid] at h
    simp only [output, List.length_take, List.length_drop]
    omega
  | insert data =>
    simp only [Valid] at h
    simp only [output]
    omega

/-- One byte of a copy command, or nothing. -/
def field (present : Bool) (b : ℕ) : List UInt8 := if present then [UInt8.ofNat b] else []

def commandBit (present : Bool) (mask : UInt8) : UInt8 := if present then mask else 0

def copyCommand (p₀ p₁ p₂ p₃ p₄ p₅ p₆ : Bool) : UInt8 :=
  0x80 ||| commandBit p₀ 0x01 ||| commandBit p₁ 0x02 ||| commandBit p₂ 0x04 |||
    commandBit p₃ 0x08 ||| commandBit p₄ 0x10 ||| commandBit p₅ 0x20 ||| commandBit p₆ 0x40

/-- The seven optional bytes: four of the offset, three of the size. -/
def copyFields (offset size : ℕ) : Fin 7 → ℕ :=
  ![offset % 256, offset / 2 ^ 8 % 256, offset / 2 ^ 16 % 256, offset / 2 ^ 24 % 256,
    size % 256, size / 2 ^ 8 % 256, size / 2 ^ 16 % 256]

/-- A byte may be left out when it is zero. -/
def present (keep : Fin 7 → Bool) (b : Fin 7 → ℕ) (i : Fin 7) : Bool := keep i || b i != 0

def presentField (keep : Fin 7 → Bool) (b : Fin 7 → ℕ) (i : Fin 7) : List UInt8 :=
  field (present keep b i) (b i)

def encodeFields (keep : Fin 7 → Bool) (b : Fin 7 → ℕ) : List UInt8 :=
  presentField keep b 0 ++ presentField keep b 1 ++ presentField keep b 2 ++
    presentField keep b 3 ++ presentField keep b 4 ++ presentField keep b 5 ++
    presentField keep b 6

def commandOf (keep : Fin 7 → Bool) (b : Fin 7 → ℕ) : UInt8 :=
  copyCommand (present keep b 0) (present keep b 1) (present keep b 2) (present keep b 3)
    (present keep b 4) (present keep b 5) (present keep b 6)

def encodeCopy (offset size : ℕ) (keep : Fin 7 → Bool) : List UInt8 :=
  commandOf keep (copyFields offset size) :: encodeFields keep (copyFields offset size)

def encode : DeltaOp → List UInt8
  | copy offset size keep short =>
    encodeCopy offset (if size = 0x10000 ∧ short then 0 else size) keep
  | insert data => UInt8.ofNat data.length :: data

end DeltaOp

open DeltaOp

def deltaOutput (base : List UInt8) (ops : List DeltaOp) : List UInt8 :=
  ops.flatMap (DeltaOp.output base)

/-- Both sizes, then the instructions. -/
def encodeDelta (base : List UInt8) (ops : List DeltaOp) : List UInt8 :=
  leb128 base.length ++ leb128 (deltaOutput base ops).length ++ ops.flatMap DeltaOp.encode

theorem command_bits : ∀ p₀ p₁ p₂ p₃ p₄ p₅ p₆ : Bool,
    copyCommand p₀ p₁ p₂ p₃ p₄ p₅ p₆ &&& 0x80 ≠ 0 ∧
    (copyCommand p₀ p₁ p₂ p₃ p₄ p₅ p₆ &&& 0x01 ≠ 0 ↔ p₀ = true) ∧
    (copyCommand p₀ p₁ p₂ p₃ p₄ p₅ p₆ &&& 0x02 ≠ 0 ↔ p₁ = true) ∧
    (copyCommand p₀ p₁ p₂ p₃ p₄ p₅ p₆ &&& 0x04 ≠ 0 ↔ p₂ = true) ∧
    (copyCommand p₀ p₁ p₂ p₃ p₄ p₅ p₆ &&& 0x08 ≠ 0 ↔ p₃ = true) ∧
    (copyCommand p₀ p₁ p₂ p₃ p₄ p₅ p₆ &&& 0x10 ≠ 0 ↔ p₄ = true) ∧
    (copyCommand p₀ p₁ p₂ p₃ p₄ p₅ p₆ &&& 0x20 ≠ 0 ↔ p₅ = true) ∧
    (copyCommand p₀ p₁ p₂ p₃ p₄ p₅ p₆ &&& 0x40 ≠ 0 ↔ p₆ = true) := by
  decide +kernel

/-- Reading a written field adds its byte, whether the field was written or left out. -/
theorem copyByte_field {delta pre rest : List UInt8} {cmd mask : UInt8} {keep : Fin 7 → Bool}
    {b : Fin 7 → ℕ} {i : Fin 7} (shift accum : ℕ)
    (hdelta : delta = pre ++ (presentField keep b i ++ rest)) (hb : b i < 256)
    (hcmd : cmd &&& mask ≠ 0 ↔ present keep b i = true) (ha : accum < 2 ^ shift) :
    copyByte delta cmd mask shift accum pre.length =
      ok (accum + b i * 2 ^ shift, (pre ++ presentField keep b i).length) := by
  unfold copyByte
  by_cases hp : present keep b i = true
  · rw [if_pos (hcmd.mpr hp)]
    rw [presentField, field, if_pos hp] at hdelta ⊢
    subst hdelta
    rw [failIf_of_not (by simp)]
    simp only [List.cons_append, List.nil_append, index_append, ok_bind]
    rw [byte_toNat hb, or_shifted ha]
    simp
  · have hz : b i = 0 := by
      simp only [present, Bool.or_eq_true, bne_iff_ne, ne_eq, not_or, not_not] at hp
      exact hp.2
    rw [if_neg (fun h => hp (hcmd.mp h)), presentField, field, if_neg hp]
    simp [hz]

theorem readCopy_fields {delta pre rest : List UInt8} {cmd : UInt8} {keep : Fin 7 → Bool}
    {b : Fin 7 → ℕ} (hdelta : delta = pre ++ (encodeFields keep b ++ rest))
    (hb : ∀ i, b i < 256) (hcmd : cmd = commandOf keep b) :
    readCopy delta cmd pre.length =
      ok (b 0 + b 1 * 2 ^ 8 + b 2 * 2 ^ 16 + b 3 * 2 ^ 24,
        if b 4 + b 5 * 2 ^ 8 + b 6 * 2 ^ 16 = 0 then 0x10000
        else b 4 + b 5 * 2 ^ 8 + b 6 * 2 ^ 16,
        (pre ++ encodeFields keep b).length) := by
  obtain ⟨-, h₀, h₁, h₂, h₃, h₄, h₅, h₆⟩ := command_bits (present keep b 0) (present keep b 1)
    (present keep b 2) (present keep b 3) (present keep b 4) (present keep b 5) (present keep b 6)
  rw [← commandOf, ← hcmd] at h₀ h₁ h₂ h₃ h₄ h₅ h₆
  have := hb 0
  have := hb 1
  have := hb 2
  have := hb 4
  have := hb 5
  simp only [encodeFields, List.append_assoc] at hdelta
  unfold readCopy
  rw [copyByte_field 0 0 hdelta (hb 0) h₀ (by simp), ok_bind]
  rw [← List.append_assoc] at hdelta
  simp only
  rw [copyByte_field 8 _ hdelta (hb 1) h₁ (by omega), ok_bind]
  rw [← List.append_assoc] at hdelta
  simp only
  rw [copyByte_field 16 _ hdelta (hb 2) h₂ (by omega), ok_bind]
  rw [← List.append_assoc] at hdelta
  simp only
  rw [copyByte_field 24 _ hdelta (hb 3) h₃ (by omega), ok_bind]
  rw [← List.append_assoc] at hdelta
  simp only
  rw [copyByte_field 0 0 hdelta (hb 4) h₄ (by simp), ok_bind]
  rw [← List.append_assoc] at hdelta
  simp only
  rw [copyByte_field 8 _ hdelta (hb 5) h₅ (by omega), ok_bind]
  rw [← List.append_assoc] at hdelta
  simp only
  rw [copyByte_field 16 _ hdelta (hb 6) h₆ (by omega), ok_bind]
  simp only [Nat.zero_add, Nat.pow_zero, Nat.mul_one, encodeFields, List.append_assoc]

theorem copyFields_lt (offset size : ℕ) (i : Fin 7) : copyFields offset size i < 256 := by
  fin_cases i <;> exact Nat.mod_lt _ (by omega)

theorem deltaStep_copy {base delta pre rest result : List UInt8} {offset size : ℕ}
    {keep : Fin 7 → Bool} {short : Bool} {targetSize : ℤ}
    (hv : (DeltaOp.copy offset size keep short).Valid base)
    (hdelta : delta = pre ++ ((DeltaOp.copy offset size keep short).encode ++ rest))
    (hfit : (result.length : ℤ) + size ≤ targetSize) :
    deltaStep base delta targetSize pre.length result =
      ok ((pre ++ (DeltaOp.copy offset size keep short).encode).length,
        result ++ (DeltaOp.copy offset size keep short).output base) := by
  obtain ⟨ho, hs, hs', hle⟩ := hv
  set written := if size = 0x10000 ∧ short then 0 else size with hw
  have hwlt : written < 2 ^ 24 := by rw [hw]; split <;> omega
  have hback : (if written = 0 then 0x10000 else written) = size := by
    rw [hw]
    split_ifs <;> omega
  simp only [DeltaOp.encode, encodeCopy] at hdelta ⊢
  rw [← hw] at hdelta ⊢
  set b := copyFields offset written with hb
  have hcmd := (command_bits (present keep b 0) (present keep b 1) (present keep b 2)
    (present keep b 3) (present keep b 4) (present keep b 5) (present keep b 6)).1
  rw [← commandOf] at hcmd
  have hoff : b 0 + b 1 * 2 ^ 8 + b 2 * 2 ^ 16 + b 3 * 2 ^ 24 = offset := by
    change offset % 256 + offset / 2 ^ 8 % 256 * 2 ^ 8 + offset / 2 ^ 16 % 256 * 2 ^ 16 +
      offset / 2 ^ 24 % 256 * 2 ^ 24 = offset
    omega
  have hsize : b 4 + b 5 * 2 ^ 8 + b 6 * 2 ^ 16 = written := by
    change written % 256 + written / 2 ^ 8 % 256 * 2 ^ 8 + written / 2 ^ 16 % 256 * 2 ^ 16 =
      written
    omega
  have hread := @readCopy_fields delta (pre ++ [commandOf keep b]) rest _ keep b
    (by rw [hdelta]; simp) (copyFields_lt offset written) rfl
  rw [hoff, hsize, hback, List.length_append, List.length_singleton] at hread
  have hi : index delta pre.length = ok (commandOf keep b) := by
    rw [hdelta]
    exact index_append _ _ _
  unfold deltaStep
  rw [failIf_of_not (by rw [hdelta]; simp), ok_bind, hi, ok_bind, if_pos hcmd, hread, ok_bind]
  simp only
  rw [failIf_of_not (by omega), ok_bind, slice_of_le (by omega) hle, ok_bind]
  simp [DeltaOp.output]

theorem deltaStep_insert {base delta pre rest result data : List UInt8} {targetSize : ℤ}
    (hv : (DeltaOp.insert data).Valid base)
    (hdelta : delta = pre ++ ((DeltaOp.insert data).encode ++ rest))
    (hfit : (result.length : ℤ) + data.length ≤ targetSize) :
    deltaStep base delta targetSize pre.length result =
      ok ((pre ++ (DeltaOp.insert data).encode).length,
        result ++ (DeltaOp.insert data).output base) := by
  obtain ⟨hpos, hle⟩ := hv
  simp only [DeltaOp.encode, List.cons_append] at hdelta ⊢
  have hb := byte_toNat (show data.length < 256 by omega)
  have hi : index delta pre.length = ok (UInt8.ofNat data.length) := by
    rw [hdelta]
    exact index_append _ _ _
  have hne : UInt8.ofNat data.length ≠ 0 := by
    intro h
    have := congrArg UInt8.toNat h
    rw [hb] at this
    change data.length = 0 at this
    omega
  have hs : slice delta (pre.length + 1) (pre.length + 1 + data.length) = ok data := by
    have := slice_middle (pre ++ [UInt8.ofNat data.length]) data rest
    rw [List.length_append, List.length_singleton] at this
    rw [hdelta]
    simpa using this
  unfold deltaStep
  rw [failIf_of_not (by rw [hdelta]; simp), ok_bind, hi, ok_bind,
    if_neg (by rw [not_not, continuation_bit, hb]; omega), if_neg hne, hb,
    failIf_of_not (by rw [hdelta]; simp; omega), ok_bind, failIf_of_not (by omega), ok_bind, hs,
    ok_bind]
  simp only [DeltaOp.output, List.length_append, List.length_cons]
  congr 2
  omega

/-- One instruction, whichever it is. -/
theorem deltaStep_encode {base delta pre rest result : List UInt8} {op : DeltaOp}
    {targetSize : ℤ} (hv : op.Valid base) (hdelta : delta = pre ++ (op.encode ++ rest))
    (hfit : (result.length : ℤ) + (op.output base).length ≤ targetSize) :
    deltaStep base delta targetSize pre.length result =
      ok ((pre ++ op.encode).length, result ++ op.output base) := by
  cases op with
  | copy offset size keep short =>
    have hle := hv.2.2.2
    refine deltaStep_copy hv hdelta ?_
    simp only [DeltaOp.output, List.length_take, List.length_drop] at hfit
    omega
  | insert data => exact deltaStep_insert hv hdelta hfit

theorem applyLoop_encode {base delta : List UInt8} (ops : List DeltaOp) {pre result : List UInt8}
    (hv : ∀ op ∈ ops, op.Valid base)
    (hdelta : delta = pre ++ ops.flatMap DeltaOp.encode) :
    applyLoop base delta ((result ++ deltaOutput base ops).length : ℕ) pre.length result =
      ok (delta.length, result ++ deltaOutput base ops) := by
  induction ops generalizing pre result with
  | nil =>
    rw [applyLoop, if_neg (by simp [deltaOutput])]
    simp [hdelta, deltaOutput]
  | cons op ops ih =>
    have hop := hv op (by simp)
    have hpos := output_pos hop
    have hout : result ++ deltaOutput base (op :: ops) =
        (result ++ op.output base) ++ deltaOutput base ops := by simp [deltaOutput]
    have hstep := @deltaStep_encode base delta pre (ops.flatMap DeltaOp.encode) result op
      ((result ++ deltaOutput base (op :: ops)).length : ℕ) hop
      (by rw [hdelta]; simp) (by rw [hout]; simp)
    rw [applyLoop_of_step (by rw [hout]; simp; omega) hstep, hout]
    exact ih (fun o ho => hv o (by simp [ho])) (by rw [hdelta]; simp)

/-- `applyDelta` interprets every instruction list of the format, however it is spelled. -/
theorem applyDelta_encode (rt : Runtime) (base : List UInt8) (ops : List DeltaOp)
    (hv : ∀ op ∈ ops, op.Valid base) (hbase : base.length < 2 ^ 63)
    (hout : (deltaOutput base ops).length ≤ rt.maxAlloc) :
    applyDelta rt base (encodeDelta base ops) = ok (deltaOutput base ops) := by
  have hmax := rt.maxAlloc_lt
  have h₁ := read_delta_varint_encode [] (leb128 (deltaOutput base ops).length ++
    ops.flatMap DeltaOp.encode) hbase
  have h₂ := read_delta_varint_encode (leb128 base.length) (ops.flatMap DeltaOp.encode)
    (show (deltaOutput base ops).length < 2 ^ 63 by omega)
  have hloop := @applyLoop_encode base (encodeDelta base ops) ops
    (leb128 base.length ++ leb128 (deltaOutput base ops).length) [] hv rfl
  simp only [List.nil_append, List.length_nil, Nat.zero_add, ← List.append_assoc] at h₁
  simp only [List.nil_append, @List.length_append _ (leb128 base.length)] at hloop
  unfold applyDelta
  rw [encodeDelta] at *
  rw [h₁, ok_bind]
  simp only
  rw [h₂, ok_bind]
  simp only
  rw [failIf_of_not (by simp), ok_bind, Runtime.make_eq_ok.mpr ⟨⟨by omega, by omega⟩, rfl⟩, ok_bind]
  rw [hloop, ok_bind]
  simp only
  rw [failIf_of_not (by simp), ok_bind]

end GitpDelta
