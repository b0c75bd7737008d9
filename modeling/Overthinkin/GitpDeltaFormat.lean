import Overthinkin.GitpDelta

/-! The converse of `applyDelta_encode`: the bytes that `applyDelta` accepts are two sizes and an
instruction list, spelled in one of the ways the format has for it, with nothing left over. -/
namespace GitpDelta

open GoRuntime GoRuntime.Outcome GitpVarint DeltaOp

/-- A size as the format has it, also with more groups than it needs. -/
inductive SpellsSize : List UInt8 → ℕ → Prop where
  | last {c : UInt8} (hc : c.toNat < 128) : SpellsSize [c] c.toNat
  | group {c : UInt8} {bytes : List UInt8} {n : ℕ} (hc : ¬ c.toNat < 128) (h : SpellsSize bytes n) :
    SpellsSize (c :: bytes) (c.toNat % 128 + n * 128)

theorem deltaVarintLoop_spells {data : List UInt8} {accum shift pos a p : ℕ}
    (h : deltaVarintLoop data accum shift pos = ok (a, p)) (ha : accum < 2 ^ shift)
    (hw : accum < 2 ^ 64) :
    ∃ bytes n, SpellsSize bytes n ∧ data.drop pos = bytes ++ data.drop p ∧
      a % 2 ^ 64 = (accum + n * 2 ^ shift) % 2 ^ 64 := by
  fun_induction deltaVarintLoop data accum shift pos with
  | case1 => cases h
  | case2 accum shift pos hlt ih =>
    obtain ⟨c, hi, hc⟩ := bind_eq_ok.mp h
    have hor := or_group_mod ha hw (c.toNat % 128)
    have hfit := @group_lt accum shift (c.toNat % 128) ha (Nat.mod_lt _ (by omega))
    simp only [payload_bits] at hc ih
    rw [hor] at hc
    split at hc
    · rename_i hlast
      simp only [ok.injEq, Prod.mk.injEq] at hc
      obtain ⟨rfl, rfl⟩ := hc
      have hl := (continuation_bit c).mp hlast
      refine ⟨[c], c.toNat, .last hl, by rw [drop_of_index hi]; rfl, ?_⟩
      rw [Nat.mod_mod, Nat.mod_eq_of_lt hl]
    · rename_i hmore
      have hl := fun h => hmore ((continuation_bit c).mpr h)
      have hnext := ih c (by rw [hor]; exact hc) (by rw [hor]; exact hfit)
        (by rw [hor]; exact Nat.mod_lt _ (by decide))
      obtain ⟨bytes, n, hn, hd, hv⟩ := hnext
      refine ⟨c :: bytes, _, .group hl hn, by rw [drop_of_index hi, hd]; rfl, ?_⟩
      rw [hv, hor, Nat.mod_add_mod]
      congr 1
      ring

/-- The size read is the size spelled, up to the width of Go's `int`. -/
theorem read_delta_varint_spells {data : List UInt8} {pos p : ℕ} {size : ℤ}
    (h : readDeltaVarint data pos = ok (size, p)) :
    ∃ bytes n, SpellsSize bytes n ∧ data.drop pos = bytes ++ data.drop p ∧ size = int64 n := by
  simp only [readDeltaVarint, bind_eq_ok, ok.injEq, Prod.mk.injEq, Prod.exists] at h
  obtain ⟨a, q, hl, rfl, rfl⟩ := h
  obtain ⟨bytes, n, hn, hd, hv⟩ := deltaVarintLoop_spells hl (by simp) (by decide)
  refine ⟨bytes, n, hn, hd, ?_⟩
  unfold int64
  simp only [Nat.zero_add, Nat.pow_zero, Nat.mul_one] at hv
  rw [← Int.emod_bmod, ← @Int.emod_bmod (n : ℤ)]
  congr 1
  omega

/-! ### One instruction -/

/-- An optional byte is a written field, or it was left out and counts as zero. -/
theorem copyByte_spells {delta : List UInt8} {cmd mask : UInt8} {shift accum pos a p : ℕ}
    (h : copyByte delta cmd mask shift accum pos = ok (a, p)) (ha : accum < 2 ^ shift) :
    ∃ b < 256, (¬ cmd &&& mask ≠ 0 → b = 0) ∧ a = accum + b * 2 ^ shift ∧
      delta.drop pos = field (decide (cmd &&& mask ≠ 0)) b ++ delta.drop p := by
  unfold copyByte at h
  by_cases hm : cmd &&& mask ≠ 0
  · rw [if_pos hm] at h
    simp only [bind_eq_ok, ok.injEq, Prod.mk.injEq] at h
    obtain ⟨_, _, c, hi, rfl, rfl⟩ := h
    refine ⟨c.toNat, c.toNat_lt, fun hn => (hn hm).elim, ?_, ?_⟩
    · exact or_shifted ha _
    · rw [drop_of_index hi, decide_eq_true hm, field, if_pos rfl, UInt8.ofNat_toNat]
      rfl
  · rw [if_neg hm] at h
    simp only [ok.injEq, Prod.mk.injEq] at h
    obtain ⟨rfl, rfl⟩ := h
    exact ⟨0, by simp, fun _ => rfl, by simp, by rw [decide_eq_false hm]; rfl⟩

theorem command_of_bits : ∀ cmd : UInt8, cmd &&& 0x80 ≠ 0 →
    copyCommand (decide (cmd &&& 0x01 ≠ 0)) (decide (cmd &&& 0x02 ≠ 0))
      (decide (cmd &&& 0x04 ≠ 0)) (decide (cmd &&& 0x08 ≠ 0)) (decide (cmd &&& 0x10 ≠ 0))
      (decide (cmd &&& 0x20 ≠ 0)) (decide (cmd &&& 0x40 ≠ 0)) = cmd := by
  have key : ∀ n < 256, UInt8.ofNat n &&& 0x80 ≠ 0 →
      copyCommand (decide (UInt8.ofNat n &&& 0x01 ≠ 0)) (decide (UInt8.ofNat n &&& 0x02 ≠ 0))
        (decide (UInt8.ofNat n &&& 0x04 ≠ 0)) (decide (UInt8.ofNat n &&& 0x08 ≠ 0))
        (decide (UInt8.ofNat n &&& 0x10 ≠ 0)) (decide (UInt8.ofNat n &&& 0x20 ≠ 0))
        (decide (UInt8.ofNat n &&& 0x40 ≠ 0)) = UInt8.ofNat n := by decide +kernel
  intro cmd
  have := key cmd.toNat cmd.toNat_lt
  rwa [UInt8.ofNat_toNat] at this

/-- The bits of a command, in the order of the bytes they announce. -/
def announced (cmd : UInt8) : Fin 7 → Bool :=
  ![decide (cmd &&& 0x01 ≠ 0), decide (cmd &&& 0x02 ≠ 0), decide (cmd &&& 0x04 ≠ 0),
    decide (cmd &&& 0x08 ≠ 0), decide (cmd &&& 0x10 ≠ 0), decide (cmd &&& 0x20 ≠ 0),
    decide (cmd &&& 0x40 ≠ 0)]

theorem present_announced {cmd : UInt8} {b : Fin 7 → ℕ} {i : Fin 7}
    (h : announced cmd i = false → b i = 0) : present (announced cmd) b i = announced cmd i := by
  cases hk : announced cmd i with
  | true => simp [present, hk]
  | false => simp [present, hk, h hk]

theorem readCopy_spells {delta : List UInt8} {cmd : UInt8} {pos o n p : ℕ}
    (h : readCopy delta cmd pos = ok (o, n, p)) (hcmd : cmd &&& 0x80 ≠ 0) :
    ∃ b : Fin 7 → ℕ, (∀ i, b i < 256) ∧ commandOf (announced cmd) b = cmd ∧
      delta.drop pos = encodeFields (announced cmd) b ++ delta.drop p ∧
      o = b 0 + b 1 * 2 ^ 8 + b 2 * 2 ^ 16 + b 3 * 2 ^ 24 ∧
      n = if b 4 + b 5 * 2 ^ 8 + b 6 * 2 ^ 16 = 0 then 0x10000
        else b 4 + b 5 * 2 ^ 8 + b 6 * 2 ^ 16 := by
  simp only [readCopy, bind_eq_ok, ok.injEq, Prod.mk.injEq, Prod.exists] at h
  obtain ⟨_, p₁, h₀, _, p₂, h₁, _, p₃, h₂, _, p₄, h₃, _, p₅, h₄, _, p₆, h₅, _, p₇, h₆, rfl, rfl,
    rfl⟩ := h
  obtain ⟨b₀, l₀, z₀, rfl, d₀⟩ := copyByte_spells h₀ (by simp)
  obtain ⟨b₁, l₁, z₁, rfl, d₁⟩ := copyByte_spells h₁ (by omega)
  obtain ⟨b₂, l₂, z₂, rfl, d₂⟩ := copyByte_spells h₂ (by omega)
  obtain ⟨b₃, l₃, z₃, rfl, d₃⟩ := copyByte_spells h₃ (by omega)
  obtain ⟨b₄, l₄, z₄, rfl, d₄⟩ := copyByte_spells h₄ (by simp)
  obtain ⟨b₅, l₅, z₅, rfl, d₅⟩ := copyByte_spells h₅ (by omega)
  obtain ⟨b₆, l₆, z₆, rfl, d₆⟩ := copyByte_spells h₆ (by omega)
  set b : Fin 7 → ℕ := ![b₀, b₁, b₂, b₃, b₄, b₅, b₆] with hb
  have hzero : ∀ i, announced cmd i = false → b i = 0 := by
    intro i hi
    fin_cases i <;> simp only [announced, hb] at hi ⊢
    · exact z₀ (of_decide_eq_false hi)
    · exact z₁ (of_decide_eq_false hi)
    · exact z₂ (of_decide_eq_false hi)
    · exact z₃ (of_decide_eq_false hi)
    · exact z₄ (of_decide_eq_false hi)
    · exact z₅ (of_decide_eq_false hi)
    · exact z₆ (of_decide_eq_false hi)
  have hp := fun i => present_announced (hzero i)
  refine ⟨b, ?_, ?_, ?_, by simp [hb], by simp [hb]⟩
  · intro i
    fin_cases i <;> assumption
  · simp only [commandOf, hp]
    exact command_of_bits cmd hcmd
  · simp only [encodeFields, presentField, hp]
    rw [d₀, d₁, d₂, d₃, d₄, d₅, d₆]
    simp only [List.append_assoc]
    rfl

theorem copyFields_of_bytes {b : Fin 7 → ℕ} (hb : ∀ i, b i < 256) :
    copyFields (b 0 + b 1 * 2 ^ 8 + b 2 * 2 ^ 16 + b 3 * 2 ^ 24)
      (b 4 + b 5 * 2 ^ 8 + b 6 * 2 ^ 16) = b := by
  have := hb 0
  have := hb 1
  have := hb 2
  have := hb 3
  have := hb 4
  have := hb 5
  have := hb 6
  have hall : copyFields (b 0 + b 1 * 2 ^ 8 + b 2 * 2 ^ 16 + b 3 * 2 ^ 24)
      (b 4 + b 5 * 2 ^ 8 + b 6 * 2 ^ 16) = ![b 0, b 1, b 2, b 3, b 4, b 5, b 6] := by
    unfold copyFields
    congr
    all_goals omega
  rw [hall]
  funext i
  fin_cases i <;> rfl

/-- A command that is carried out is an instruction within the base. -/
theorem deltaStep_spells {base delta result r : List UInt8} {targetSize : ℤ} {pos p : ℕ}
    (h : deltaStep base delta targetSize pos result = ok (p, r)) :
    ∃ op : DeltaOp, op.Valid base ∧ delta.drop pos = op.encode ++ delta.drop p ∧
      r = result ++ op.output base := by
  simp only [deltaStep, bind_eq_ok, failIf_eq_ok] at h
  obtain ⟨_, _, cmd, hi, h⟩ := h
  split_ifs at h with hcopy hzero
  · simp only [bind_eq_ok, failIf_eq_ok, slice_eq_ok, ok.injEq, Prod.mk.injEq, Prod.exists] at h
    obtain ⟨o, n, q, hc, _, hr, _, ⟨hlo, hhi, rfl⟩, rfl, rfl⟩ := h
    obtain ⟨b, hb, hcmd, hd, ho, hn⟩ := readCopy_spells hc hcopy
    have h₀ := hb 0
    have h₁ := hb 1
    have h₂ := hb 2
    have h₃ := hb 3
    have h₄ := hb 4
    have h₅ := hb 5
    have h₆ := hb 6
    set size := b 4 + b 5 * 2 ^ 8 + b 6 * 2 ^ 16 with hsize
    refine ⟨.copy o n (announced cmd) (decide (size = 0)), ⟨?_, ?_, ?_, hhi⟩, ?_, ?_⟩
    · omega
    · split at hn <;> omega
    · split at hn <;> omega
    · -- A size of zero is the short spelling of 0x10000; any other is written as it is.
      have hwritten : (if n = 0x10000 ∧ decide (size = 0) = true then 0 else n) = size := by
        simp only [decide_eq_true_eq]
        split_ifs at hn ⊢ <;> omega
      simp only [DeltaOp.encode, encodeCopy]
      rw [hwritten, ho, hsize, copyFields_of_bytes hb, hcmd, drop_of_index hi, hd]
      rfl
    · rw [Nat.add_sub_cancel_left]
      rfl
  · simp only [bind_eq_ok, failIf_eq_ok, slice_eq_ok, ok.injEq, Prod.mk.injEq] at h
    obtain ⟨_, hle, _, hfit, chunk, ⟨_, _, rfl⟩, rfl, rfl⟩ := h
    have hlt : cmd.toNat < 128 := (continuation_bit cmd).mp (not_not.mp hcopy)
    have hpos : cmd.toNat ≠ 0 := fun hz => hzero (UInt8.toNat_inj.mp hz)
    set data := (delta.drop (pos + 1)).take (pos + 1 + cmd.toNat - (pos + 1)) with hdata
    have hlen : data.length = cmd.toNat := by
      rw [hdata, List.length_take, List.length_drop]
      omega
    refine ⟨.insert data, ⟨by omega, by omega⟩, ?_, rfl⟩
    simp only [DeltaOp.encode]
    rw [drop_of_index hi, hlen, UInt8.ofNat_toNat, List.cons_append, hdata, Nat.add_sub_cancel_left,
      ← @List.drop_drop _ cmd.toNat (pos + 1), List.take_append_drop]

/-! ### The whole delta -/

theorem applyLoop_spells {base delta result r : List UInt8} {targetSize : ℤ} {pos p : ℕ}
    (h : applyLoop base delta targetSize pos result = ok (p, r)) :
    ∃ ops : List DeltaOp, (∀ op ∈ ops, op.Valid base) ∧
      delta.drop pos = ops.flatMap DeltaOp.encode ++ delta.drop p ∧
      r = result ++ deltaOutput base ops := by
  fun_induction applyLoop base delta targetSize pos result with
  | case1 pos result hlt p₁ r₁ hstep ih =>
    obtain ⟨op, hv, hd, rfl⟩ := deltaStep_spells hstep
    obtain ⟨ops, hvs, hds, rfl⟩ := ih h
    refine ⟨op :: ops, by simpa [hv] using hvs, ?_, ?_⟩
    · rw [hd, hds]
      simp
    · simp [deltaOutput]
  | case2 => cases h
  | case3 => cases h
  | case4 pos result hge =>
    simp only [ok.injEq, Prod.mk.injEq] at h
    obtain ⟨rfl, rfl⟩ := h
    exact ⟨[], by simp, by simp, by simp [deltaOutput]⟩

/-- `delta` spells the two sizes and then `ops`, and nothing else. -/
def Spells (delta : List UInt8) (baseSize targetSize : ℕ) (ops : List DeltaOp) : Prop :=
  ∃ h₁ h₂, SpellsSize h₁ baseSize ∧ SpellsSize h₂ targetSize ∧
    delta = h₁ ++ h₂ ++ ops.flatMap DeltaOp.encode

theorem applyDelta_spells {rt : Runtime} {base delta out : List UInt8}
    (h : applyDelta rt base delta = ok out) :
    ∃ baseSize targetSize ops, Spells delta baseSize targetSize ops ∧
      (∀ op ∈ ops, op.Valid base) ∧ out = deltaOutput base ops ∧
      int64 baseSize = base.length ∧ int64 targetSize = out.length := by
  simp only [applyDelta, bind_eq_ok, failIf_eq_ok, Runtime.make_eq_ok, ok.injEq, Prod.exists] at h
  obtain ⟨b, p, hb, t, q, ht, _, hbase, _, ⟨_, rfl⟩, e, r, hl, _, hend, rfl⟩ := h
  obtain ⟨h₁, v₁, hv₁, hd₁, hs₁⟩ := read_delta_varint_spells hb
  obtain ⟨h₂, v₂, hv₂, hd₂, hs₂⟩ := read_delta_varint_spells ht
  obtain ⟨ops, hv, hd, hout⟩ := applyLoop_spells hl
  simp only [not_or, not_not] at hend hbase
  rw [hend.2, List.drop_length, List.append_nil] at hd
  refine ⟨v₁, v₂, ops, ⟨h₁, h₂, hv₁, hv₂, ?_⟩, hv, hout, ?_, ?_⟩
  · rw [List.append_assoc, ← hd, ← hd₂, ← hd₁]
    rfl
  · rw [← hs₁, hbase]
  · rw [← hs₂, hend.1]

theorem size_of_int64 {n k : ℕ} (h : int64 n = k) (hn : n < 2 ^ 63) : n = k := by
  rw [int64_of_range (by omega) (by omega)] at h
  exact_mod_cast h

/-- Acceptance and denotation agree in both directions. -/
theorem applyDelta_implements_format (rt : Runtime) (base : List UInt8) :
    (∀ ops : List DeltaOp, (∀ op ∈ ops, op.Valid base) → base.length < 2 ^ 63 →
      (deltaOutput base ops).length ≤ rt.maxAlloc →
      applyDelta rt base (encodeDelta base ops) = ok (deltaOutput base ops)) ∧
    ∀ delta out, applyDelta rt base delta = ok out →
      ∃ baseSize targetSize ops, Spells delta baseSize targetSize ops ∧
        (∀ op ∈ ops, op.Valid base) ∧ out = deltaOutput base ops ∧
        (baseSize < 2 ^ 63 → baseSize = base.length) ∧
        (targetSize < 2 ^ 63 → targetSize = out.length) := by
  constructor
  · intro ops hv hbase hout
    exact applyDelta_encode rt base ops hv hbase hout
  · intro delta out h
    obtain ⟨b, t, ops, hs, hv, ho, hb, ht⟩ := applyDelta_spells h
    exact ⟨b, t, ops, hs, hv, ho, size_of_int64 hb, size_of_int64 ht⟩

theorem applyDelta_implements_format_three_bytes :
    let ops := [.copy 1 2 (fun i => i == 0) true, .insert [9]]
    applyDelta ⟨2 ^ 48, by decide⟩ [5, 6, 7] (encodeDelta [5, 6, 7] ops) = ok [6, 7, 9] ∧
      ∃ b t ops', Spells (encodeDelta [5, 6, 7] ops) b t ops' ∧
        deltaOutput [5, 6, 7] ops' = [6, 7, 9] := by
  intro ops
  have h := (applyDelta_implements_format ⟨2 ^ 48, by decide⟩ [5, 6, 7]).1 ops
    (by decide) (by decide)
    (by decide)
  obtain ⟨b, t, ops', hs, -, ho, -⟩ := (applyDelta_implements_format _ _).2 _ _ h
  exact ⟨h, b, t, ops', hs, ho.symm⟩

end GitpDelta
