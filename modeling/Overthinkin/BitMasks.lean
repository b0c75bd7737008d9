import Mathlib.Data.BitVec

/-! Words as sets of bits, tested and completed by masks that have no bit in common. -/
namespace BitMasks

variable {w : ℕ} {m m' x y : BitVec w}

/-- `if x & m ~= 0 then x = x | m end`. -/
def saturate (m x : BitVec w) : BitVec w := if x &&& m ≠ 0#w then x ||| m else x

theorem or_and (x y m : BitVec w) : (x ||| y) &&& m = (x &&& m) ||| (y &&& m) := by
  ext i hi
  simp [Bool.and_or_distrib_right]

theorem bit_of_or (h : x ||| y = 0#w) {i : ℕ} (hi : i < w) : x[i] = false ∧ y[i] = false := by
  have hbit : (x ||| y)[i] = (0#w)[i] := by rw [h]
  simpa using hbit

theorem bit_of_and (h : m &&& m' = 0#w) {i : ℕ} (hi : i < w) : (m[i] && m'[i]) = false := by
  have hbit : (m &&& m')[i] = (0#w)[i] := by rw [h]
  simpa using hbit

theorem or_eq_zero : x ||| y = 0#w ↔ x = 0#w ∧ y = 0#w := by
  constructor
  · intro h
    constructor
    · ext i hi
      simp [bit_of_or h hi]
    · ext i hi
      simp [bit_of_or h hi]
  · rintro ⟨rfl, rfl⟩
    simp

theorem saturate_and (m x : BitVec w) : saturate m x &&& m = if x &&& m ≠ 0#w then m else 0#w := by
  unfold saturate
  split
  · ext i hi
    simp only [BitVec.getElem_and, BitVec.getElem_or]
    cases m[i] <;> simp
  · rename_i h
    rwa [not_not] at h

theorem saturate_and_of_apart (h : m &&& m' = 0#w) (x : BitVec w) :
    saturate m x &&& m' = x &&& m' := by
  unfold saturate
  split
  · rw [or_and, h]
    simp
  · rfl

theorem saturate_of_and (h : x &&& m = m ∨ x &&& m = 0#w) : saturate m x = x := by
  unfold saturate
  split
  · rename_i hne
    have hm := h.resolve_right hne
    ext i hi
    have hbit : (x &&& m)[i] = m[i] := by rw [hm]
    rw [BitVec.getElem_and] at hbit
    rw [BitVec.getElem_or]
    cases hx : x[i] <;> simp_all
  · rfl

theorem clear_and_of_apart (h : m &&& m' = 0#w) (x : BitVec w) :
    x &&& ~~~m &&& m' = x &&& m' := by
  ext i hi
  have hbit := bit_of_and h hi
  simp only [BitVec.getElem_and, BitVec.getElem_not]
  cases hm : m[i] <;> simp_all

theorem clear_and_self (m x : BitVec w) : x &&& ~~~m &&& m = 0#w := by
  ext i hi
  simp only [BitVec.getElem_and, BitVec.getElem_not, BitVec.getElem_zero]
  cases m[i] <;> simp

theorem clear_of_and (h : x &&& m = 0#w) : x &&& ~~~m = x := by
  ext i hi
  have hbit := bit_of_and h hi
  simp only [BitVec.getElem_and, BitVec.getElem_not]
  cases hm : m[i] <;> simp_all

/-- Masks that cover a word tell words apart. -/
theorem eq_of_and {masks : List (BitVec w)} (hcover : masks.foldr (· ||| ·) 0#w = BitVec.allOnes w)
    (h : ∀ m ∈ masks, x &&& m = y &&& m) : x = y := by
  ext i hi
  have hbit : (masks.foldr (· ||| ·) 0#w)[i] = true := by
    rw [hcover, BitVec.getElem_allOnes]
  clear hcover
  induction masks with
  | nil => simp at hbit
  | cons m masks ih =>
    rw [List.foldr_cons, BitVec.getElem_or, Bool.or_eq_true] at hbit
    rcases hbit with hm | hrest
    · have hand : (x &&& m)[i] = (y &&& m)[i] := by rw [h m List.mem_cons_self]
      simpa [hm] using hand
    · exact ih (fun m' hm' => h m' (List.mem_cons_of_mem m hm')) hrest

/-- Completing a mask keeps words apart that agree on it. -/
theorem saturate_inj (h : x &&& m = y &&& m) : saturate m x = saturate m y ↔ x = y := by
  refine ⟨fun he => ?_, fun he => by rw [he]⟩
  simp only [saturate, h] at he
  split at he
  · ext i hi
    have hor : (x ||| m)[i] = (y ||| m)[i] := by rw [he]
    have hand : (x &&& m)[i] = (y &&& m)[i] := by rw [h]
    simp only [BitVec.getElem_or, BitVec.getElem_and] at hor hand
    cases hm : m[i] <;> simp_all
  · exact he

/-- One mask after the other. -/
def saturateAll (masks : List (BitVec w)) (x : BitVec w) : BitVec w :=
  masks.foldl (fun x m => saturate m x) x

theorem saturateAll_inj {masks : List (BitVec w)} (hapart : masks.Pairwise fun a b => a &&& b = 0#w)
    (h : ∀ m ∈ masks, x &&& m = y &&& m) : saturateAll masks x = saturateAll masks y ↔ x = y := by
  induction masks generalizing x y with
  | nil => exact Iff.rfl
  | cons m masks ih =>
    obtain ⟨hm, hrest⟩ := List.pairwise_cons.mp hapart
    obtain ⟨hxy, htail⟩ := List.forall_mem_cons.mp h
    have hsame : ∀ m' ∈ masks, saturate m x &&& m' = saturate m y &&& m' := by
      intro m' hm'
      rw [saturate_and_of_apart (hm m' hm'), saturate_and_of_apart (hm m' hm'), htail m' hm']
    exact (ih hrest hsame).trans (saturate_inj hxy)

theorem setWidth_eq_zero {v : ℕ} (hv : w ≤ v) (x : BitVec w) : x.setWidth v = 0#v ↔ x = 0#w := by
  rw [← BitVec.toNat_inj, ← BitVec.toNat_inj, BitVec.toNat_setWidth_of_le hv, BitVec.toNat_zero,
    BitVec.toNat_zero]

theorem setWidth_saturate {v : ℕ} (hv : w ≤ v) (m x : BitVec w) :
    (saturate m x).setWidth v = saturate (m.setWidth v) (x.setWidth v) := by
  have hand : x.setWidth v &&& m.setWidth v ≠ 0#v ↔ x &&& m ≠ 0#w := by
    rw [← BitVec.setWidth_and, ne_eq, setWidth_eq_zero hv]
  by_cases h : x &&& m ≠ 0#w
  · rw [saturate, if_pos h, saturate, if_pos (hand.mpr h), BitVec.setWidth_or]
  · rw [saturate, if_neg h, saturate, if_neg fun hn => h (hand.mp hn)]

theorem setWidth_saturateAll {v : ℕ} (hv : w ≤ v) (masks : List (BitVec w)) (x : BitVec w) :
    (saturateAll masks x).setWidth v =
      saturateAll (masks.map (BitVec.setWidth v)) (x.setWidth v) := by
  induction masks generalizing x with
  | nil => rfl
  | cons m masks ih =>
    have hm := setWidth_saturate hv m x
    rw [saturateAll, List.foldl_cons, List.map_cons, saturateAll, List.foldl_cons, ← hm]
    exact ih _

/-- Two masks select the same of a word when it has no bit that is in one of them only. -/
theorem and_eq_and_iff (x a b : BitVec w) : x &&& a = x &&& b ↔ x &&& (a ^^^ b) = 0#w := by
  rw [← BitVec.xor_eq_zero_iff]
  have hxor : (x &&& a) ^^^ (x &&& b) = x &&& (a ^^^ b) := by
    ext i hi
    simp only [BitVec.getElem_xor, BitVec.getElem_and]
    cases x[i] <;> simp
  rw [hxor]

end BitMasks
