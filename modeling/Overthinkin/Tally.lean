import Mathlib.Algebra.Order.Ring.Nat
import Mathlib.Algebra.BigOperators.Group.List.Basic
import Mathlib.Data.List.Induction
import Mathlib.Data.UInt

/-! Counters of a machine word, and a table of them with one counter for each class of the values
that are counted. -/
namespace Tally

variable {α : Type*} {p : α → Bool} {f : α → ℕ} {xs : List α} {x : α} {n : ℕ}

/-- The counter that is raised at every value with `p`. -/
def counter (p : α → Bool) (xs : List α) : UInt64 := UInt64.ofNat (xs.countP p)

@[simp] theorem counter_nil : counter p [] = 0 := rfl

theorem counter_append (p : α → Bool) (xs : List α) (x : α) :
    counter p (xs ++ [x]) = if p x then counter p xs + 1 else counter p xs := by
  unfold counter
  rw [List.countP_append, List.countP_singleton]
  split_ifs
  · exact UInt64.ofNat_add _ 1
  · rfl

theorem toNat_counter (h : xs.length < 2 ^ 64) : (counter p xs).toNat = xs.countP p :=
  UInt64.toNat_ofNat_of_lt' (lt_of_le_of_lt List.countP_le_length h)

/-- Of two counts the smaller reaches the larger when it misses no value. -/
theorem countP_eq_iff {q : α → Bool} (h : ∀ x ∈ xs, p x = true → q x = true) :
    xs.countP p = xs.countP q ↔ ∀ x ∈ xs, q x = true → p x = true := by
  induction xs with
  | nil => simp
  | cons x xs ih =>
    have htail : ∀ y ∈ xs, p y = true → q y = true := fun y hy => h y (List.mem_cons_of_mem x hy)
    have hle : xs.countP p ≤ xs.countP q := List.countP_mono_left htail
    have hx := h x List.mem_cons_self
    rw [List.countP_cons, List.countP_cons, List.forall_mem_cons, ← ih htail]
    by_cases hp : p x = true
    · rw [if_pos hp, if_pos (hx hp)]
      simp [hp]
    · by_cases hq : q x = true
      · rw [if_neg hp, if_pos hq]
        exact ⟨fun h => by omega, fun h => absurd (h.1 hq) hp⟩
      · rw [if_neg hp, if_neg hq]
        simp [hq]

/-- Raises one entry. -/
def bump (table : List UInt64) (k : ℕ) : List UInt64 := table.modify k (· + 1)

/-- The table of `n` classes after the values are counted in their order. -/
def tally (f : α → ℕ) (n : ℕ) (xs : List α) : List UInt64 :=
  xs.foldl (fun table x => bump table (f x)) (List.replicate n 0)

theorem tally_append (f : α → ℕ) (n : ℕ) (xs : List α) (x : α) :
    tally f n (xs ++ [x]) = bump (tally f n xs) (f x) := by
  simp only [tally, List.foldl_append, List.foldl_cons, List.foldl_nil]

/-- Each entry counts the values of its class. -/
theorem tally_eq (f : α → ℕ) (n : ℕ) (xs : List α) :
    tally f n xs = (List.range n).map fun k => counter (f · = k) xs := by
  induction xs using List.reverseRecOn with
  | nil =>
    simp only [tally, List.foldl_nil, counter_nil, List.map_const', List.length_range]
  | append_singleton xs x ih =>
    rw [tally_append, ih]
    refine List.ext_getElem (by simp [bump]) fun k hk hk' => ?_
    simp only [bump, List.getElem_modify, List.getElem_map, List.getElem_range, counter_append,
      decide_eq_true_eq]

theorem sum_class (c n : ℕ) :
    ((List.range n).map fun k => if c = k then 1 else 0).sum = if c < n then 1 else 0 := by
  induction n with
  | zero => rfl
  | succ n ih =>
    rw [List.sum_range_succ, ih]
    split_ifs
    all_goals omega

/-- A value is in one class. -/
theorem sum_countP (h : ∀ x ∈ xs, f x < n) :
    ((List.range n).map fun k => xs.countP (f · = k)).sum = xs.length := by
  induction xs with
  | nil => simp only [List.countP_nil, List.map_const', List.sum_replicate_nat,
      Nat.mul_zero, List.length_nil]
  | cons x xs ih =>
    simp only [List.countP_cons, List.sum_map_add, decide_eq_true_eq, List.length_cons]
    rw [ih fun y hy => h y (List.mem_cons_of_mem x hy), sum_class, if_pos (h x List.mem_cons_self)]

/-- The entries sum to the number of values, as long as no counter turns over. -/
theorem sum_toNat_tally (h : ∀ x ∈ xs, f x < n) (hlen : xs.length < 2 ^ 64) :
    ((tally f n xs).map UInt64.toNat).sum = xs.length := by
  rw [tally_eq, List.map_map, ← sum_countP h]
  congr 1
  exact List.map_congr_left fun k _ => toNat_counter hlen

/-- Empty entries add nothing. -/
theorem sum_toNat_filter (table : List UInt64) :
    ((table.filter (· ≠ 0)).map UInt64.toNat).sum = (table.map UInt64.toNat).sum := by
  induction table with
  | nil => rfl
  | cons v table ih =>
    by_cases hv : v = 0
    · rw [List.filter_cons_of_neg (by simp [hv]), ih, List.map_cons, List.sum_cons, hv,
        UInt64.toNat_zero, Nat.zero_add]
    · rw [List.filter_cons_of_pos (by simp [hv]), List.map_cons, List.map_cons, List.sum_cons,
        List.sum_cons, ih]

end Tally
