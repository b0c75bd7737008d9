import Overthinkin.AsciiText
import Mathlib.Data.Nat.Bitwise
import Mathlib.Tactic.Ring

/-! The fragment of the Go language that the models below are written in: calls that
return a value, return an error or panic, checked indexing and slicing, `make`, and
64-bit integers. Strings are byte sequences, as Go's are. -/
namespace GoRuntime

export AsciiText (ascii decimal)

abbrev GoString := List UInt8

/-- How a call ends. A panic is kept apart from an error value: no caller here recovers it. -/
inductive Outcome (α : Type) where
  | ok (value : α)
  | error (message : String)
  | panic
  deriving DecidableEq, Repr

variable {α β : Type}

namespace Outcome

def bind : Outcome α → (α → Outcome β) → Outcome β
  | ok a, f => f a
  | error e, _ => error e
  | panic, _ => panic

instance : Monad Outcome where
  pure := ok
  bind := bind

/-- The call returned a nil error. -/
def returnsNil : Outcome α → Bool
  | ok _ => true
  | _ => false

def panics : Outcome α → Bool
  | panic => true
  | _ => false

@[simp] theorem ok_bind (a : α) (f : α → Outcome β) : (ok a >>= f) = f a := rfl
@[simp] theorem error_bind (e : String) (f : α → Outcome β) : (error e >>= f) = error e := rfl
@[simp] theorem panic_bind (f : α → Outcome β) : (panic >>= f) = panic := rfl
@[simp] theorem pure_eq (a : α) : (pure a : Outcome α) = ok a := rfl

theorem bind_eq_ok {x : Outcome α} {f : α → Outcome β} {b : β} :
    (x >>= f) = ok b ↔ ∃ a, x = ok a ∧ f a = ok b := by
  cases x <;> simp

theorem bind_eq_panic {x : Outcome α} {f : α → Outcome β} :
    (x >>= f) = panic ↔ x = panic ∨ ∃ a, x = ok a ∧ f a = panic := by
  cases x <;> simp

theorem returnsNil_iff {x : Outcome α} : x.returnsNil = true ↔ ∃ a, x = ok a := by
  cases x <;> simp [returnsNil]

theorem panics_iff {x : Outcome α} : x.panics = true ↔ x = panic := by
  cases x <;> simp [panics]

end Outcome

open Outcome

/-- `if bad { return ..., fmt.Errorf(message) }`. -/
def failIf (bad : Prop) [Decidable bad] (message : String) : Outcome Unit :=
  if bad then error message else ok ()

@[simp] theorem failIf_of_not {bad : Prop} [Decidable bad] {m : String} (h : ¬ bad) :
    failIf bad m = ok () := if_neg h

theorem failIf_eq_ok {bad : Prop} [Decidable bad] {m : String} {u : Unit} :
    failIf bad m = ok u ↔ ¬ bad := by
  unfold failIf
  split <;> simp_all

@[simp] theorem failIf_ne_panic {bad : Prop} [Decidable bad] {m : String} :
    failIf bad m ≠ panic := by
  unfold failIf
  split <;> simp

/-- `xs[i]`. -/
def index (xs : List α) (i : ℕ) : Outcome α :=
  match xs[i]? with
  | some x => ok x
  | none => panic

/-- `xs[lo:hi]`, with the length as the bound for `hi`. -/
def slice (xs : List α) (lo hi : ℕ) : Outcome (List α) :=
  if lo ≤ hi ∧ hi ≤ xs.length then ok ((xs.drop lo).take (hi - lo)) else panic

theorem index_eq_panic {xs : List α} {i : ℕ} : index xs i = panic ↔ xs.length ≤ i := by
  rw [← List.getElem?_eq_none_iff]
  unfold index
  split <;> simp_all

@[simp] theorem index_append (a b : List α) (x : α) : index (a ++ x :: b) a.length = ok x := by
  simp [index]

/-- What is left at a position begins with the element that an index reads there. -/
theorem drop_of_index {xs : List α} {i : ℕ} {x : α} (h : index xs i = ok x) :
    xs.drop i = x :: xs.drop (i + 1) := by
  unfold index at h
  split at h
  · rename_i y hy
    cases h
    obtain ⟨hlt, rfl⟩ := List.getElem?_eq_some_iff.mp hy
    exact List.drop_eq_getElem_cons hlt
  · cases h

theorem slice_of_le {xs : List α} {lo hi : ℕ} (h : lo ≤ hi) (k : hi ≤ xs.length) :
    slice xs lo hi = ok ((xs.drop lo).take (hi - lo)) := if_pos ⟨h, k⟩

theorem slice_eq_ok {xs ys : List α} {lo hi : ℕ} :
    slice xs lo hi = ok ys ↔ lo ≤ hi ∧ hi ≤ xs.length ∧ ys = (xs.drop lo).take (hi - lo) := by
  unfold slice
  split <;> simp_all [eq_comm]

theorem slice_eq_panic {xs : List α} {lo hi : ℕ} :
    slice xs lo hi = panic ↔ ¬ (lo ≤ hi ∧ hi ≤ xs.length) := by
  unfold slice
  split <;> simp_all

theorem slice_middle (a b c : List α) :
    slice (a ++ b ++ c) a.length (a.length + b.length) = ok b := by
  rw [slice_of_le (by omega) (by simp)]
  simp [List.append_assoc]

theorem slice_tail (a b : List α) : slice (a ++ b) a.length (a ++ b).length = ok b := by
  rw [slice_of_le (by simp) le_rfl]
  simp

/-- What is left behind the part of the data that has been read. -/
theorem drop_past {data front rest : List α} {pos : ℕ} (h : data.drop pos = front ++ rest) :
    data.drop (pos + front.length) = rest := by
  rw [← List.drop_drop, h, List.drop_left]

/-- The same behind a separator. -/
theorem drop_past_cons {data front rest : List α} {x : α} {pos : ℕ}
    (h : data.drop pos = front ++ x :: rest) : data.drop (front.length + pos + 1) = rest := by
  rw [← List.drop_drop, Nat.add_comm front.length, drop_past h]
  rfl

theorem slice_front {data front rest : List α} {pos : ℕ} (h : data.drop pos = front ++ rest)
    (hpos : pos ≤ data.length) : slice data pos (pos + front.length) = ok front := by
  have hlen := congrArg List.length h
  rw [List.length_drop, List.length_append] at hlen
  rw [slice_of_le (by omega) (by omega), Nat.add_sub_cancel_left, h, List.take_left]

theorem slice_rest {data : List α} {pos : ℕ} (h : pos ≤ data.length) :
    slice data pos data.length = ok (data.drop pos) := by
  rw [slice_of_le h (Nat.le_refl _), ← List.length_drop, List.take_length]

/-- An `int` or `int64` value holding the low 64 bits of `x`. -/
def int64 (x : ℤ) : ℤ := x.bmod (2 ^ 64)

theorem int64_of_range {x : ℤ} (h : -2 ^ 63 ≤ x) (k : x < 2 ^ 63) : int64 x = x := by
  unfold int64
  rw [Int.bmod_def]
  omega

/-- What the models need to know of the allocator: `make` panics beyond `maxAlloc` bytes,
which is below the largest `int`, and every slice that exists was allocated under it. -/
structure Runtime where
  maxAlloc : ℕ
  maxAlloc_lt : maxAlloc < 2 ^ 63

/-- `make([]byte, 0, cap)`. -/
def Runtime.make (rt : Runtime) (cap : ℤ) : Outcome (List UInt8) :=
  if 0 ≤ cap ∧ cap ≤ rt.maxAlloc then ok [] else panic

theorem Runtime.make_eq_ok {rt : Runtime} {cap : ℤ} {r : List UInt8} :
    rt.make cap = ok r ↔ (0 ≤ cap ∧ cap ≤ rt.maxAlloc) ∧ r = [] := by
  unfold Runtime.make
  split <;> simp_all [eq_comm]

theorem Runtime.make_eq_panic {rt : Runtime} {cap : ℤ} :
    rt.make cap = panic ↔ ¬ (0 ≤ cap ∧ cap ≤ rt.maxAlloc) := by
  unfold Runtime.make
  split <;> simp_all

end GoRuntime
