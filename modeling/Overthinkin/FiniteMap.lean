import Mathlib.Data.Finmap
import Mathlib.Data.List.Sort

/-! Finite maps as the programs use them: insertion replaces, and a map that only gains
fresh keys extends every earlier one. -/
namespace FiniteMap

/-- A finite map from `κ` to `ν`. -/
abbrev FMap (κ ν : Type) := Finmap fun _ : κ => ν

variable {κ ν : Type} [DecidableEq κ]

/-- Everything `m` holds, `m'` holds too. -/
def Extends (m m' : FMap κ ν) : Prop := ∀ k v, m.lookup k = some v → m'.lookup k = some v

theorem Extends.refl (m : FMap κ ν) : Extends m m := fun _ _ h => h

theorem Extends.trans {a b c : FMap κ ν} (h : Extends a b) (k : Extends b c) : Extends a c :=
  fun _ _ hx => k _ _ (h _ _ hx)

theorem Extends.antisymm {a b : FMap κ ν} (h : Extends a b) (k : Extends b a) : a = b := by
  apply Finmap.ext_lookup
  intro x
  cases ha : a.lookup x with
  | some v => exact (h x v ha).symm
  | none =>
    cases hb : b.lookup x with
    | none => rfl
    | some v => rw [k x v hb] at ha; cases ha

theorem extends_insert {m : FMap κ ν} {k : κ} (h : m.lookup k = none) (v : ν) :
    Extends m (m.insert k v) := by
  intro x w hx
  by_cases hk : x = k
  · subst x; rw [h] at hx; cases hx
  · rwa [Finmap.lookup_insert_of_ne _ hk]

theorem insert_extends {m m' : FMap κ ν} {k : κ} {v : ν} (h : Extends m m')
    (hk : m'.lookup k = some v) : Extends (m.insert k v) m' := by
  intro x w hx
  by_cases he : x = k
  · subst x; rw [Finmap.lookup_insert] at hx; rw [hk, hx]
  · exact h x w (by rwa [Finmap.lookup_insert_of_ne _ he] at hx)

theorem lookup_insert_iff {m : FMap κ ν} {k x : κ} {v w : ν} :
    (m.insert k v).lookup x = some w ↔ (x = k ∧ w = v) ∨ (x ≠ k ∧ m.lookup x = some w) := by
  by_cases h : x = k
  · subst x; simp [eq_comm]
  · simp [h]

theorem lookup_insert_none {m : FMap κ ν} {k x : κ} {v : ν} :
    (m.insert k v).lookup x = none ↔ x ≠ k ∧ m.lookup x = none := by
  by_cases h : x = k
  · subst x; simp
  · simp [h]

theorem keys_insert (m : FMap κ ν) (k : κ) (v : ν) : (m.insert k v).keys = insert k m.keys := by
  ext x
  simp [Finmap.mem_keys, Finmap.mem_insert]

theorem mem_keys_iff {m : FMap κ ν} {k : κ} : k ∈ m.keys ↔ ∃ v, m.lookup k = some v := by
  rw [Finmap.mem_keys, Finmap.mem_iff]

theorem notMem_keys_iff {m : FMap κ ν} {k : κ} : k ∉ m.keys ↔ m.lookup k = none := by
  rw [Finmap.mem_keys, Finmap.lookup_eq_none]

theorem lookup_erase_iff {m : FMap κ ν} {k x : κ} {w : ν} :
    (m.erase k).lookup x = some w ↔ x ≠ k ∧ m.lookup x = some w := by
  by_cases h : x = k
  · subst x; simp
  · simp [h]

theorem card_insert {m : FMap κ ν} {k : κ} (h : m.lookup k = none) (v : ν) :
    (m.insert k v).keys.card = m.keys.card + 1 := by
  rw [keys_insert, Finset.card_insert_of_notMem (notMem_keys_iff.mpr h)]

/-- The elements of a finite set in increasing order, by a sort that evaluates. -/
def increasing {α : Type} [LinearOrder α] (s : Finset α) : List α :=
  Quot.liftOn s.val (List.insertionSort (· ≤ ·)) fun a b h =>
    ((List.perm_insertionSort (· ≤ ·) a).trans
      (h.trans (List.perm_insertionSort (· ≤ ·) b).symm)).eq_of_sortedLE
      List.sortedLE_insertionSort List.sortedLE_insertionSort

section
variable {α : Type} [LinearOrder α]

theorem coe_increasing (s : Finset α) : (increasing s : Multiset α) = s.val := by
  unfold increasing
  induction s.val using Quot.ind with
  | mk l => exact Quot.sound (List.perm_insertionSort (· ≤ ·) l)

theorem mem_increasing {s : Finset α} {a : α} : a ∈ increasing s ↔ a ∈ s := by
  rw [← Multiset.mem_coe, coe_increasing, Finset.mem_val]

theorem nodup_increasing (s : Finset α) : (increasing s).Nodup := by
  rw [← Multiset.coe_nodup, coe_increasing]
  exact s.nodup

end

end FiniteMap
