import Mathlib.Data.List.Infix
import Overthinkin.EventTrace

/-! A sequence cut into groups greedily: a group is closed only for an item that does not fit
into it, and the next group begins with that item. -/
namespace GreedyGroups

open EventTrace

variable {α : Type} (full : List α → α → Bool)

/-- The groups that are closed on the way, and the one that is still open at the end. -/
def fill : List α → List α → List (List α) × List α
  | group, [] => ([], group)
  | group, x :: xs =>
    if full group x then (group :: (fill [x] xs).1, (fill [x] xs).2)
    else fill (group ++ [x]) xs

/-- The last group counts unless nothing is in it. -/
def groups (xs : List α) : List (List α) :=
  (fill full [] xs).1 ++ if (fill full [] xs).2 = [] then [] else [(fill full [] xs).2]

/-- Groups from the start of `xs`, each as large as `full` lets it be. -/
structure Grouped (xs : List α) (gs : List (List α)) : Prop where
  divided : gs.flatten <+: xs
  nonempty : ∀ g ∈ gs, g ≠ []
  maximal : ∀ before g after x rest, gs = before ++ g :: after →
    xs = (before ++ [g]).flatten ++ x :: rest → full g x = true

variable {full} {xs : List α} {gs : List (List α)}

theorem Grouped.take (h : Grouped full xs gs) (k : ℕ) : Grouped full xs (gs.take k) where
  divided := (List.IsPrefix.flatten (List.take_prefix k gs)).trans h.divided
  nonempty := fun g hg => h.nonempty g (List.mem_of_mem_take hg)
  maximal := by
    intro earlier g later x rest hs
    apply h.maximal earlier g (later ++ gs.drop k) x rest
    rw [← List.cons_append, ← List.append_assoc, ← hs, List.take_append_drop]

end GreedyGroups
