import Mathlib.Data.List.Induction

/-! Traces that grow at their end, and properties of each event relative to its past. -/
namespace EventTrace

variable {α : Type}

/-- A position in a trace with one event more is the new event or a position of the old trace. -/
theorem snoc_split {xs a b : List α} {x y : α} (h : xs ++ [x] = a ++ y :: b) :
    (a = xs ∧ y = x) ∨ ∃ c, b = c ++ [x] ∧ xs = a ++ y :: c := by
  rcases List.eq_nil_or_concat b with rfl | ⟨c, z, rfl⟩
  · obtain ⟨rfl, hx⟩ := List.append_inj' h rfl
    exact Or.inl ⟨rfl, (List.head_eq_of_cons_eq hx).symm⟩
  · rw [show a ++ y :: c.concat z = (a ++ y :: c) ++ [z] by simp] at h
    obtain ⟨hxs, hx⟩ := List.append_inj' h rfl
    rw [List.head_eq_of_cons_eq hx]
    exact Or.inr ⟨c, by simp, hxs⟩

/-- Every event of the trace is in the relation `p` to the events before it. -/
def Each (p : List α → α → Prop) (trace : List α) : Prop :=
  ∀ before x after, trace = before ++ x :: after → p before x

variable {p : List α → α → Prop}

theorem Each.snoc {trace : List α} {x : α} (h : Each p trace) (hx : p trace x) :
    Each p (trace ++ [x]) := by
  intro before y after he
  rcases snoc_split he with ⟨rfl, rfl⟩ | ⟨c, _, hs⟩
  · exact hx
  · exact h before y c hs

theorem each_of_forall {trace : List α} (h : ∀ x ∈ trace, ∀ before, p before x) : Each p trace := by
  rintro before x after rfl
  exact h x (List.mem_append_right _ List.mem_cons_self) before

/-- An event in the relation `p` to its past has happened, and none of the kind `q` since. -/
def Since (p : List α → α → Prop) (q : α → Prop) (trace : List α) : Prop :=
  ∃ before x after, trace = before ++ x :: after ∧ p before x ∧ ∀ y ∈ after, ¬ q y

variable {q : α → Prop}

theorem not_since_nil : ¬ Since p q [] := by
  rintro ⟨before, x, after, he, -⟩
  cases before <;> cases he

/-- One event more: it is the one looked for, or it is none that ends the matter. -/
theorem since_snoc {trace : List α} {y : α} :
    Since p q (trace ++ [y]) ↔ p trace y ∨ ¬ q y ∧ Since p q trace := by
  constructor
  · rintro ⟨before, x, after, he, hx, hafter⟩
    rcases snoc_split he with ⟨rfl, rfl⟩ | ⟨after, rfl, rfl⟩
    · exact Or.inl hx
    · refine Or.inr ⟨hafter y (by simp), before, x, after, rfl, hx, ?_⟩
      exact fun z hz => hafter z (List.mem_append_left _ hz)
  · rintro (hy | ⟨hy, before, x, after, rfl, hx, hafter⟩)
    · exact ⟨trace, y, [], rfl, hy, fun z hz => absurd hz List.not_mem_nil⟩
    · refine ⟨before, x, after ++ [y], by simp, hx, fun z hz => ?_⟩
      rcases List.mem_append.mp hz with hz | hz
      · exact hafter z hz
      · exact List.mem_singleton.mp hz ▸ hy

end EventTrace
