import Mathlib.Data.List.Induction

/-! Sequences of the two edges of something that is switched on and off in turn. -/
namespace Alternation

inductive Edge where
  | rise | fall
  deriving DecidableEq, Repr

/-- The edges of something that starts switched off and is on, or off, in the end. -/
inductive Alternates : List Edge → Bool → Prop where
  | start : Alternates [] false
  | rise {edges} (h : Alternates edges false) : Alternates (edges ++ [.rise]) true
  | fall {edges} (h : Alternates edges true) : Alternates (edges ++ [.fall]) false

variable {edges : List Edge} {on : Bool}

theorem Alternates.length_parity (h : Alternates edges on) :
    edges.length % 2 = if on then 1 else 0 := by
  induction h with
  | start => rfl
  | rise _ ih =>
    rw [if_neg (by decide)] at ih
    rw [if_pos rfl, List.length_append, List.length_singleton]
    omega
  | fall _ ih =>
    rw [if_pos rfl] at ih
    rw [if_neg (by decide), List.length_append, List.length_singleton]
    omega

theorem edge_snoc {i : ℕ} {x e : Edge} (hi : (edges ++ [x])[i]? = some e) :
    edges[i]? = some e ∨ (i = edges.length ∧ e = x) := by
  rw [List.getElem?_append] at hi
  split at hi
  · exact Or.inl hi
  · simp only [List.getElem?_singleton, Option.ite_none_right_eq_some, Option.some.injEq] at hi
    exact Or.inr ⟨by omega, hi.2.symm⟩

/-- The edges at the even positions, counted from zero, are the rising ones. -/
theorem Alternates.edge_at (h : Alternates edges on) {i : ℕ} {e : Edge} (hi : edges[i]? = some e) :
    e = if i % 2 = 0 then .rise else .fall := by
  induction h with
  | start => simp at hi
  | rise hp ih =>
    have hlen := hp.length_parity
    rw [if_neg (by decide)] at hlen
    rcases edge_snoc hi with h | ⟨rfl, rfl⟩
    · exact ih h
    · rw [if_pos hlen]
  | fall hp ih =>
    have hlen := hp.length_parity
    rw [if_pos rfl] at hlen
    rcases edge_snoc hi with h | ⟨rfl, rfl⟩
    · exact ih h
    · rw [if_neg (by omega)]

theorem Alternates.last_edge (h : Alternates edges on) :
    edges.getLast? = some .rise ↔ on = true := by
  cases h <;> simp

end Alternation
