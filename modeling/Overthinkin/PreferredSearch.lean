import Mathlib.Data.List.Find

/-! A search of a list where some of the elements that are wanted are preferred to the others, and
what becomes of it when it looks for something slightly different. -/
namespace PreferredSearch

variable {α : Type*} (wanted preferred : α → Bool) (xs : List α)

/-- The first that is preferred, else the first. -/
def search : Option α := (xs.find? fun x => wanted x && preferred x).or (xs.find? wanted)

/-- Any of those that are preferred will do. -/
structure Selects (r : Option α) : Prop where
  none_iff : r = none ↔ ∀ x ∈ xs, ¬ wanted x
  wanted_of_some : ∀ x, r = some x → x ∈ xs ∧ wanted x
  preferred_of_some : ∀ x, r = some x → (∃ y ∈ xs, wanted y ∧ preferred y) → preferred x
  first_of_some : ∀ x, r = some x → (∀ y ∈ xs, wanted y → ¬ preferred y) →
    ∃ before rest, xs = before ++ x :: rest ∧ ∀ y ∈ before, ¬ wanted y

/-- When it does no harm to look for something else: the first that is sought and preferred is
wanted, or none that is preferred is either and the first that is wanted is the first sought. -/
def Agrees (sought : α → Bool) : Prop :=
  (∃ x, xs.find? (fun x => sought x && preferred x) = some x ∧ wanted x) ∨
    (∀ x ∈ xs, preferred x → ¬ wanted x ∧ ¬ sought x) ∧ xs.find? wanted = xs.find? sought

section
variable {wanted preferred : α → Bool} {xs : List α} {r : Option α}

theorem selects_of_preferred {x : α} (hx : x ∈ xs) (hw : wanted x) (hp : preferred x) :
    Selects wanted preferred xs (some x) where
  none_iff := iff_of_false (by simp) fun h => h x hx hw
  wanted_of_some _ h := Option.some.inj h ▸ ⟨hx, hw⟩
  preferred_of_some _ h _ := Option.some.inj h ▸ hp
  first_of_some _ _ h := absurd hp (h x hx hw)

theorem selects_of_first (h : ∀ x ∈ xs, wanted x → ¬ preferred x) :
    Selects wanted preferred xs (xs.find? wanted) where
  none_iff := List.find?_eq_none
  wanted_of_some _ hx := ⟨List.mem_of_find?_eq_some hx, List.find?_some hx⟩
  preferred_of_some _ _ hy := by
    obtain ⟨y, hy, hw, hp⟩ := hy
    exact absurd hp (h y hy hw)
  first_of_some x hx _ := by
    obtain ⟨-, before, rest, hxs, hb⟩ := List.find?_eq_some_iff_append.mp hx
    exact ⟨before, rest, hxs, fun y hy => by simpa using hb y hy⟩

theorem selects_iff : Selects wanted preferred xs r ↔
    (∃ x ∈ xs, wanted x ∧ preferred x ∧ r = some x) ∨
      (∀ x ∈ xs, wanted x → ¬ preferred x) ∧ r = xs.find? wanted := by
  constructor
  · intro h
    by_cases hex : ∃ y ∈ xs, wanted y ∧ preferred y
    · have hne : r ≠ none := by
        obtain ⟨y, hy, hw, -⟩ := hex
        exact fun hr => h.none_iff.mp hr y hy hw
      obtain ⟨x, rfl⟩ := Option.ne_none_iff_exists'.mp hne
      obtain ⟨hx, hwx⟩ := h.wanted_of_some x rfl
      exact .inl ⟨x, hx, hwx, h.preferred_of_some x rfl hex, rfl⟩
    · have hnone : ∀ x ∈ xs, wanted x → ¬ preferred x := fun x hx hw hp => hex ⟨x, hx, hw, hp⟩
      refine .inr ⟨hnone, ?_⟩
      cases r with
      | none => exact (List.find?_eq_none.mpr (h.none_iff.mp rfl)).symm
      | some x =>
        obtain ⟨before, rest, hxs, hb⟩ := h.first_of_some x rfl hnone
        have hw := (h.wanted_of_some x rfl).2
        exact (List.find?_eq_some_iff_append.mpr
          ⟨hw, before, rest, hxs, fun y hy => by simpa using hb y hy⟩).symm
  · intro h
    rcases h with ⟨x, hx, hw, hp, rfl⟩ | ⟨hnone, rfl⟩
    · exact selects_of_preferred hx hw hp
    · exact selects_of_first hnone

theorem of_find_both {x : α} (h : xs.find? (fun x => wanted x && preferred x) = some x) :
    x ∈ xs ∧ wanted x ∧ preferred x := by
  have hb : (wanted x && preferred x) = true := by simpa using List.find?_some h
  exact ⟨List.mem_of_find?_eq_some h, Bool.and_eq_true_iff.mp hb⟩

theorem selects_search_iff {sought : α → Bool} :
    Selects wanted preferred xs (search sought preferred xs) ↔
      Agrees wanted preferred xs sought := by
  rw [selects_iff, Agrees]
  cases hf : xs.find? fun x => sought x && preferred x with
  | some x =>
    obtain ⟨hx, hsought, hp⟩ := of_find_both hf
    have hs : search sought preferred xs = some x := by rw [search, hf, Option.some_or]
    rw [hs]
    constructor
    · intro h
      rcases h with ⟨y, -, hw, -, hy⟩ | ⟨hnone, hy⟩
      · exact .inl ⟨x, rfl, Option.some.inj hy ▸ hw⟩
      · exact absurd hp (hnone x hx (List.find?_some hy.symm))
    · intro h
      rcases h with ⟨y, hy, hw⟩ | ⟨hnone, -⟩
      · exact .inl ⟨x, hx, Option.some.inj hy ▸ hw, hp, rfl⟩
      · exact absurd hsought (hnone x hx hp).2
  | none =>
    have hs : search sought preferred xs = xs.find? sought := by rw [search, hf, Option.none_or]
    have hsought : ∀ x ∈ xs, preferred x → ¬ sought x := fun x hx hp hw =>
      List.find?_eq_none.mp hf x hx (Bool.and_eq_true_iff.mpr ⟨hw, hp⟩)
    rw [hs]
    constructor
    · intro h
      rcases h with ⟨x, hx, -, hp, hfind⟩ | ⟨hnone, hfind⟩
      · exact absurd (List.find?_some hfind) (hsought x hx hp)
      · exact .inr ⟨fun x hx hp => ⟨fun hw => hnone x hx hw hp, hsought x hx hp⟩, hfind.symm⟩
    · intro h
      rcases h with ⟨x, hx, -⟩ | ⟨hnone, hfind⟩
      · cases hx
      · exact .inr ⟨fun x hx hw hp => (hnone x hx hp).1 hw, hfind.symm⟩

theorem selects_search_of_agree {sought : α → Bool} (h : ∀ x ∈ xs, wanted x = sought x) :
    Selects wanted preferred xs (search sought preferred xs) := by
  rw [selects_search_iff, Agrees, List.find?_congr h]
  cases hf : xs.find? fun x => sought x && preferred x with
  | some x =>
    obtain ⟨hx, hw, -⟩ := of_find_both hf
    exact .inl ⟨x, rfl, (h x hx).trans hw⟩
  | none =>
    refine .inr ⟨fun x hx hp => ?_, rfl⟩
    have hs : ¬ sought x := fun hw =>
      List.find?_eq_none.mp hf x hx (Bool.and_eq_true_iff.mpr ⟨hw, hp⟩)
    exact ⟨by rwa [h x hx], hs⟩

end

end PreferredSearch
