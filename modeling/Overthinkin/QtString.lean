import Mathlib.Data.List.DropRight
import Mathlib.Data.List.Infix

/-! Strings of Qt, as lists of UTF-16 code units: searching, replacing and trimming. -/
namespace QtString

section
variable {α : Type*} [DecidableEq α]

def contains (needle : List α) : List α → Bool
  | [] => needle.isEmpty
  | u :: rest => needle.isPrefixOf (u :: rest) || contains needle rest

/-- After a match its other elements are passed. -/
def replaceFrom (before after : List α) : ℕ → List α → List α
  | _, [] => []
  | skip + 1, _ :: rest => replaceFrom before after skip rest
  | 0, u :: rest =>
    if before.isPrefixOf (u :: rest) then after ++ replaceFrom before after (before.length - 1) rest
    else u :: replaceFrom before after 0 rest

/-- Each occurrence from the left, for a pattern that is not empty. -/
def replace (before after s : List α) : List α := replaceFrom before after 0 s

/-- The same for one element. -/
def replaceChar (before after : α) (s : List α) : List α :=
  s.map fun u => if u = before then after else u

variable {needle before after s : List α}

theorem contains_iff : contains needle s = true ↔ needle <:+: s := by
  induction s with
  | nil => simp [contains]
  | cons u rest ih => rw [contains, Bool.or_eq_true, List.isPrefixOf_iff_prefix, ih,
      List.infix_cons_iff]

theorem length_replaceFrom_le (h : after.length ≤ before.length) {skip : ℕ}
    (hs : skip ≤ s.length) : (replaceFrom before after skip s).length + skip ≤ s.length := by
  induction s generalizing skip with
  | nil => simpa [replaceFrom] using hs
  | cons u rest ih =>
    rw [List.length_cons] at hs
    cases skip with
    | succ skip =>
      have := ih (Nat.le_of_succ_le_succ hs)
      rw [replaceFrom, List.length_cons]
      omega
    | zero =>
      rw [replaceFrom, List.length_cons]
      by_cases hp : before.isPrefixOf (u :: rest)
      · have hlen := (List.isPrefixOf_iff_prefix.mp hp).length_le
        rw [List.length_cons] at hlen
        have := ih (show before.length - 1 ≤ rest.length by omega)
        rw [if_pos hp, List.length_append]
        omega
      · have := ih (Nat.zero_le _)
        rw [if_neg hp, List.length_cons]
        omega

/-- A shorter replacement makes a string shorter. -/
theorem length_replace_lt (h : after.length < before.length) (hc : contains before s) :
    (replace before after s).length < s.length := by
  rw [replace]
  induction s with
  | nil => 
    rw [contains, List.isEmpty_iff] at hc
    simp [hc] at h
  | cons u rest ih =>
    rw [replaceFrom, List.length_cons]
    by_cases hp : before.isPrefixOf (u :: rest)
    · have hlen := (List.isPrefixOf_iff_prefix.mp hp).length_le
      rw [List.length_cons] at hlen
      have := length_replaceFrom_le h.le (show before.length - 1 ≤ rest.length by omega)
      rw [if_pos hp, List.length_append]
      omega
    · rw [contains, Bool.or_eq_true, or_iff_right hp] at hc
      rw [if_neg hp, List.length_cons]
      exact Nat.succ_lt_succ (ih hc)

end

/-! ### Trimming -/

section
variable {α : Type*} (p : α → Bool)

def trim (s : List α) : List α := (s.dropWhile p).rdropWhile p

variable {p} {s : List α} {u : α}

theorem trim_cons (h : p u) : trim p (u :: s) = trim p s := by
  rw [trim, List.dropWhile_cons_of_pos h, trim]

theorem trim_concat (h : p u) : trim p (s ++ [u]) = trim p s := by
  rw [trim, trim, List.dropWhile_append]
  by_cases hs : (s.dropWhile p).isEmpty
  · rw [if_pos hs, List.dropWhile_cons_of_pos h, List.isEmpty_iff.mp hs]
    rfl
  · rw [if_neg hs, List.rdropWhile_concat_pos _ _ _ h]

/-- What is trimmed away is a part in front and one behind. -/
theorem infix_trim : trim p s <:+: s := by
  have hback := List.rdropWhile_prefix p (s.dropWhile p)
  exact hback.isInfix.trans (List.dropWhile_suffix p).isInfix

theorem trim_head (h : (trim p s).head? = some u) : ¬ p u := by
  obtain ⟨rest, hrest⟩ := List.rdropWhile_prefix p (s.dropWhile p)
  have hhead : (s.dropWhile p).head? = some u := by
    rw [← hrest, List.head?_append, ← trim, h, Option.some_or]
  have hnot := List.head?_dropWhile_not p s
  simp only [hhead] at hnot
  simp [hnot]

theorem trim_getLast (h : (trim p s).getLast? = some u) : ¬ p u := by
  have hne : trim p s ≠ [] := fun hnil => by simp [hnil] at h
  rw [List.getLast?_eq_some_getLast hne] at h
  exact Option.some.inj h ▸ List.rdropWhile_last_not p _ hne

theorem trim_eq_self_iff :
    trim p s = s ↔ ∀ u, s.head? = some u ∨ s.getLast? = some u → ¬ p u := by
  constructor
  · intro heq u hu
    rcases hu with hu | hu
    · exact trim_head (s := s) (by rwa [heq])
    · exact trim_getLast (s := s) (by rwa [heq])
  · intro h
    cases s with
    | nil => rfl
    | cons u rest =>
      rw [trim, List.dropWhile_cons_of_neg (h u (.inl rfl)), List.rdropWhile_eq_self_iff]
      exact fun hne => h _ (.inr (List.getLast?_eq_some_getLast hne))

/-- Either end can be trimmed before. -/
theorem trim_rdropWhile {q : α → Bool} (hq : ∀ u, q u → p u) :
    trim p (s.rdropWhile q) = trim p s := by
  induction s using List.reverseRecOn with
  | nil => rfl
  | append_singleton s u ih =>
    by_cases h : q u
    · rw [List.rdropWhile_concat_pos _ _ _ h, ih, trim_concat (hq u h)]
    · rw [List.rdropWhile_concat_neg _ _ _ h]

theorem trim_dropWhile {q : α → Bool} (hq : ∀ u, q u → p u) :
    trim p (s.dropWhile q) = trim p s := by
  induction s with
  | nil => rfl
  | cons u rest ih =>
    by_cases h : q u
    · rw [List.dropWhile_cons_of_pos h, ih, trim_cons (hq u h)]
    · rw [List.dropWhile_cons_of_neg h]

end

/-! ### White space -/

/-- `QChar::isSpace`. -/
def isSpace (u : UInt16) : Bool :=
  u = 0x20 || (0x09 ≤ u && u ≤ 0x0d) || u = 0x85 || u = 0xa0 || u = 0x1680 ||
    (0x2000 ≤ u && u ≤ 0x200a) || u = 0x2028 || u = 0x2029 || u = 0x202f || u = 0x205f ||
    u = 0x3000

def trimmed (s : List UInt16) : List UInt16 := trim isSpace s

/-- The first units of a string, or all of them. -/
def left (s : List UInt16) (n : ℕ) : List UInt16 := s.take n

end QtString
