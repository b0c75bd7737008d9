import Mathlib.Algebra.Order.Ring.Int
import Mathlib.Data.List.TakeWhile

/-! `strtol` of the C library with base 0, as it is documented, and the numerals that it reads to
their end. -/
namespace CStrtol

def longMax : ℕ := 2 ^ 63 - 1

def longMin : ℤ := -2 ^ 63

/-- `isspace` in the C locale. -/
def isSpace (c : Char) : Bool :=
  c == ' ' || c == '\t' || c == '\n' || c == '\x0b' || c == '\x0c' || c == '\r'

/-- The value of a digit, and 36 for what is none. -/
def digitValue (c : Char) : ℕ :=
  if '0' ≤ c ∧ c ≤ '9' then c.toNat - '0'.toNat
  else if 'a' ≤ c ∧ c ≤ 'z' then c.toNat - 'a'.toNat + 10
  else if 'A' ≤ c ∧ c ≤ 'Z' then c.toNat - 'A'.toNat + 10
  else 36

def isDigit (base : ℕ) (c : Char) : Bool := digitValue c < base

def value (base : ℕ) (digits : List Char) : ℕ :=
  digits.foldl (fun n c => base * n + digitValue c) 0

/-- What the standards leave to the library: whether `0b` is a prefix, and whether `errno` is set
where no conversion is possible. -/
structure Library where
  binary : Bool
  noConversion : Bool
  deriving DecidableEq

/-- The base that a prefix selects, and the text from its first digit. -/
def radix (binary : Bool) : List Char → ℕ × List Char
  | '0' :: x :: d :: rest =>
    if (x = 'x' ∨ x = 'X') ∧ isDigit 16 d = true then (16, d :: rest)
    else if binary = true ∧ (x = 'b' ∨ x = 'B') ∧ isDigit 2 d = true then (2, d :: rest)
    else (8, '0' :: x :: d :: rest)
  | '0' :: rest => (8, '0' :: rest)
  | text => (10, text)

def sign : List Char → Bool × List Char
  | '-' :: text => (true, text)
  | '+' :: text => (false, text)
  | text => (false, text)

/-- The value, what stands at `endptr`, and whether `errno` was set. -/
structure Result where
  value : ℤ
  rest : List Char
  errno : Bool
  deriving DecidableEq

def limited (negative : Bool) (n : ℕ) (rest : List Char) : Result :=
  if negative then
    if 2 ^ 63 < n then ⟨longMin, rest, true⟩ else ⟨-n, rest, false⟩
  else if longMax < n then ⟨longMax, rest, true⟩
  else ⟨n, rest, false⟩

/-- Without a digit there is no conversion, and `endptr` is the start of the text. -/
def strtol (lib : Library) (text : List Char) : Result :=
  let signed := sign (text.dropWhile isSpace)
  let number := radix lib.binary signed.2
  let digits := number.2.takeWhile (isDigit number.1)
  if digits = [] then ⟨0, text, lib.noConversion⟩
  else limited signed.1 (value number.1 digits) (number.2.dropWhile (isDigit number.1))

def Digits (base : ℕ) (digits : List Char) : Prop :=
  digits ≠ [] ∧ ∀ c ∈ digits, isDigit base c = true

/-- The numerals of the C language for a magnitude. -/
inductive Magnitude (binary : Bool) : List Char → ℕ → Prop where
  | decimal {digits : List Char} : Digits 10 digits → digits.head? ≠ some '0' →
      Magnitude binary digits (value 10 digits)
  | octal {digits : List Char} : Digits 8 ('0' :: digits) →
      Magnitude binary ('0' :: digits) (value 8 ('0' :: digits))
  | hexadecimal {x : Char} {digits : List Char} : x = 'x' ∨ x = 'X' → Digits 16 digits →
      Magnitude binary ('0' :: x :: digits) (value 16 digits)
  | binary {x : Char} {digits : List Char} : binary = true → x = 'b' ∨ x = 'B' →
      Digits 2 digits → Magnitude binary ('0' :: x :: digits) (value 2 digits)

/-- White space, a sign or none, and a magnitude. -/
inductive Numeral (binary : Bool) : List Char → ℤ → Prop where
  | plain {blanks digits : List Char} {n : ℕ} : (∀ c ∈ blanks, isSpace c = true) →
      Magnitude binary digits n → Numeral binary (blanks ++ digits) n
  | plus {blanks digits : List Char} {n : ℕ} : (∀ c ∈ blanks, isSpace c = true) →
      Magnitude binary digits n → Numeral binary (blanks ++ '+' :: digits) n
  | minus {blanks digits : List Char} {n : ℕ} : (∀ c ∈ blanks, isSpace c = true) →
      Magnitude binary digits n → Numeral binary (blanks ++ '-' :: digits) (-n)

section
variable {lib : Library} {binary : Bool} {text digits : List Char} {n base : ℕ} {v : ℤ} {c : Char}

theorem Digits.takeWhile (h : Digits base digits) :
    digits.takeWhile (isDigit base) = digits ∧ digits.dropWhile (isDigit base) = [] :=
  ⟨List.takeWhile_eq_self_iff.mpr h.2, List.dropWhile_eq_nil_iff.mpr h.2⟩

theorem digits_of_takeWhile (hne : text.takeWhile (isDigit base) ≠ [])
    (hrest : text.dropWhile (isDigit base) = []) : Digits base text := by
  refine ⟨fun hnil => hne (by rw [hnil]; rfl), ?_⟩
  exact List.dropWhile_eq_nil_iff.mp hrest

/-! ### The base that the prefix selects -/

theorem radix_decimal (h : text.head? ≠ some '0') : radix binary text = (10, text) := by
  unfold radix
  split
  · exact absurd rfl h
  · exact absurd rfl h
  · rfl

theorem radix_octal (h : Digits 8 ('0' :: digits)) :
    radix binary ('0' :: digits) = (8, '0' :: digits) := by
  unfold radix
  split
  · rename_i x d rest heq
    obtain rfl := (List.cons.inj heq).2
    have hx : isDigit 8 x = true := h.2 x (by simp)
    rw [if_neg, if_neg]
    · intro h
      rcases h.2.1 with rfl | rfl <;> exact absurd hx (by decide)
    · intro h
      rcases h.1 with rfl | rfl <;> exact absurd hx (by decide)
  · rename_i heq
    rw [(List.cons.inj heq).2]
  · rename_i hno
    exact absurd rfl (hno digits)

theorem radix_hexadecimal (hx : c = 'x' ∨ c = 'X') (h : Digits 16 digits) :
    radix binary ('0' :: c :: digits) = (16, digits) := by
  obtain ⟨d, rest, rfl⟩ := List.exists_cons_of_ne_nil h.1
  exact if_pos ⟨hx, h.2 d List.mem_cons_self⟩

theorem radix_binary (hbinary : binary = true) (hx : c = 'b' ∨ c = 'B') (h : Digits 2 digits) :
    radix binary ('0' :: c :: digits) = (2, digits) := by
  obtain ⟨d, rest, rfl⟩ := List.exists_cons_of_ne_nil h.1
  have hnot : ¬ ((c = 'x' ∨ c = 'X') ∧ isDigit 16 d = true) := by
    intro h
    rcases hx with rfl | rfl <;> exact absurd h.1 (by decide)
  exact (if_neg hnot).trans (if_pos ⟨hbinary, hx, h.2 d List.mem_cons_self⟩)

theorem magnitude_radix (h : Digits (radix binary text).1 (radix binary text).2) :
    Magnitude binary text (value (radix binary text).1 (radix binary text).2) := by
  unfold radix at h ⊢
  split at h
  · rename_i x d rest
    split_ifs at h with hx hb
    · simp only [if_pos hx]
      exact .hexadecimal hx.1 h
    · simp only [if_neg hx, if_pos hb]
      exact .binary hb.1 hb.2.1 h
    · simp only [if_neg hx, if_neg hb]
      exact .octal h
  · exact .octal h
  · rename_i hthree hzero
    refine .decimal h fun hhead => ?_
    obtain ⟨rest, hrest⟩ := List.head?_eq_some_iff.mp hhead
    exact hzero rest hrest

/-- A magnitude is what the prefix and the digits after it stand for. -/
theorem magnitude_iff : Magnitude binary text n ↔
    Digits (radix binary text).1 (radix binary text).2 ∧
      n = value (radix binary text).1 (radix binary text).2 := by
  constructor
  · intro h
    cases h with
    | decimal hdigits hhead =>
      rw [radix_decimal hhead]
      exact ⟨hdigits, rfl⟩
    | octal hdigits =>
      rw [radix_octal hdigits]
      exact ⟨hdigits, rfl⟩
    | hexadecimal hx hdigits =>
      rw [radix_hexadecimal hx hdigits]
      exact ⟨hdigits, rfl⟩
    | binary hbinary hx hdigits =>
      rw [radix_binary hbinary hx hdigits]
      exact ⟨hdigits, rfl⟩
  · intro ⟨hdigits, hn⟩
    rw [hn]
    exact magnitude_radix hdigits

/-! ### Sign and white space -/

/-- A magnitude starts with a decimal digit. -/
theorem magnitude_head (h : Magnitude binary text n) :
    ∃ c rest, text = c :: rest ∧ isDigit 10 c = true := by
  cases h with
  | decimal hdigits _ =>
    obtain ⟨c, rest, rfl⟩ := List.exists_cons_of_ne_nil hdigits.1
    exact ⟨c, rest, rfl, hdigits.2 c List.mem_cons_self⟩
  | @octal digits _ => exact ⟨'0', digits, rfl, by decide⟩
  | @hexadecimal x digits _ _ => exact ⟨'0', x :: digits, rfl, by decide⟩
  | @binary x digits _ _ _ => exact ⟨'0', x :: digits, rfl, by decide⟩

theorem digit_plain (h : isDigit 10 c = true) : isSpace c = false ∧ c ≠ '-' ∧ c ≠ '+' := by
  refine ⟨?_, ?_, ?_⟩
  · by_contra hspace
    simp only [isSpace, Bool.not_eq_false, Bool.or_eq_true, beq_iff_eq] at hspace
    rcases hspace with ((((rfl | rfl) | rfl) | rfl) | rfl) | rfl <;> exact absurd h (by decide)
  · rintro rfl
    exact absurd h (by decide)
  · rintro rfl
    exact absurd h (by decide)

theorem sign_plain (hminus : c ≠ '-') (hplus : c ≠ '+') :
    sign (c :: text) = (false, c :: text) := by
  unfold sign
  split
  · rename_i heq
    exact absurd (List.cons.inj heq).1 hminus
  · rename_i heq
    exact absurd (List.cons.inj heq).1 hplus
  · rfl

/-- What is left of the text after the sign, and the sign with it. -/
theorem sign_cases (text : List Char) : text = '-' :: (sign text).2 ∧ (sign text).1 = true ∨
    text = '+' :: (sign text).2 ∧ (sign text).1 = false ∨
    text = (sign text).2 ∧ (sign text).1 = false := by
  unfold sign
  split
  · exact .inl ⟨rfl, rfl⟩
  · exact .inr (.inl ⟨rfl, rfl⟩)
  · exact .inr (.inr ⟨rfl, rfl⟩)

theorem dropWhile_blanks {blanks rest : List Char} (h : ∀ c ∈ blanks, isSpace c = true)
    (hhead : ∀ c ∈ rest.head?, isSpace c = false) :
    (blanks ++ rest).dropWhile isSpace = rest := by
  rw [List.dropWhile_append_of_pos h]
  cases rest with
  | nil => rfl
  | cons c rest => exact List.dropWhile_cons_of_neg (by simp [hhead c rfl])

/-- The magnitude of a numeral and its sign. -/
theorem numeral_iff : Numeral binary text v ↔
    ∃ n, Magnitude binary (sign (text.dropWhile isSpace)).2 n ∧
      v = if (sign (text.dropWhile isSpace)).1 then -(n : ℤ) else n := by
  constructor
  · intro h
    cases h with
    | @plain blanks digits n hblanks hmagnitude =>
      obtain ⟨c, rest, rfl, hc⟩ := magnitude_head hmagnitude
      obtain ⟨hspace, hminus, hplus⟩ := digit_plain hc
      rw [dropWhile_blanks hblanks (fun x hx => by cases hx; exact hspace),
        sign_plain hminus hplus]
      exact ⟨n, hmagnitude, rfl⟩
    | @plus blanks digits n hblanks hmagnitude =>
      rw [dropWhile_blanks hblanks (fun x hx => by cases hx; decide)]
      exact ⟨n, hmagnitude, rfl⟩
    | @minus blanks digits n hblanks hmagnitude =>
      rw [dropWhile_blanks hblanks (fun x hx => by cases hx; decide)]
      exact ⟨n, hmagnitude, rfl⟩
  · intro ⟨n, hmagnitude, hv⟩
    have hblanks : ∀ c ∈ text.takeWhile isSpace, isSpace c = true := fun c hc =>
      List.mem_takeWhile_imp hc
    have htext : text.takeWhile isSpace ++ text.dropWhile isSpace = text :=
      List.takeWhile_append_dropWhile
    rcases sign_cases (text.dropWhile isSpace) with ⟨hrest, hsign⟩ | ⟨hrest, hsign⟩ | ⟨hrest, hsign⟩
    · have hnumeral := Numeral.minus hblanks hmagnitude
      rw [← hrest, htext] at hnumeral
      rwa [hv, if_pos hsign]
    · have hnumeral := Numeral.plus hblanks hmagnitude
      rw [← hrest, htext] at hnumeral
      rwa [hv, if_neg (by simp [hsign])]
    · have hnumeral := Numeral.plain hblanks hmagnitude
      rw [← hrest, htext] at hnumeral
      rwa [hv, if_neg (by simp [hsign])]

theorem Numeral.unique {w : ℤ} (hv : Numeral binary text v) (hw : Numeral binary text w) :
    v = w := by
  rw [numeral_iff] at hv hw
  simp only [magnitude_iff] at hv hw
  obtain ⟨n, ⟨_, hn⟩, hv⟩ := hv
  obtain ⟨m, ⟨_, hm⟩, hw⟩ := hw
  rw [hv, hw, hn, hm]

theorem numeral_ne_nil (h : Numeral binary text v) : text ≠ [] := by
  intro hnil
  rw [numeral_iff, hnil] at h
  obtain ⟨n, hmagnitude, _⟩ := h
  obtain ⟨c, rest, htext, _⟩ := magnitude_head hmagnitude
  exact absurd htext (List.cons_ne_nil c rest).symm

theorem limited_rest (negative : Bool) (rest : List Char) :
    (limited negative n rest).rest = rest := by
  unfold limited
  split_ifs <;> rfl

/-- The limits of a `long`, which are not symmetric. -/
theorem limited_iff (negative : Bool) (rest : List Char) :
    (limited negative n rest).errno = false ∧ (limited negative n rest).value = v ↔
      v = (if negative then -(n : ℤ) else n) ∧ longMin ≤ v ∧ v ≤ longMax := by
  unfold limited longMin longMax
  cases negative with
  | true =>
    by_cases hn : 2 ^ 63 < n
    · simp only [if_true, if_pos hn]
      constructor
      · intro h
        exact absurd h.1 (by decide)
      · intro ⟨hv, hmin, _⟩
        omega
    · simp only [if_true, if_neg hn]
      constructor
      · intro ⟨_, hv⟩
        omega
      · intro ⟨hv, _⟩
        exact ⟨trivial, hv.symm⟩
  | false =>
    by_cases hn : 2 ^ 63 - 1 < n
    · simp only [Bool.false_eq_true, if_false, if_pos hn]
      constructor
      · intro h
        exact absurd h.1 (by decide)
      · intro ⟨hv, _, hmax⟩
        omega
    · simp only [Bool.false_eq_true, if_false, if_neg hn]
      constructor
      · intro ⟨_, hv⟩
        omega
      · intro ⟨hv, _⟩
        exact ⟨trivial, hv.symm⟩

/-- The text is read to its end and the value fits when it is the numeral of a `long`, or empty. -/
theorem strtol_iff : (strtol lib text).rest = [] ∧ (strtol lib text).errno = false ∧
      (strtol lib text).value = v ↔
    (text = [] ∧ lib.noConversion = false ∧ v = 0) ∨
      (Numeral lib.binary text v ∧ longMin ≤ v ∧ v ≤ longMax) := by
  rw [numeral_iff]
  simp only [magnitude_iff]
  generalize hsigned : sign (text.dropWhile isSpace) = signed
  generalize hnumber : radix lib.binary signed.2 = number
  by_cases hdigits : number.2.takeWhile (isDigit number.1) = []
  · have hnone : strtol lib text = ⟨0, text, lib.noConversion⟩ := by
      unfold strtol
      simp only [hsigned, hnumber]
      exact if_pos hdigits
    rw [hnone]
    constructor
    · intro ⟨htext, herrno, hv⟩
      exact .inl ⟨htext, herrno, hv.symm⟩
    · intro h
      rcases h with ⟨htext, herrno, hv⟩ | ⟨⟨n, ⟨hall, _⟩, _⟩, _⟩
      · exact ⟨htext, herrno, hv.symm⟩
      · exact absurd (hall.takeWhile.1.symm.trans hdigits) hall.1
  · have hsome : strtol lib text = limited signed.1
        (value number.1 (number.2.takeWhile (isDigit number.1)))
        (number.2.dropWhile (isDigit number.1)) := by
      unfold strtol
      simp only [hsigned, hnumber]
      exact if_neg hdigits
    rw [hsome, limited_rest, limited_iff]
    constructor
    · intro ⟨hrest, hv, hlimits⟩
      have hall := digits_of_takeWhile hdigits hrest
      rw [hall.takeWhile.1] at hv
      exact .inr ⟨⟨_, ⟨hall, rfl⟩, hv⟩, hlimits⟩
    · intro h
      rcases h with ⟨htext, _⟩ | ⟨⟨n, ⟨hall, hn⟩, hv⟩, hlimits⟩
      · subst htext hsigned hnumber
        exact absurd rfl hdigits
      · rw [hall.takeWhile.1, hall.takeWhile.2, ← hn]
        exact ⟨rfl, hv, hlimits⟩

example : strtol ⟨true, false⟩ " -0x10".toList = ⟨-16, [], false⟩ := by decide

end

end CStrtol
