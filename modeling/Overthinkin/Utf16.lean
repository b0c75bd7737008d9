import Overthinkin.RustText

/-! Text as a sequence of UTF-16 code units that need not pair up: its code points, its UTF-8
encoding, and the JSON string literals that stand for it. -/
namespace Utf16

open RustText

def isHigh (u : UInt16) : Bool := 0xD800 ≤ u && u ≤ 0xDBFF

def isLow (u : UInt16) : Bool := 0xDC00 ≤ u && u ≤ 0xDFFF

/-- A code point of the text: a character, or a surrogate that is not half of a pair. -/
inductive CodePoint where
  | scalar (c : Char)
  | lone (u : UInt16)
  deriving DecidableEq

def single (u : UInt16) : CodePoint :=
  if isHigh u || isLow u then .lone u else .scalar (Char.ofNat u.toNat)

/-- The character of a surrogate pair. -/
def paired (high low : UInt16) : Char :=
  Char.ofNat (0x10000 + (high.toNat - 0xD800) * 0x400 + (low.toNat - 0xDC00))

def codePoints : List UInt16 → List CodePoint
  | [] => []
  | [u] => [single u]
  | u :: v :: rest =>
    if isHigh u && isLow v then .scalar (paired u v) :: codePoints rest
    else single u :: codePoints (v :: rest)

def CodePoint.units : CodePoint → List UInt16
  | .lone u => [u]
  | .scalar c =>
    if c.toNat < 0x10000 then [UInt16.ofNat c.toNat]
    else [UInt16.ofNat (0xD800 + (c.toNat - 0x10000) / 0x400),
      UInt16.ofNat (0xDC00 + (c.toNat - 0x10000) % 0x400)]

def CodePoint.isScalar : CodePoint → Bool
  | .scalar _ => true
  | .lone _ => false

/-- No surrogate is unpaired. -/
def WellFormed (text : List UInt16) : Prop := (codePoints text).all CodePoint.isScalar = true

instance (text : List UInt16) : Decidable (WellFormed text) := inferInstanceAs (Decidable (_ = _))

def CodePoint.char? : CodePoint → Option Char
  | .scalar c => some c
  | .lone _ => none

/-- The characters of a text in which every surrogate is paired. -/
def chars (text : List UInt16) : List Char := (codePoints text).filterMap CodePoint.char?

def CodePoint.utf8 : CodePoint → List UInt8
  | .scalar c => String.utf8EncodeChar c
  | .lone _ => [0xEF, 0xBF, 0xBD]

/-- `TextEncoder.encode`: an unpaired surrogate becomes U+FFFD. -/
def encode (text : List UInt16) : List UInt8 := (codePoints text).flatMap CodePoint.utf8

def lowerDigit (n : ℕ) : Char := Char.ofNat (if n < 10 then '0'.toNat + n else 'a'.toNat + n - 10)

/-- `\uXXXX` -/
def unicodeEscape (n : ℕ) : List Char :=
  ['\\', 'u', lowerDigit (n / 4096 % 16), lowerDigit (n / 256 % 16), lowerDigit (n / 16 % 16),
    lowerDigit (n % 16)]

def shortEscape : Char → Option Char
  | '\x08' => some 'b'
  | '\t' => some 't'
  | '\n' => some 'n'
  | '\x0c' => some 'f'
  | '\r' => some 'r'
  | '"' => some '"'
  | '\\' => some '\\'
  | _ => none

def CodePoint.escape : CodePoint → List Char
  | .lone u => unicodeEscape u.toNat
  | .scalar c =>
    match shortEscape c with
    | some e => ['\\', e]
    | none => if c.toNat < 0x20 then unicodeEscape c.toNat else [c]

/-- What `JSON.stringify` writes after the opening quote of a string. -/
def quoted (text : List UInt16) : List Char := (codePoints text).flatMap CodePoint.escape ++ ['"']

def shortUnescape : Char → Option Char
  | 'b' => some '\x08'
  | 't' => some '\t'
  | 'n' => some '\n'
  | 'f' => some '\x0c'
  | 'r' => some '\r'
  | '"' => some '"'
  | '\\' => some '\\'
  | '/' => some '/'
  | _ => none

/-- The grammar of JSON strings, after the opening quote: the code units that a literal stands
for, and what follows its closing quote. -/
def literal : List Char → Option (List UInt16 × List Char)
  | [] => none
  | c :: rest =>
    if c = '"' then some ([], rest)
    else if c = '\\' then
      match rest with
      | [] => none
      | 'u' :: d₃ :: d₂ :: d₁ :: d₀ :: rest =>
        if [d₃, d₂, d₁, d₀].all isHex then
          (literal rest).map fun r => (UInt16.ofNat (ofHex [d₃, d₂, d₁, d₀]) :: r.1, r.2)
        else none
      | e :: rest =>
        match shortUnescape e with
        | some c => (literal rest).map fun r => ((CodePoint.scalar c).units ++ r.1, r.2)
        | none => none
    else if c.toNat < 0x20 then none
    else (literal rest).map fun r => ((CodePoint.scalar c).units ++ r.1, r.2)

section
variable {u v : UInt16} {c : Char} {text : List UInt16} {rest : List Char}

theorem single_units (u : UInt16) : (single u).units = [u] := by
  unfold single
  split_ifs with h
  · rfl
  · have hvalid : u.toNat.isValidChar := by
      simp only [isHigh, isLow, Bool.or_eq_true, Bool.and_eq_true, decide_eq_true_eq,
        UInt16.le_iff_toNat_le] at h
      have hlt := u.toNat_lt
      change _ ∨ _
      have h1 : (0xD800 : UInt16).toNat = 0xD800 := rfl
      have h2 : (0xDBFF : UInt16).toNat = 0xDBFF := rfl
      have h3 : (0xDC00 : UInt16).toNat = 0xDC00 := rfl
      have h4 : (0xDFFF : UInt16).toNat = 0xDFFF := rfl
      omega
    have hlt := u.toNat_lt
    rw [CodePoint.units, toNat_ofNat hvalid, if_pos (by omega), UInt16.ofNat_toNat]

theorem paired_units (hu : isHigh u = true) (hv : isLow v = true) :
    (CodePoint.scalar (paired u v)).units = [u, v] := by
  simp only [isHigh, isLow, Bool.and_eq_true, decide_eq_true_eq, UInt16.le_iff_toNat_le] at hu hv
  have h1 : (0xD800 : UInt16).toNat = 0xD800 := rfl
  have h2 : (0xDBFF : UInt16).toNat = 0xDBFF := rfl
  have h3 : (0xDC00 : UInt16).toNat = 0xDC00 := rfl
  have h4 : (0xDFFF : UInt16).toNat = 0xDFFF := rfl
  have hvalid : (0x10000 + (u.toNat - 0xD800) * 0x400 + (v.toNat - 0xDC00)).isValidChar :=
    .inr (by omega)
  have hhigh : UInt16.ofNat (0xD800 + (0x10000 + (u.toNat - 0xD800) * 0x400 +
      (v.toNat - 0xDC00) - 0x10000) / 0x400) = u := by
    rw [← UInt16.toNat_inj, UInt16.toNat_ofNat']
    omega
  have hlow : UInt16.ofNat (0xDC00 + (0x10000 + (u.toNat - 0xD800) * 0x400 +
      (v.toNat - 0xDC00) - 0x10000) % 0x400) = v := by
    rw [← UInt16.toNat_inj, UInt16.toNat_ofNat']
    omega
  rw [CodePoint.units, paired, toNat_ofNat hvalid, if_neg (by omega), hhigh, hlow]

/-- No code unit is lost. -/
theorem units_codePoints (text : List UInt16) :
    (codePoints text).flatMap CodePoint.units = text := by
  fun_induction codePoints text with
  | case1 => rfl
  | case2 u => simp [single_units]
  | case3 u v rest h ih =>
    obtain ⟨hu, hv⟩ := Bool.and_eq_true_iff.mp h
    rw [List.flatMap_cons, paired_units hu hv, ih]
    rfl
  | case4 u v rest h ih => rw [List.flatMap_cons, single_units, ih, List.singleton_append]

theorem lowerDigit_spec {n : ℕ} (h : n < 16) :
    isHex (lowerDigit n) = true ∧ hexValue (lowerDigit n) = n ∧ (lowerDigit n).utf8Size = 1 := by
  have hall : ∀ m ∈ List.range 16, isHex (lowerDigit m) = true ∧ hexValue (lowerDigit m) = m ∧
      (lowerDigit m).utf8Size = 1 := by decide +kernel
  exact hall n (List.mem_range.mpr h)

theorem literal_unicodeEscape {n : ℕ} (h : n < 0x10000) (rest : List Char) :
    literal (unicodeEscape n ++ rest) =
      (literal rest).map fun r => (UInt16.ofNat n :: r.1, r.2) := by
  obtain ⟨h3, v3, -⟩ := lowerDigit_spec (n := n / 4096 % 16) (Nat.mod_lt _ (by decide))
  obtain ⟨h2, v2, -⟩ := lowerDigit_spec (n := n / 256 % 16) (Nat.mod_lt _ (by decide))
  obtain ⟨h1, v1, -⟩ := lowerDigit_spec (n := n / 16 % 16) (Nat.mod_lt _ (by decide))
  obtain ⟨h0, v0, -⟩ := lowerDigit_spec (n := n % 16) (Nat.mod_lt _ (by decide))
  have hvalue : 16 * (16 * (16 * (16 * 0 + n / 4096 % 16) + n / 256 % 16) + n / 16 % 16) +
      n % 16 = n := by omega
  simp only [unicodeEscape, List.cons_append, List.nil_append, literal, List.all_cons, h3, h2, h1,
    h0, List.all_nil, Bool.and_self, if_true, ofHex, List.foldl_cons, List.foldl_nil, v3, v2, v1,
    v0, hvalue]
  rfl

theorem shortEscape_spec {e : Char} (h : shortEscape c = some e) :
    shortUnescape e = some c ∧ e ≠ 'u' ∧ e.utf8Size = 1 := by
  unfold shortEscape at h
  split at h <;> cases h <;> decide

theorem literal_short {e : Char} (h : shortUnescape e = some c) (hu : e ≠ 'u')
    (rest : List Char) : literal ('\\' :: e :: rest) =
      (literal rest).map fun r => ((CodePoint.scalar c).units ++ r.1, r.2) := by
  rw [literal.eq_def]
  simp only [show ('\\' : Char) ≠ '"' by decide, if_false, if_true]
  split
  · rename_i heq
    cases heq
  · rename_i heq
    exact absurd (List.cons.inj heq).1 hu
  · rename_i heq
    obtain ⟨rfl, rfl⟩ := List.cons.inj heq
    rw [h]

/-- An escape stands for the code point that it was written for. -/
theorem literal_escape (p : CodePoint) (rest : List Char) :
    literal (p.escape ++ rest) = (literal rest).map fun r => (p.units ++ r.1, r.2) := by
  cases p with
  | lone u =>
    rw [CodePoint.escape, literal_unicodeEscape u.toNat_lt, UInt16.ofNat_toNat]
    rfl
  | scalar c =>
    cases hshort : shortEscape c with
    | some e =>
      obtain ⟨hback, hu, -⟩ := shortEscape_spec hshort
      simp only [CodePoint.escape, hshort, List.cons_append, List.nil_append]
      exact literal_short hback hu rest
    | none =>
      by_cases hcontrol : c.toNat < 0x20
      · have hunits : (CodePoint.scalar c).units = [UInt16.ofNat c.toNat] := by
          rw [CodePoint.units, if_pos (by omega)]
        simp only [CodePoint.escape, hshort, hcontrol, if_true]
        rw [literal_unicodeEscape (by omega), hunits]
        rfl
      · have hquote : c ≠ '"' := fun he => by rw [he] at hshort; cases hshort
        have hslash : c ≠ '\\' := fun he => by rw [he] at hshort; cases hshort
        simp only [CodePoint.escape, hshort, hcontrol, if_false, List.singleton_append]
        rw [literal.eq_def]
        simp only [hquote, hslash, hcontrol, if_false]

/-- The literal that is written for a text stands for that text, surrogates and all. -/
theorem literal_quoted (text : List UInt16) (rest : List Char) :
    literal (quoted text ++ rest) = some (text, rest) := by
  have hpoints : ∀ points : List CodePoint, literal (points.flatMap CodePoint.escape ++
      '"' :: rest) = some (points.flatMap CodePoint.units, rest) := by
    intro points
    induction points with
    | nil =>
      rw [List.flatMap_nil, List.flatMap_nil, List.nil_append, literal.eq_def]
      exact if_pos rfl
    | cons p points ih =>
      rw [List.flatMap_cons, List.append_assoc, literal_escape, ih]
      rfl
  have h := hpoints (codePoints text)
  rw [units_codePoints] at h
  simpa [quoted] using h

theorem byteLength_append (a b : List Char) :
    byteLength (a ++ b) = byteLength a + byteLength b := by
  rw [byteLength, List.map_append, List.sum_append, byteLength, byteLength]

/-- An escape takes at most six bytes for each byte of the encoded code point. -/
theorem byteLength_escape (p : CodePoint) : byteLength p.escape ≤ 6 * p.utf8.length := by
  have hunicode (n : ℕ) : byteLength (unicodeEscape n) = 6 := by
    have hdigit (m : ℕ) : (lowerDigit (m % 16)).utf8Size = 1 :=
      (lowerDigit_spec (Nat.mod_lt m (by decide))).2.2
    simp only [byteLength, unicodeEscape, List.map_cons, List.map_nil, hdigit, List.sum_cons,
      List.sum_nil]
    decide
  cases p with
  | lone u =>
    rw [CodePoint.escape, hunicode, CodePoint.utf8]
    decide
  | scalar c =>
    have hsize := c.utf8Size_pos
    rw [CodePoint.utf8, String.length_utf8EncodeChar]
    cases hshort : shortEscape c with
    | some e =>
      obtain ⟨-, -, he⟩ := shortEscape_spec hshort
      have hslash : ('\\' : Char).utf8Size = 1 := by decide
      simp only [CodePoint.escape, hshort, byteLength, List.map_cons, List.map_nil, List.sum_cons,
        List.sum_nil, he, hslash]
      omega
    | none =>
      by_cases hcontrol : c.toNat < 0x20
      · simp only [CodePoint.escape, hshort, hcontrol, if_true, hunicode]
        omega
      · simp only [CodePoint.escape, hshort, hcontrol, if_false, byteLength, List.map_cons,
          List.map_nil, List.sum_cons, List.sum_nil]
        omega

theorem byteLength_quoted (text : List UInt16) :
    byteLength (quoted text) ≤ 6 * (encode text).length + 1 := by
  have hpoints : ∀ points : List CodePoint, byteLength (points.flatMap CodePoint.escape) ≤
      6 * (points.flatMap CodePoint.utf8).length := by
    intro points
    induction points with
    | nil => exact Nat.le_refl 0
    | cons p points ih =>
      have hp := byteLength_escape p
      rw [List.flatMap_cons, List.flatMap_cons, byteLength_append, List.length_append]
      omega
  have hquote : byteLength ['"'] = 1 := by decide
  have h := hpoints (codePoints text)
  rw [quoted, byteLength_append, hquote, encode]
  omega

end

end Utf16
