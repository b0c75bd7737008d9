import Mathlib.Data.List.Basic
import Mathlib.Data.Nat.Notation

/-! Text that is all ASCII, as bytes. -/
namespace AsciiText

/-- The bytes of characters that are all ASCII. -/
def encode (text : List Char) : List UInt8 := text.map fun c => UInt8.ofNat c.toNat

/-- The bytes of an ASCII literal of the source. -/
def ascii (s : String) : List UInt8 := encode s.toList

/-- Decimal digits, as `%d` prints a natural number. -/
def decimal (n : ℕ) : List UInt8 := encode (Nat.toDigits 10 n)

@[simp] theorem length_encode (text : List Char) : (encode text).length = text.length :=
  List.length_map _

@[simp] theorem encode_eq_nil {text : List Char} : encode text = [] ↔ text = [] :=
  List.map_eq_nil_iff

theorem toNat_isDigit {c : Char} (h : c.isDigit = true) : 48 ≤ c.toNat ∧ c.toNat ≤ 57 := by
  rw [Char.isDigit, Bool.and_eq_true, decide_eq_true_eq, decide_eq_true_eq] at h
  exact h

theorem ascii_of_isDigit {c : Char} (h : c.isDigit = true) : c.toNat < 0x80 :=
  Nat.lt_of_le_of_lt (toNat_isDigit h).2 (by decide)

theorem decimal_digits (n : ℕ) : ∀ b ∈ decimal n, 48 ≤ b.toNat := by
  intro b hb
  obtain ⟨c, hc, rfl⟩ := List.mem_map.mp hb
  have hdigit := toNat_isDigit (Nat.isDigit_of_mem_toDigits (by decide) (by decide) hc)
  rw [UInt8.toNat_ofNat']
  omega

/-- No other character has the same byte. -/
theorem notMem_encode {text : List Char} {a : Char} (ha : a.toNat < 0x80)
    (h : ∀ c ∈ text, c.toNat < 0x80 ∧ c ≠ a) : UInt8.ofNat a.toNat ∉ encode text := by
  intro hmem
  obtain ⟨c, hc, hbyte⟩ := List.mem_map.mp hmem
  obtain ⟨hlow, hne⟩ := h c hc
  have hmod := congrArg UInt8.toNat hbyte
  rw [UInt8.toNat_ofNat', UInt8.toNat_ofNat', Nat.mod_eq_of_lt (by omega),
    Nat.mod_eq_of_lt (by omega)] at hmod
  refine hne ?_
  rw [← Char.ofNat_toNat c, hmod, Char.ofNat_toNat]

end AsciiText
