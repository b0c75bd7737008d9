import Overthinkin.AsciiText
import Mathlib.Data.List.DropRight
import Mathlib.Data.Nat.ModEq

/-! Text as the Rust standard library sees it: decoding that replaces what is no UTF-8, lines,
white space and hexadecimal numbers. A string is the list of its characters. -/
namespace RustText

open AsciiText

def replacement : Char := '\uFFFD'

/-- The ranges that the bytes after `first` must lie in; no range for a byte that starts
nothing. -/
def tails (first : UInt8) : Option (List (UInt8 × UInt8)) :=
  if first < 0x80 then some []
  else if first < 0xC2 then none
  else if first < 0xE0 then some [(0x80, 0xBF)]
  else if first = 0xE0 then some [(0xA0, 0xBF), (0x80, 0xBF)]
  else if first = 0xED then some [(0x80, 0x9F), (0x80, 0xBF)]
  else if first < 0xF0 then some [(0x80, 0xBF), (0x80, 0xBF)]
  else if first = 0xF0 then some [(0x90, 0xBF), (0x80, 0xBF), (0x80, 0xBF)]
  else if first < 0xF4 then some [(0x80, 0xBF), (0x80, 0xBF), (0x80, 0xBF)]
  else if first = 0xF4 then some [(0x80, 0x8F), (0x80, 0xBF), (0x80, 0xBF)]
  else none

/-- The bytes that lie in the ranges, up to the first that does not. -/
def matched : List (UInt8 × UInt8) → List UInt8 → List UInt8
  | range :: ranges, b :: bytes =>
    if range.1 ≤ b ∧ b ≤ range.2 then b :: matched ranges bytes else []
  | _, _ => []

/-- What the first byte of a sequence adds to the character. -/
def payload (first : UInt8) : ℕ :=
  if first < 0x80 then first.toNat
  else if first < 0xE0 then first.toNat % 32
  else if first < 0xF0 then first.toNat % 16
  else first.toNat % 8

def scalar (first : UInt8) (tail : List UInt8) : ℕ :=
  tail.foldl (fun n b => 64 * n + b.toNat % 64) (payload first)

/-- The character that a byte starts and the number of bytes after it that belong to it. A
sequence that breaks off is replaced as a whole. -/
def sequence (first : UInt8) (rest : List UInt8) : Char × ℕ :=
  match tails first with
  | none => (replacement, 0)
  | some ranges =>
    let tail := matched ranges rest
    if tail.length = ranges.length then (Char.ofNat (scalar first tail), tail.length)
    else (replacement, tail.length)

/-- `String::from_utf8_lossy`, after `skip` bytes of a sequence that has begun. -/
def lossyFrom : ℕ → List UInt8 → List Char
  | _, [] => []
  | skip + 1, _ :: rest => lossyFrom skip rest
  | 0, b :: rest => (sequence b rest).1 :: lossyFrom (sequence b rest).2 rest

def fromUtf8Lossy (bytes : List UInt8) : List Char := lossyFrom 0 bytes

def stripCr (line : List Char) : List Char :=
  if line.getLast? = some '\r' then line.dropLast else line

/-- `str::lines`: the ends of lines are removed, and what follows the last one is a line when it
is not empty. -/
def lines (text : List Char) : List (List Char) :=
  let parts := text.splitOnP (· == '\n')
  parts.dropLast.map stripCr ++ parts.getLast?.toList.filter (· ≠ [])

/-- `char::is_whitespace`. -/
def isWhitespace (c : Char) : Bool :=
  c == ' ' || ('\t' ≤ c && c ≤ '\r') || c == '\x85' || c == '\xA0' || c == '\u1680' ||
    ('\u2000' ≤ c && c ≤ '\u200A') || c == '\u2028' || c == '\u2029' || c == '\u202F' ||
    c == '\u205F' || c == '\u3000'

/-- `str::trim`. -/
def trim (text : List Char) : List Char :=
  (text.rdropWhile isWhitespace).dropWhile isWhitespace

/-- `str::split_whitespace`. -/
def words (text : List Char) : List (List Char) :=
  (text.splitOnP isWhitespace).filter (· ≠ [])

/-- `char::is_ascii_whitespace`: no vertical tab, unlike `isWhitespace`. -/
def isAsciiWhitespace (c : Char) : Bool :=
  c == ' ' || c == '\t' || c == '\n' || c == '\x0C' || c == '\r'

/-- `str::split_ascii_whitespace`. -/
def splitAsciiWhitespace (text : List Char) : List (List Char) :=
  (text.splitOnP isAsciiWhitespace).filter (· ≠ [])

/-- `str::eq_ignore_ascii_case`. -/
def eqIgnoreAsciiCase (a b : List Char) : Bool := a.map Char.toLower = b.map Char.toLower

/-- `str::split_once`. -/
def splitOnce (separator : Char) (text : List Char) : Option (List Char × List Char) :=
  match text.dropWhile (· ≠ separator) with
  | [] => none
  | _ :: after => some (text.takeWhile (· ≠ separator), after)

/-- `str::len`, in bytes. -/
def byteLength (text : List Char) : ℕ := (text.map Char.utf8Size).sum

def isHex (c : Char) : Bool :=
  ('0' ≤ c && c ≤ '9') || ('A' ≤ c && c ≤ 'F') || ('a' ≤ c && c ≤ 'f')

def hexValue (c : Char) : ℕ :=
  if c ≤ '9' then c.toNat - '0'.toNat
  else if c ≤ 'F' then c.toNat - 'A'.toNat + 10
  else c.toNat - 'a'.toNat + 10

def ofHex (digits : List Char) : ℕ := digits.foldl (fun n c => 16 * n + hexValue c) 0

/-- A sign that `from_str_radix` accepts on an unsigned number. -/
def unsigned : List Char → List Char
  | '+' :: digits => digits
  | digits => digits

/-- A text that `from_str_radix` reads, if its value is in range. -/
def HexNumeral (text : List Char) : Prop := unsigned text ≠ [] ∧ (unsigned text).all isHex = true

instance (text : List Char) : Decidable (HexNumeral text) := inferInstanceAs (Decidable (_ ∧ _))

/-- `from_str_radix` with radix 16, for an unsigned type of some bits. -/
def fromStrRadix16 (bits : ℕ) (text : List Char) : Option ℕ :=
  if HexNumeral text ∧ ofHex (unsigned text) < 2 ^ bits then some (ofHex (unsigned text)) else none

def upperDigit (n : ℕ) : Char := Char.ofNat (if n < 10 then '0'.toNat + n else 'A'.toNat + n - 10)

/-- `%0wX` of a number that fits into `w` digits. -/
def hexText : ℕ → ℕ → List Char
  | 0, _ => []
  | w + 1, n => hexText w (n / 16) ++ [upperDigit (n % 16)]

section
variable {first b : UInt8} {a c rest bytes : List UInt8} {ranges : List (UInt8 × UInt8)}

theorem matched_length_le (ranges : List (UInt8 × UInt8)) (bytes : List UInt8) :
    (matched ranges bytes).length ≤ bytes.length := by
  induction ranges generalizing bytes with
  | nil => exact Nat.zero_le _
  | cons range ranges ih =>
    cases bytes with
    | nil => exact Nat.le_refl 0
    | cons b bytes =>
      by_cases hb : range.1 ≤ b ∧ b ≤ range.2
      · rw [matched, if_pos hb]
        exact Nat.succ_le_succ (ih bytes)
      · rw [matched, if_neg hb]
        exact Nat.zero_le _

theorem matched_inside (ranges : List (UInt8 × UInt8)) (bytes : List UInt8)
    (h : (matched ranges bytes).length = ranges.length) :
    ranges.Forall₂ (fun range b => range.1 ≤ b ∧ b ≤ range.2) (matched ranges bytes) := by
  induction ranges generalizing bytes with
  | nil => exact .nil
  | cons range ranges ih =>
    cases bytes with
    | nil => cases h
    | cons b bytes =>
      by_cases hb : range.1 ≤ b ∧ b ≤ range.2
      · rw [matched, if_pos hb] at h ⊢
        exact .cons hb (ih bytes (Nat.succ.inj h))
      · rw [matched, if_neg hb] at h
        cases h

/-- A byte below every range ends a sequence as the end of the text does. -/
theorem matched_append (hb : ∀ range ∈ ranges, b < range.1) :
    matched ranges (a ++ b :: c) = matched ranges a := by
  induction ranges generalizing a with
  | nil => rfl
  | cons range ranges ih =>
    cases a with
    | nil =>
      rw [List.nil_append, matched, if_neg fun h => ?_]
      · rfl
      · exact absurd (hb range List.mem_cons_self) (UInt8.not_lt.mpr h.1)
    | cons x a =>
      rw [List.cons_append, matched, matched,
        ih fun range h => hb range (List.mem_cons_of_mem _ h)]

theorem tails_above (h : tails first = some ranges) : ∀ range ∈ ranges, 0x80 ≤ range.1 := by
  have hall : ∀ m ∈ List.range 256,
      ((tails (UInt8.ofNat m)).getD []).all (fun range => 0x80 ≤ range.1) = true := by
    decide +kernel
  have hfirst := hall first.toNat (List.mem_range.mpr first.toNat_lt)
  rw [UInt8.ofNat_toNat, h, Option.getD_some] at hfirst
  exact fun range hrange => of_decide_eq_true (List.all_eq_true.mp hfirst range hrange)

theorem sequence_append (hb : b < 0x80) : sequence first (a ++ b :: c) = sequence first a := by
  unfold sequence
  cases ht : tails first with
  | none => rfl
  | some ranges =>
    simp only [matched_append fun range h => UInt8.lt_of_lt_of_le hb (tails_above ht range h)]

theorem sequence_within (first : UInt8) (rest : List UInt8) :
    (sequence first rest).2 ≤ rest.length := by
  unfold sequence
  cases tails first with
  | none => exact Nat.zero_le _
  | some ranges =>
    simp only
    split_ifs <;> exact matched_length_le ranges rest

theorem sequence_ascii (hb : b < 0x80) (rest : List UInt8) :
    sequence b rest = (Char.ofNat b.toNat, 0) := by
  have ht : tails b = some [] := by rw [tails, if_pos hb]
  simp only [sequence, ht, matched, scalar, payload, if_pos hb, List.foldl_nil, if_true,
    List.length_nil]

theorem fromUtf8Lossy_cons (hb : b < 0x80) (rest : List UInt8) :
    fromUtf8Lossy (b :: rest) = Char.ofNat b.toNat :: fromUtf8Lossy rest := by
  rw [fromUtf8Lossy, lossyFrom, sequence_ascii hb, fromUtf8Lossy]

/-- An ASCII byte stands for itself, whatever is before it. -/
theorem fromUtf8Lossy_append (hb : b < 0x80) (a rest : List UInt8) :
    fromUtf8Lossy (a ++ b :: rest) =
      fromUtf8Lossy a ++ Char.ofNat b.toNat :: fromUtf8Lossy rest := by
  have hskip : ∀ skip, skip ≤ a.length → lossyFrom skip (a ++ b :: rest) =
      lossyFrom skip a ++ Char.ofNat b.toNat :: fromUtf8Lossy rest := by
    induction a with
    | nil =>
      intro skip hs
      obtain rfl := Nat.le_zero.mp hs
      exact fromUtf8Lossy_cons hb rest
    | cons x a ih =>
      intro skip hs
      cases skip with
      | zero =>
        rw [List.cons_append, lossyFrom, lossyFrom, sequence_append hb,
          ih _ (sequence_within x a), List.cons_append]
      | succ skip =>
        rw [List.cons_append, lossyFrom, lossyFrom, ih skip (Nat.le_of_succ_le_succ hs)]
  exact hskip 0 (Nat.zero_le _)

theorem fromUtf8Lossy_ascii {text : List Char} (h : ∀ c ∈ text, c.toNat < 0x80)
    (rest : List UInt8) :
    fromUtf8Lossy (encode text ++ rest) = text ++ fromUtf8Lossy rest := by
  induction text with
  | nil => rfl
  | cons c text ih =>
    obtain ⟨hc, htext⟩ := List.forall_mem_cons.mp h
    have hnat : (UInt8.ofNat c.toNat).toNat = c.toNat := by
      rw [UInt8.toNat_ofNat']
      exact Nat.mod_eq_of_lt (by omega)
    have hbyte : UInt8.ofNat c.toNat < 0x80 := by
      rw [UInt8.lt_iff_toNat_lt, hnat]
      exact hc
    rw [encode, List.map_cons, List.cons_append, fromUtf8Lossy_cons hbyte, hnat, Char.ofNat_toNat]
    exact congrArg (c :: ·) (ih htext)

/-- Bytes that are no ASCII never decode to ASCII. -/
theorem scalar_above (ht : tails first = some ranges) (hfirst : 0x80 ≤ first)
    {tail : List UInt8}
    (h : ranges.Forall₂ (fun range b => range.1 ≤ b ∧ b ≤ range.2) tail) :
    0x80 ≤ scalar first tail := by
  unfold tails at ht
  split_ifs at ht <;> cases ht
  case pos h0 => exact absurd h0 (UInt8.not_lt.mpr hfirst)
  all_goals
    repeat obtain _ | ⟨⟨hlow, hhigh⟩, h⟩ := h
    simp only [scalar, payload, List.foldl_cons, List.foldl_nil]
    simp only [UInt8.le_iff_toNat_le, UInt8.lt_iff_toNat_lt, ← UInt8.toNat_inj] at *
    grind

theorem toNat_ofNat {n : ℕ} (h : n.isValidChar) : (Char.ofNat n).toNat = n := by
  rw [Char.ofNat, dif_pos h]
  rfl

/-- A character below 0x80, other than NUL, comes from its own byte. -/
theorem sequence_byte {char : Char} (h : (sequence first rest).1 = char) (hzero : char ≠ '\x00')
    (hlow : char.toNat < 0x80) : first = UInt8.ofNat char.toNat := by
  by_cases hfirst : first < 0x80
  · rw [sequence_ascii hfirst] at h
    have hvalid : first.toNat.isValidChar := .inl (by have := first.toNat_lt; omega)
    have hnat : char.toNat = first.toNat := by
      rw [← h, toNat_ofNat hvalid]
    rw [hnat, UInt8.ofNat_toNat]
  · have hreplaced : replacement ≠ char := by
      intro he
      rw [← he] at hlow
      exact absurd hlow (by decide)
    unfold sequence at h
    cases ht : tails first with
    | none =>
      rw [ht] at h
      exact absurd h hreplaced
    | some ranges =>
      rw [ht] at h
      simp only at h
      split_ifs at h with hlength
      · have hscalar := scalar_above ht (UInt8.not_lt.mp hfirst)
          (matched_inside ranges rest hlength)
        by_cases hvalid : (scalar first (matched ranges rest)).isValidChar
        · rw [← h, toNat_ofNat hvalid] at hlow
          omega
        · rw [Char.ofNat, dif_neg hvalid] at h
          exact absurd h.symm hzero
      · exact absurd h hreplaced

theorem mem_of_mem_fromUtf8Lossy {char : Char} (hzero : char ≠ '\x00')
    (hlow : char.toNat < 0x80) (h : char ∈ fromUtf8Lossy bytes) :
    UInt8.ofNat char.toNat ∈ bytes := by
  have hskip : ∀ skip, char ∈ lossyFrom skip bytes → UInt8.ofNat char.toNat ∈ bytes := by
    clear h
    induction bytes with
    | nil => intro skip h; cases skip <;> cases h
    | cons x rest ih =>
      intro skip h
      cases skip with
      | zero =>
        rw [lossyFrom, List.mem_cons] at h
        rcases h with h | h
        · exact sequence_byte h.symm hzero hlow ▸ List.mem_cons_self
        · exact List.mem_cons_of_mem _ (ih _ h)
      | succ skip => exact List.mem_cons_of_mem _ (ih skip h)
  exact hskip 0 h

end

section
variable {text line rest word before after : List Char} {separator c : Char}

@[simp] theorem lines_nil : lines [] = [] := rfl

theorem lines_append (h : '\n' ∉ line) (rest : List Char) :
    lines (line ++ '\n' :: rest) = stripCr line :: lines rest := by
  have hline : ∀ c ∈ line, (c == '\n') = false := fun c hc =>
    beq_false_of_ne fun he => h (he ▸ hc)
  have hne : rest.splitOnP (· == '\n') ≠ [] := List.splitOnP_ne_nil _ _
  unfold lines
  rw [List.splitOnP_append_cons_of_forall_mem hline '\n' (by decide)]
  simp only [List.dropLast_cons_of_ne_nil hne, List.map_cons, List.cons_append,
    List.getLast?_cons_of_ne_nil hne]

/-- An empty first line. -/
@[simp] theorem lines_newline (text : List Char) : lines ('\n' :: text) = [] :: lines text :=
  lines_append List.not_mem_nil text

@[simp] theorem lines_crlf (text : List Char) :
    lines ('\r' :: '\n' :: text) = [] :: lines text := by
  have hcarriage : '\n' ∉ ['\r'] := by decide
  exact lines_append hcarriage text

theorem trim_stripCr (line : List Char) : trim (stripCr line) = trim line := by
  by_cases h : line.getLast? = some '\r'
  · obtain ⟨front, rfl⟩ := List.getLast?_eq_some_iff.mp h
    rw [stripCr, if_pos h, List.dropLast_concat, trim, trim,
      List.rdropWhile_concat_pos _ _ _ (by decide)]
  · rw [stripCr, if_neg h]

theorem words_append (hsep : isWhitespace separator = true) (before after : List Char) :
    words (before ++ separator :: after) = words before ++ words after := by
  rw [words, List.splitOnP_append_cons before after hsep, List.filter_append, words, words]

@[simp] theorem words_nil : words [] = [] := rfl

theorem words_space (hsep : isWhitespace separator = true) (text : List Char) :
    words (separator :: text) = words text := words_append hsep [] text

theorem words_spaces (h : ∀ c ∈ before, isWhitespace c = true) (text : List Char) :
    words (before ++ text) = words text := by
  induction before with
  | nil => rfl
  | cons c before ih =>
    obtain ⟨hc, hbefore⟩ := List.forall_mem_cons.mp h
    rw [List.cons_append, words_space hc, ih hbefore]

theorem words_trailing (h : ∀ c ∈ after, isWhitespace c = true) (text : List Char) :
    words (text ++ after) = words text := by
  cases after with
  | nil => rw [List.append_nil]
  | cons c after =>
    obtain ⟨hc, hafter⟩ := List.forall_mem_cons.mp h
    have hnone : words after = [] := by simpa using words_spaces hafter []
    rw [words_append hc, hnone, List.append_nil]

theorem words_word (h : ∀ c ∈ word, isWhitespace c = false) (hne : word ≠ []) :
    words word = [word] := by
  rw [words, List.splitOnP_eq_singleton h, List.filter_cons_of_pos (by simpa using hne),
    List.filter_nil]

@[simp] theorem splitAsciiWhitespace_nil : splitAsciiWhitespace [] = [] := rfl

/-- A text that does not start with white space starts its own first word. -/
theorem splitAsciiWhitespace_cons (hc : isAsciiWhitespace c = false) (text : List Char) :
    ∃ word rest, splitAsciiWhitespace (c :: text) = (c :: word) :: rest := by
  obtain ⟨first, more, hsplit⟩ := List.exists_cons_of_ne_nil
    (List.splitOnP_ne_nil isAsciiWhitespace text)
  refine ⟨first, more.filter (· ≠ []), ?_⟩
  rw [splitAsciiWhitespace, List.splitOnP_cons_eq_if_modifyHead, hc, hsplit]
  exact List.filter_cons_of_pos (by simp)

/-- Only white space is cut off. -/
theorem trim_cut (text : List Char) : ∃ before after, text = before ++ trim text ++ after ∧
    (∀ c ∈ before, isWhitespace c = true) ∧ ∀ c ∈ after, isWhitespace c = true := by
  refine ⟨(text.rdropWhile isWhitespace).takeWhile isWhitespace, text.rtakeWhile isWhitespace,
    ?_, fun c hc => List.mem_takeWhile_imp hc, fun c hc => List.mem_rtakeWhile_imp hc⟩
  rw [trim, List.takeWhile_append_dropWhile, List.rdropWhile_append_rtakeWhile]

@[simp] theorem words_trim (text : List Char) : words (trim text) = words text := by
  obtain ⟨before, after, heq, hbefore, hafter⟩ := trim_cut text
  conv_rhs => rw [heq]
  rw [words_trailing hafter, words_spaces hbefore]

/-- The first character that is no white space is the first one of what is left. -/
theorem trim_head (h : ∀ c ∈ before, isWhitespace c = true) (hc : isWhitespace c = false)
    (rest : List Char) : ∃ rest', trim (before ++ c :: rest) = c :: rest' := by
  refine ⟨rest.rdropWhile isWhitespace, ?_⟩
  have hright : (before ++ c :: rest).rdropWhile isWhitespace =
      before ++ c :: rest.rdropWhile isWhitespace := by
    simp only [List.rdropWhile, List.reverse_append, List.reverse_cons, List.append_assoc,
      List.singleton_append, List.dropWhile_append]
    split
    · rename_i hempty
      rw [List.isEmpty_iff.mp hempty, List.dropWhile_cons_of_neg (by simp [hc])]
      simp
    · simp
  rw [trim, hright, List.dropWhile_append_of_pos h, List.dropWhile_cons_of_neg (by simp [hc])]

@[simp] theorem splitOnce_self (separator : Char) (text : List Char) :
    splitOnce separator (separator :: text) = some ([], text) := by
  simp [splitOnce]

theorem splitOnce_cons (h : c ≠ separator) (text : List Char) :
    splitOnce separator (c :: text) =
      (splitOnce separator text).map fun parts => (c :: parts.1, parts.2) := by
  simp only [splitOnce, List.dropWhile_cons, List.takeWhile_cons, h, ne_eq, not_false_eq_true,
    decide_true, if_true]
  split <;> rfl

/-- The text is divided at its first separator. -/
theorem splitOnce_eq_some : splitOnce separator text = some (before, after) ↔
    text = before ++ separator :: after ∧ separator ∉ before := by
  induction text generalizing before with
  | nil => simp [splitOnce]
  | cons x text ih =>
    by_cases hx : x = separator
    · rw [hx, splitOnce_self]
      cases before with
      | nil => simp
      | cons y before =>
        constructor
        · intro h
          cases h
        · intro h
          obtain rfl : separator = y := (List.cons.inj h.1).1
          exact absurd List.mem_cons_self h.2
    · rw [splitOnce_cons hx]
      cases before with
      | nil =>
        constructor
        · intro h
          obtain ⟨parts, -, hparts⟩ := Option.map_eq_some_iff.mp h
          cases hparts
        · intro h
          exact absurd (List.cons.inj h.1).1 hx
      | cons y before =>
        have hparts : (splitOnce separator text).map (fun parts => (x :: parts.1, parts.2)) =
            some (y :: before, after) ↔
              x = y ∧ splitOnce separator text = some (before, after) := by
          cases splitOnce separator text with
          | none => simp
          | some parts => simp [Prod.ext_iff, and_assoc]
        rw [hparts, ih, List.cons_append, List.cons.injEq, List.mem_cons, not_or, and_assoc]
        exact ⟨fun ⟨he, ht, hb⟩ => ⟨he, ht, fun hs => hx (he.trans hs.symm), hb⟩,
          fun ⟨he, ht, _, hb⟩ => ⟨he, ht, hb⟩⟩

end

section
variable {digits text : List Char} {w n bits : ℕ}

theorem hexValue_lt {c : Char} (h : isHex c = true) : hexValue c < 16 := by
  simp only [isHex, Bool.or_eq_true, Bool.and_eq_true, decide_eq_true_eq, Char.le_def,
    UInt32.le_iff_toNat_le] at h
  simp only [hexValue, Char.le_def, UInt32.le_iff_toNat_le, Char.toNat]
  have h9 : '9'.val.toNat = 57 := rfl
  have h0 : '0'.val.toNat = 48 := rfl
  have hA : 'A'.val.toNat = 65 := rfl
  have hF : 'F'.val.toNat = 70 := rfl
  have ha : 'a'.val.toNat = 97 := rfl
  have hf : 'f'.val.toNat = 102 := rfl
  split_ifs <;> omega

theorem ofHex_append (digits : List Char) (c : Char) :
    ofHex (digits ++ [c]) = 16 * ofHex digits + hexValue c := by
  rw [ofHex, List.foldl_append, ofHex]
  rfl

theorem ofHex_lt (h : digits.all isHex = true) : ofHex digits < 16 ^ digits.length := by
  induction digits using List.reverseRecOn with
  | nil => decide
  | append_singleton digits c ih =>
    simp only [List.all_append, List.all_cons, List.all_nil, Bool.and_eq_true,
      Bool.and_true] at h
    have hdigits := ih h.1
    have hc := hexValue_lt h.2
    rw [ofHex_append, List.length_append, List.length_singleton, Nat.pow_succ]
    omega

theorem upperDigit_spec (h : n < 16) :
    isHex (upperDigit n) = true ∧ hexValue (upperDigit n) = n ∧ upperDigit n ≠ '+' ∧
      isWhitespace (upperDigit n) = false ∧ upperDigit n ≠ ':' ∧ (upperDigit n).toNat < 0x80 := by
  have hall : ∀ m ∈ List.range 16, isHex (upperDigit m) = true ∧ hexValue (upperDigit m) = m ∧
      upperDigit m ≠ '+' ∧ isWhitespace (upperDigit m) = false ∧ upperDigit m ≠ ':' ∧
      (upperDigit m).toNat < 0x80 := by decide +kernel
  exact hall n (List.mem_range.mpr h)

@[simp] theorem length_hexText (w n : ℕ) : (hexText w n).length = w := by
  induction w generalizing n with
  | zero => rfl
  | succ w ih => rw [hexText, List.length_append, ih, List.length_singleton]

theorem mem_hexText {c : Char} (h : c ∈ hexText w n) : ∃ m < 16, c = upperDigit m := by
  induction w generalizing n with
  | zero => cases h
  | succ w ih =>
    rw [hexText, List.mem_append, List.mem_singleton] at h
    rcases h with h | h
    · exact ih h
    · exact ⟨n % 16, Nat.mod_lt _ (by decide), h⟩

theorem ofHex_hexText (w n : ℕ) : ofHex (hexText w n) = n % 16 ^ w := by
  induction w generalizing n with
  | zero => rw [Nat.pow_zero, Nat.mod_one]; rfl
  | succ w ih =>
    rw [hexText, ofHex_append, ih, (upperDigit_spec (Nat.mod_lt n (by decide))).2.1,
      Nat.pow_succ', Nat.mod_mul]
    omega

theorem unsigned_hexText (w n : ℕ) : unsigned (hexText w n) = hexText w n := by
  unfold unsigned
  split
  · rename_i digits heq
    obtain ⟨m, hm, hplus⟩ := mem_hexText (w := w) (n := n) (c := '+') (by simp [heq])
    exact absurd hplus.symm (upperDigit_spec hm).2.2.1
  · rfl

/-- A number that was printed in hexadecimal is read again. -/
theorem fromStrRadix16_hexText (hw : 0 < w) (hn : n < 16 ^ w) (hbits : n < 2 ^ bits) :
    fromStrRadix16 bits (hexText w n) = some n := by
  have hvalue : ofHex (hexText w n) = n := by rw [ofHex_hexText, Nat.mod_eq_of_lt hn]
  have hnumeral : HexNumeral (hexText w n) := by
    rw [HexNumeral, unsigned_hexText]
    refine ⟨fun he => ?_, List.all_eq_true.mpr fun c hc => ?_⟩
    · have hlength := length_hexText w n
      rw [he] at hlength
      exact absurd hlength.symm (Nat.ne_of_gt hw)
    · obtain ⟨m, hm, rfl⟩ := mem_hexText hc
      exact (upperDigit_spec hm).1
  rw [fromStrRadix16, unsigned_hexText, hvalue, if_pos ⟨hnumeral, hbits⟩]

theorem byteLength_ascii (h : ∀ c ∈ text, c.toNat < 0x80) : byteLength text = text.length := by
  induction text with
  | nil => rfl
  | cons c text ih =>
    obtain ⟨hc, htext⟩ := List.forall_mem_cons.mp h
    have hsize : c.utf8Size = 1 := by
      have : c.val.toNat < 0x80 := hc
      simp only [Char.utf8Size, UInt32.le_iff_toNat_le]
      rw [if_pos]
      change c.val.toNat ≤ 127
      omega
    rw [byteLength, List.map_cons, List.sum_cons, hsize, List.length_cons, ← ih htext, byteLength]
    omega

theorem length_le_byteLength (text : List Char) : text.length ≤ byteLength text := by
  induction text with
  | nil => exact Nat.zero_le _
  | cons c text ih =>
    have hc := c.utf8Size_pos
    rw [byteLength, List.map_cons, List.sum_cons, List.length_cons]
    rw [byteLength] at ih
    omega

/-- A numeral of no more bytes than the type has hexadecimal digits is always in range. -/
theorem fromStrRadix16_short (h : byteLength text ≤ w) : (fromStrRadix16 (4 * w) text).isSome ↔
    HexNumeral text := by
  unfold fromStrRadix16
  constructor
  · intro hsome
    by_contra hno
    rw [if_neg fun hc => hno hc.1] at hsome
    cases hsome
  · intro hnumeral
    have hlength : (unsigned text).length ≤ w := by
      have hu : (unsigned text).length ≤ text.length := by
        unfold unsigned
        split <;> simp
      have := length_le_byteLength text
      omega
    have hvalue : ofHex (unsigned text) < 2 ^ (4 * w) :=
      calc ofHex (unsigned text) < 16 ^ (unsigned text).length := ofHex_lt hnumeral.2
        _ ≤ 16 ^ w := Nat.pow_le_pow_right (by decide) hlength
        _ = 2 ^ (4 * w) := by rw [Nat.pow_mul]
    rw [if_pos ⟨hnumeral, hvalue⟩]
    rfl

end

end RustText
