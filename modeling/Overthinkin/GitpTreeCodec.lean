import Overthinkin.GitpTree
import Overthinkin.RecordReader

/-! The bytes of a tree object: what an entry looks like there, and that `nextTreeEntry` reads
these entries and nothing else. -/
namespace GitpTreeCodec

open GoRuntime GoRuntime.Outcome GitpObject GitpTree RecordReader

/-- An entry as it is written. -/
structure RawEntry (algo : HashAlgorithm) where
  digits : List UInt8
  name : GoString
  raw : List UInt8
  digits_length : 1 ≤ digits.length ∧ digits.length ≤ 6
  octal : ∀ c ∈ digits, 48 ≤ c ∧ c ≤ 55
  named : name ≠ []
  no_nul : 0 ∉ name
  raw_length : raw.length = algo.rawSize

/-- The number that octal digits stand for, behind those of `n`. -/
def octalFrom (n : ℕ) (digits : List UInt8) : ℕ :=
  digits.foldl (fun n c => 8 * n + (c.toNat - 48)) n

variable {algo : HashAlgorithm} {data : List UInt8} {pos : ℕ}

namespace RawEntry

/-- Digits, a space, the name, NUL, and the object identifier. -/
def bytes (e : RawEntry algo) : List UInt8 := e.digits ++ (32 :: (e.name ++ (0 :: e.raw)))

def entry (e : RawEntry algo) : TreeEntry :=
  ⟨e.name, UInt32.ofNat (octalFrom 0 e.digits), ⟨algo, encodeToString e.raw⟩⟩

end RawEntry

/-! ### Digits -/

theorem octal_or {a d : ℕ} (hd : d < 8) : (8 * a % 2 ^ 32) ||| d = (8 * a + d) % 2 ^ 32 := by
  have hsplit : 8 * a % 2 ^ 32 = 2 ^ 3 * (a % 2 ^ 29) := by omega
  rw [hsplit, ← Nat.two_pow_add_eq_or_of_lt (i := 3) (by omega)]
  omega

theorem modeDigit_octal {c : UInt8} (h : 48 ≤ c ∧ c ≤ 55) (n : ℕ) :
    modeDigit (UInt32.ofNat n) c = ok (UInt32.ofNat (8 * n + (c.toNat - 48))) := by
  have hlow : 48 ≤ c.toNat := UInt8.le_iff_toNat_le.mp h.1
  have hhigh : c.toNat ≤ 55 := UInt8.le_iff_toNat_le.mp h.2
  have hno : ¬ (c < 48 ∨ c > 55) :=
    not_or.mpr ⟨UInt8.not_lt.mpr h.1, UInt8.not_lt.mpr h.2⟩
  have hdigit : (c - 48).toUInt32.toNat = c.toNat - 48 := by
    rw [UInt8.toNat_toUInt32, UInt8.toNat_sub_of_le _ _ h.1]
    rfl
  have hshift : (UInt32.ofNat n <<< 3).toNat = 8 * (n % 2 ^ 32) % 2 ^ 32 := by
    rw [UInt32.toNat_shiftLeft, UInt32.toNat_ofNat', Nat.shiftLeft_eq, Nat.mul_comm]
    rfl
  rw [modeDigit, failIf_of_not hno, ok_bind]
  congr 1
  apply UInt32.toNat_inj.mp
  rw [UInt32.toNat_or, hdigit, hshift, octal_or (by omega), UInt32.toNat_ofNat']
  omega

theorem modeDigits_octal {digits : List UInt8} (h : ∀ c ∈ digits, 48 ≤ c ∧ c ≤ 55) (n : ℕ) :
    digits.foldlM modeDigit (UInt32.ofNat n) = ok (UInt32.ofNat (octalFrom n digits)) := by
  induction digits generalizing n with
  | nil => rfl
  | cons c digits ih =>
    obtain ⟨hc, hdigits⟩ := List.forall_mem_cons.mp h
    rw [List.foldlM_cons, modeDigit_octal hc, ok_bind, ih hdigits]
    rfl

theorem octal_of_modeDigits {digits : List UInt8} {m mode : UInt32}
    (h : digits.foldlM modeDigit m = ok mode) : ∀ c ∈ digits, 48 ≤ c ∧ c ≤ 55 := by
  induction digits generalizing m with
  | nil => simp
  | cons c digits ih =>
    rw [List.foldlM_cons, bind_eq_ok] at h
    obtain ⟨m', hc, hrest⟩ := h
    rw [modeDigit, bind_eq_ok] at hc
    obtain ⟨_, hrange, _⟩ := hc
    have hrange := not_or.mp (failIf_eq_ok.mp hrange)
    exact List.forall_mem_cons.mpr
      ⟨⟨UInt8.not_lt.mp hrange.1, UInt8.not_lt.mp hrange.2⟩, ih hrest⟩

/-! ### One entry -/

theorem indexByte_eq_some {c : UInt8} {i : ℕ} (h : indexByte data c = some i) :
    ∃ before after, data = before ++ c :: after ∧ before.length = i ∧ c ∉ before := by
  rw [indexByte, List.findIdx?_eq_some_iff_getElem] at h
  obtain ⟨hi, hc, hbefore⟩ := h
  refine ⟨data.take i, data.drop (i + 1), ?_, List.length_take_of_le (Nat.le_of_lt hi), ?_⟩
  · have hget : data[i] = c := of_decide_eq_true hc
    rw [← hget, ← List.drop_eq_getElem_cons hi, List.take_append_drop]
  · intro hmem
    obtain ⟨j, hj, hjc⟩ := List.mem_take_iff_getElem.mp hmem
    exact hbefore j (by omega) (decide_eq_true hjc)

theorem digits_no_space (e : RawEntry algo) : 32 ∉ e.digits :=
  fun h => absurd (e.octal 32 h).1 (by decide)

theorem bytes_length (e : RawEntry algo) :
    e.bytes.length = e.digits.length + (1 + (e.name.length + (1 + algo.rawSize))) := by
  simp only [RawEntry.bytes, List.length_append, List.length_cons, e.raw_length]
  omega

theorem fromBytes_eq_ok {raw : List UInt8} {oid : OID} : algo.fromBytes raw = ok oid ↔
    raw.length = algo.rawSize ∧ oid = ⟨algo, encodeToString raw⟩ := by
  rw [HashAlgorithm.fromBytes, bind_eq_ok]
  constructor
  · intro h
    obtain ⟨_, hlen, hoid⟩ := h
    cases hoid
    exact ⟨not_not.mp (failIf_eq_ok.mp hlen), rfl⟩
  · intro h
    obtain ⟨hlen, hoid⟩ := h
    exact ⟨(), failIf_eq_ok.mpr (not_not.mpr hlen), by rw [hoid]⟩

/-- The separators are where the search finds them first: no digit is a space, and no name has
a NUL. -/
theorem nextTreeEntry_bytes (e : RawEntry algo) {rest : List UInt8}
    (h : data.drop pos = e.bytes ++ rest) :
    nextTreeEntry data pos algo = ok (some (e.entry, pos + e.bytes.length)) := by
  have hlen := congrArg List.length h
  rw [List.length_drop, List.length_append, bytes_length] at hlen
  let space := e.digits.length + pos
  let nul := e.name.length + space + 1
  have hdigits : data.drop pos = e.digits ++ (32 :: (e.name ++ (0 :: (e.raw ++ rest)))) := by
    rw [h, RawEntry.bytes]
    simp only [List.append_assoc, List.cons_append]
  have hspace : data.drop (space + 1) = e.name ++ (0 :: (e.raw ++ rest)) := drop_past_cons hdigits
  have hnul : data.drop (nul + 1) = e.raw ++ rest := drop_past_cons hspace
  have hvalue : e.digits.foldlM modeDigit 0 = ok (UInt32.ofNat (octalFrom 0 e.digits)) :=
    modeDigits_octal e.octal 0
  have hmode : slice data pos space = ok e.digits := by
    have hslice := slice_front hdigits (by omega)
    rwa [Nat.add_comm pos] at hslice
  have hname : slice data (space + 1) nul = ok e.name := by
    have hslice := slice_front hspace (by omega)
    rwa [Nat.add_comm (space + 1)] at hslice
  have hraw : slice data (nul + 1) (nul + 1 + algo.rawSize) = ok e.raw := by
    rw [← e.raw_length]
    exact slice_front hnul (by omega)
  rw [nextTreeEntry, if_neg (by omega), slice_rest (by omega), ok_bind, hdigits,
    indexByte_append (digits_no_space e)]
  dsimp only
  have hdigits_length := e.digits_length
  rw [hmode, ok_bind, failIf_of_not (by omega), ok_bind, hvalue, ok_bind,
     slice_rest (by omega), ok_bind, hspace,
    indexByte_append e.no_nul]
  dsimp only
  rw [hname, ok_bind, failIf_of_not e.named, ok_bind, failIf_of_not (by omega), ok_bind, hraw,
    ok_bind, fromBytes_eq_ok.mpr ⟨e.raw_length, rfl⟩, ok_bind, bytes_length]
  have hend : nul + 1 + algo.rawSize =
      pos + (e.digits.length + (1 + (e.name.length + (1 + algo.rawSize)))) := by omega
  rw [hend]
  rfl

/-- Only the bytes of an entry are taken for an entry. -/
theorem nextTreeEntry_sound {entry : TreeEntry} {p : ℕ}
    (h : nextTreeEntry data pos algo = ok (some (entry, p))) :
    ∃ e : RawEntry algo, entry = e.entry ∧ p = pos + e.bytes.length ∧ p ≤ data.length ∧
      data.drop pos = e.bytes ++ data.drop p := by
  by_cases hpos : pos ≥ data.length
  · rw [nextTreeEntry, if_pos hpos] at h
    cases h
  rw [nextTreeEntry, if_neg hpos, slice_rest (by omega), ok_bind] at h
  split at h
  · cases h
  rename_i i hspace
  obtain ⟨digits, rest, hdigits, rfl, -⟩ := indexByte_eq_some hspace
  have hlen := congrArg List.length hdigits
  rw [List.length_drop, List.length_append, List.length_cons] at hlen
  have hmode := slice_front hdigits (by omega)
  rw [Nat.add_comm pos] at hmode
  simp only [hmode, ok_bind, bind_eq_ok, failIf_eq_ok] at h
  obtain ⟨_, hlength, mode, hvalue, name, hname, h⟩ := h
  have hoctal := octal_of_modeDigits hvalue
  have hrest := drop_past_cons hdigits
  rw [slice_rest (by omega), hrest] at hname
  cases hname
  split at h
  · cases h
  rename_i j hnul
  obtain ⟨name, rest, rfl, rfl, hno⟩ := indexByte_eq_some hnul
  rw [List.length_append, List.length_cons] at hlen
  have hname : slice data (digits.length + pos + 1) (name.length + (digits.length + pos) + 1) =
      ok name := by
    have hslice := slice_front hrest (by omega)
    rwa [Nat.add_comm (_ + 1)] at hslice
  simp only [hname, ok_bind, bind_eq_ok, failIf_eq_ok, slice_eq_ok, fromBytes_eq_ok] at h
  obtain ⟨_, hnamed, _, hend, raw, ⟨-, -, hraw⟩, oid, ⟨hraw_length, rfl⟩, h⟩ := h
  have hoid : data.drop (name.length + (digits.length + pos) + 1 + 1) = rest := drop_past_cons hrest
  rw [hoid, Nat.add_sub_cancel_left] at hraw
  let e : RawEntry algo :=
    ⟨digits, name, raw, by omega, hoctal, hnamed, hno, hraw_length⟩
  have hvalue' : mode = UInt32.ofNat (octalFrom 0 digits) := by
    have hoct := modeDigits_octal hoctal 0
    rw [show UInt32.ofNat 0 = 0 from rfl, hvalue] at hoct
    cases hoct
    rfl
  cases h
  have hafter : raw ++ data.drop (name.length + (digits.length + pos) + 1 + 1 + algo.rawSize) =
      rest := by
    rw [← List.drop_drop, hoid, hraw, List.take_append_drop]
  refine ⟨e, by rw [hvalue']; rfl, ?_, by omega, ?_⟩
  · rw [bytes_length]
    change _ = pos + (digits.length + (1 + (name.length + (1 + algo.rawSize))))
    omega
  · rw [hdigits, ← hafter]
    simp only [e, RawEntry.bytes, List.append_assoc, List.cons_append]

theorem modeDigits_ne_panic (digits : List UInt8) (mode : UInt32) :
    digits.foldlM modeDigit mode ≠ panic := by
  induction digits generalizing mode with
  | nil =>
    intro h
    cases h
  | cons c digits ih =>
    rw [List.foldlM_cons]
    intro h
    rcases bind_eq_panic.mp h with h | ⟨m, -, h⟩
    · simp [modeDigit, bind_eq_panic] at h
    · exact ih m h

theorem nextTreeEntry_ne_panic (data : List UInt8) (pos : ℕ) (algo : HashAlgorithm) :
    nextTreeEntry data pos algo ≠ panic := by
  intro h
  by_cases hpos : pos ≥ data.length
  · rw [nextTreeEntry, if_pos hpos] at h
    cases h
  rw [nextTreeEntry, if_neg hpos, slice_rest (by omega), ok_bind] at h
  split at h
  · cases h
  rename_i i hspace
  obtain ⟨digits, rest, hdigits, rfl, -⟩ := indexByte_eq_some hspace
  have hlen := congrArg List.length hdigits
  rw [List.length_drop, List.length_append, List.length_cons] at hlen
  have hmode := slice_front hdigits (by omega)
  rw [Nat.add_comm pos] at hmode
  have hrest : slice data (digits.length + pos + 1) data.length = ok rest := by
    rw [slice_rest (by omega), drop_past_cons hdigits]
  simp only [hmode, hrest, ok_bind, bind_eq_panic, failIf_ne_panic, modeDigits_ne_panic,
    false_or] at h
  obtain ⟨_, -, mode, -, h⟩ := h
  split at h
  · cases h
  rename_i j hnul
  obtain ⟨name, after, rfl, rfl, -⟩ := indexByte_eq_some hnul
  rw [List.length_append, List.length_cons] at hlen
  simp only [bind_eq_panic, failIf_ne_panic, failIf_eq_ok, slice_eq_panic, false_or,
    HashAlgorithm.fromBytes, reduceCtorEq, and_false, exists_false, or_false] at h
  rcases h with h | ⟨_, -, _, -, _, hend, h⟩
  · omega
  · omega

/-! ### A tree -/

theorem nextTreeEntry_end (h : data.length ≤ pos) : nextTreeEntry data pos algo = ok none :=
  if_pos h

theorem ended_of_none (h : nextTreeEntry data pos algo = ok none) : data.length ≤ pos := by
  by_contra hpos
  rw [nextTreeEntry, if_neg hpos, bind_eq_ok] at h
  obtain ⟨_, -, h⟩ := h
  split at h
  · cases h
  simp only [bind_eq_ok] at h
  obtain ⟨_, -, _, -, _, -, _, -, h⟩ := h
  split at h
  · cases h
  simp only [bind_eq_ok, ok.injEq, reduceCtorEq, and_false, exists_false] at h

variable (algo)

/-- The loops over a tree, as far as they read it. -/
def treeReader : Reader TreeEntry where
  next data pos := nextTreeEntry data pos algo
  forward h := by
    obtain ⟨e, -, rfl, hle, -⟩ := nextTreeEntry_sound h
    have hlen := bytes_length e
    omega

def encode (es : List (RawEntry algo)) : List UInt8 := es.flatMap RawEntry.bytes

theorem treeReader_accepts :
    (treeReader algo).Accepts (fun e : RawEntry algo => e.bytes) RawEntry.entry fun _ => True where
  record _ h := nextTreeEntry_bytes _ h
  finish h := nextTreeEntry_end h

theorem treeReader_rejects :
    (treeReader algo).Rejects (fun e : RawEntry algo => e.bytes) RawEntry.entry fun _ => True where
  record h := by
    obtain ⟨e, he, -, -, hdata⟩ := nextTreeEntry_sound h
    exact ⟨e, trivial, he, hdata⟩
  finish h := ended_of_none h

/-- Trees are read back entry by entry, whatever bytes names and identifiers have; whatever the
data, the loop ends without reading outside, and what it reads to the end is a tree. -/
theorem codec :
    (∀ es : List (RawEntry algo),
      (treeReader algo).readFrom (encode algo es) 0 = ok (es.map RawEntry.entry)) ∧
    (∀ data, WellFounded fun next pos => ∃ entry,
      nextTreeEntry data pos algo = ok (some (entry, next))) ∧
    (∀ data pos, nextTreeEntry data pos algo ≠ panic ∧
      (treeReader algo).readFrom data pos ≠ panic) ∧
    ∀ data entries, (treeReader algo).readFrom data 0 = ok entries →
      ∃ es : List (RawEntry algo), entries = es.map RawEntry.entry ∧ data = encode algo es := by
  refine ⟨fun es => ?_, fun data => (treeReader algo).wellFounded data, fun data pos => ?_,
    fun data entries h => ?_⟩
  · exact (treeReader_accepts algo).readFrom (fun _ _ => trivial) rfl
  · exact ⟨nextTreeEntry_ne_panic data pos algo,
      Reader.readFrom_ne_panic (fun pos => nextTreeEntry_ne_panic data pos algo) pos⟩
  · obtain ⟨es, -, hentries, hdata⟩ := (treeReader_rejects algo).readFrom h
    exact ⟨es, hentries, hdata⟩

end GitpTreeCodec
