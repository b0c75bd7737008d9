import Overthinkin.GoRuntime

/-! The pkt-line framing of `pktline.go`. -/
namespace GitpPktLine

open GoRuntime GoRuntime.Outcome

def hexValue (b : UInt8) : Option ℕ :=
  let n := b.toNat
  if 48 ≤ n ∧ n ≤ 57 then some (n - 48)
  else if 97 ≤ n ∧ n ≤ 102 then some (n - 87)
  else if 65 ≤ n ∧ n ≤ 70 then some (n - 55)
  else none

/-- `strconv.ParseUint(s, 16, 16)` of four bytes: only hexadecimal digits pass. -/
def parseUintHex (s : List UInt8) : Option ℕ :=
  s.foldlM (fun n b => (hexValue b).map fun d => n * 16 + d) 0

/-- Returns the line, whether it is a flush, and the new value of `*pos`. -/
def pktRead (src : List UInt8) (pos : ℕ) : Outcome (List UInt8 × Bool × ℕ) := do
  failIf (pos > src.length ∨ src.length - pos < 4) "truncated pkt-line"
  let head ← slice src pos (pos + 4)
  match parseUintHex head with
  | none => error "malformed pkt-line header"
  | some lineLen =>
    if lineLen ≤ 2 then ok ([], true, pos + 4)
    else do
      failIf (lineLen < 4 ∨ lineLen > src.length - pos) "invalid pkt-line length"
      let line ← slice src (pos + 4) (pos + lineLen)
      ok (line, false, pos + lineLen)

/-- A pkt-line takes at least its four digits, and ends inside the input. -/
theorem pktRead_pos {src line : List UInt8} {pos p : ℕ} {flush : Bool}
    (h : pktRead src pos = ok (line, flush, p)) : pos + 4 ≤ p ∧ p ≤ src.length := by
  simp only [pktRead, bind_eq_ok, failIf_eq_ok] at h
  obtain ⟨_, hlen, head, _, h⟩ := h
  split at h
  · cases h
  · split_ifs at h
    · simp only [ok.injEq, Prod.mk.injEq] at h
      omega
    · simp only [bind_eq_ok, failIf_eq_ok, ok.injEq, Prod.mk.injEq] at h
      omega

theorem pktRead_ne_panic (src : List UInt8) (pos : ℕ) : pktRead src pos ≠ panic := by
  intro h
  simp only [pktRead, bind_eq_panic, failIf_ne_panic, failIf_eq_ok, false_or, slice_eq_panic] at h
  obtain ⟨_, hlen, h | ⟨head, _, h⟩⟩ := h
  · omega
  · split at h
    · cases h
    · split_ifs at h
      simp only [bind_eq_panic, failIf_ne_panic, failIf_eq_ok, false_or, slice_eq_panic,
        reduceCtorEq, and_false, exists_false, or_false] at h
      omega

/-! ### Streams of packets -/

inductive Packet where
  | flush
  | line (data : List UInt8)
  deriving DecidableEq, Repr

/-- The bytes of a sequence of packets. The digits of a length are of either case. -/
inductive Framed : List Packet → List UInt8 → Prop where
  | nil : Framed [] []
  | flush {ps rest} : Framed ps rest → Framed (.flush :: ps) (ascii "0000" ++ rest)
  | line {ps head data rest} : head.length = 4 → parseUintHex head = some (data.length + 4) →
      Framed ps rest → Framed (.line data :: ps) (head ++ data ++ rest)

variable {src head data rest bytes bytes' : List UInt8} {ps qs : List Packet} {pos : ℕ}

theorem Framed.append (h : Framed ps bytes) (k : Framed qs bytes') :
    Framed (ps ++ qs) (bytes ++ bytes') := by
  induction h with
  | nil => exact k
  | flush _ ih =>
    rw [List.cons_append, List.append_assoc]
    exact ih.flush
  | line hlen hhead _ ih =>
    rw [List.cons_append, List.append_assoc]
    exact ih.line hlen hhead

theorem pktRead_flush (h : src.drop pos = ascii "0000" ++ rest) :
    pktRead src pos = ok ([], true, pos + 4) := by
  have hlen := congrArg List.length h
  rw [List.length_drop, List.length_append, show (ascii "0000").length = 4 from rfl] at hlen
  have htake : (src.drop pos).take (pos + 4 - pos) = ascii "0000" := by
    rw [Nat.add_sub_cancel_left, h]
    rfl
  rw [pktRead, failIf_of_not (by omega), ok_bind, slice_of_le (by omega) (by omega), ok_bind,
    htake, show parseUintHex (ascii "0000") = some 0 by decide]
  rfl

theorem pktRead_line (h : src.drop pos = head ++ data ++ rest) (hlen : head.length = 4)
    (hhead : parseUintHex head = some (data.length + 4)) :
    pktRead src pos = ok (data, false, pos + (data.length + 4)) := by
  have hsrc := congrArg List.length h
  rw [List.length_drop, List.length_append, List.length_append, hlen] at hsrc
  have htake : (src.drop pos).take (pos + 4 - pos) = head := by
    rw [Nat.add_sub_cancel_left, h, ← hlen, List.append_assoc, List.take_left]
  have hdata : (src.drop (pos + 4)).take (pos + (data.length + 4) - (pos + 4)) = data := by
    rw [List.append_assoc] at h
    have hsub : pos + (data.length + 4) - (pos + 4) = data.length := by omega
    rw [hsub, ← hlen, drop_past h, List.take_left]
  rw [pktRead, failIf_of_not (by omega), ok_bind, slice_of_le (by omega) (by omega), ok_bind,
    htake, hhead]
  dsimp only
  rw [if_neg (by omega), failIf_of_not (by omega), ok_bind, slice_of_le (by omega) (by omega),
    ok_bind, hdata]

end GitpPktLine
