import Overthinkin.GitpObject
import Overthinkin.GitpPktLine
import Overthinkin.RecordReader

/-! Both ends of the framing of `pktline.go`: what the writer puts into a buffer, and what a reader
takes out of it. -/
namespace GitpPktStream

open GoRuntime GoRuntime.Outcome GitpObject GitpPktLine RecordReader

def pktMaxLen : ℕ := 65535

/-- `%04x` of a number that four digits can hold. -/
def hex04 (n : ℕ) : GoString :=
  [hexDigit (n / 4096 % 16), hexDigit (n / 256 % 16), hexDigit (n / 16 % 16), hexDigit (n % 16)]

/-- The buffer after the call, and the error that it returns. -/
def pktWrite (dst data : List UInt8) : List UInt8 × Option String :=
  if data.length > pktMaxLen - 4 then (dst, some "pkt-line payload too large")
  else
    let total := data.length + 4
    if total > pktMaxLen then (dst, some "pkt-line too large")
    else (dst ++ hex04 total ++ data, none)

def pktFlush (dst : List UInt8) : List UInt8 := dst ++ ascii "0000"

/-- `if err != nil { return nil, err }`. -/
def checked : List UInt8 × Option String → Outcome (List UInt8)
  | (_, some e) => error e
  | (dst, none) => ok dst

def capabilities (want : OID) : List GoString :=
  let capabilities := ["multi_ack_detailed", "side-band-64k", "thin-pack", "no-progress",
    "include-tag", "ofs-delta", "deepen-since", "deepen-not", "agent=git-plain-clone"].map ascii
  if want.algo.name ≠ "sha1" then capabilities ++ [ascii ("object-format=" ++ want.algo.name)]
  else capabilities

def firstWant (want : OID) : GoString :=
  ascii "want " ++ want.hex ++ ascii " " ++ (ascii " ").intercalate (capabilities want) ++
    ascii "\n"

def buildUploadPackRequest (want : OID) : Outcome (List UInt8) := do
  let out ← checked (pktWrite [] (firstWant want))
  let out ← checked (pktWrite out (ascii "deepen 1\n"))
  let out := pktFlush out
  checked (pktWrite out (ascii "done\n"))

/-- One call of the writer. -/
def write (dst : List UInt8) : Packet → List UInt8 × Option String
  | .flush => (pktFlush dst, none)
  | .line data => pktWrite dst data

/-- The buffer after a sequence of calls, some of which may have been rejected. -/
def written (ps : List Packet) : List UInt8 := ps.foldl (fun dst p => (write dst p).1) []

/-- What a call of `pktRead` has returned. -/
def packet (line : List UInt8) (flush : Bool) : Packet := if flush then .flush else .line line

/-- `for pos < len(src)`, with a call of `pktRead` that must not fail. -/
def pktReader : Reader Packet where
  next src pos :=
    if pos < src.length then do
      let (line, flush, p) ← pktRead src pos
      ok (some (packet line flush, p))
    else ok none
  forward h := by
    split_ifs at h
    · obtain ⟨r, hread, hr⟩ := bind_eq_ok.mp h
      cases hr
      have hpos := pktRead_pos hread
      omega
    · cases h

/-! ### Lengths -/

theorem hexValue_hexDigit {n : ℕ} (h : n < 16) : hexValue (hexDigit n) = some n := by
  have hall : ∀ m ∈ List.range 16, hexValue (hexDigit m) = some m := by decide
  exact hall n (List.mem_range.mpr h)

theorem parseUintHex_hex04 {n : ℕ} (h : n ≤ pktMaxLen) : parseUintHex (hex04 n) = some n := by
  have hdigit : ∀ m, hexValue (hexDigit (m % 16)) = some (m % 16) :=
    fun m => hexValue_hexDigit (Nat.mod_lt m (by decide))
  simp only [parseUintHex, hex04, List.foldlM_cons, List.foldlM_nil, hdigit, Option.map_some,
    Option.bind_eq_bind, Option.bind_some, Option.pure_def, Option.some.injEq]
  rw [pktMaxLen] at h
  omega

/-! ### The writer -/

/-- A payload that a pkt-line has room for. -/
def Fits : Packet → Prop
  | .flush => True
  | .line data => data.length ≤ 65531

instance : DecidablePred Fits
  | .flush => isTrue trivial
  | .line data => inferInstanceAs (Decidable (data.length ≤ 65531))

/-- The bytes of one packet. -/
def frame : Packet → List UInt8
  | .flush => ascii "0000"
  | .line data => hex04 (data.length + 4) ++ data

variable {dst data src rest : List UInt8} {ps : List Packet} {p : Packet} {pos : ℕ}

theorem pktWrite_fits (h : data.length ≤ 65531) (dst : List UInt8) :
    pktWrite dst data = (dst ++ hex04 (data.length + 4) ++ data, none) := by
  rw [pktWrite, if_neg (by rw [pktMaxLen]; omega)]
  exact if_neg (by rw [pktMaxLen]; omega)

theorem pktWrite_too_large (h : 65531 < data.length) (dst : List UInt8) :
    pktWrite dst data = (dst, some "pkt-line payload too large") :=
  if_pos h

theorem write_eq (dst : List UInt8) (p : Packet) :
    (write dst p).1 = if Fits p then dst ++ frame p else dst := by
  cases p with
  | flush => rw [if_pos (show Fits .flush from trivial)]; rfl
  | line data =>
    by_cases h : Fits (.line data)
    · rw [if_pos h, write, pktWrite_fits h, frame, List.append_assoc]
    · rw [if_neg h, write, pktWrite_too_large (Nat.lt_of_not_le h)]

/-- Calls that are rejected leave no trace. -/
theorem written_eq (ps : List Packet) : written ps = (ps.filter Fits).flatMap frame := by
  induction ps using List.reverseRecOn with
  | nil => rfl
  | append_singleton ps p ih =>
    rw [written, List.foldl_append, List.filter_append, List.flatMap_append, ← ih, List.foldl_cons,
      List.foldl_nil, write_eq]
    by_cases h : Fits p
    · have hone : [p].filter (fun p => decide (Fits p)) = [p] := by simp [h]
      rw [if_pos h, hone, List.flatMap_singleton]
      rfl
    · have hnone : [p].filter (fun p => decide (Fits p)) = [] := by simp [h]
      rw [if_neg h, hnone, List.flatMap_nil, List.append_nil]
      rfl

/-! ### The reader -/

theorem pktReader_next {line : List UInt8} {flush : Bool} {p : ℕ}
    (h : pktRead src pos = ok (line, flush, p)) :
    pktReader.next src pos = ok (some (packet line flush, p)) := by
  have hpos := pktRead_pos h
  change (if pos < src.length then _ else _) = _
  rw [if_pos (by omega), h]
  rfl

theorem pktReader_accepts : pktReader.Accepts frame id Fits where
  record {src pos p rest} hp h := by
    cases p with
    | flush => exact pktReader_next (pktRead_flush h)
    | line data =>
      have hlen : data.length ≤ 65531 := hp
      have hhead := parseUintHex_hex04 (n := data.length + 4) (by rw [pktMaxLen]; omega)
      have hread := pktReader_next (pktRead_line h rfl hhead)
      rw [frame, List.length_append, Nat.add_comm (hex04 _).length]
      exact hread
  finish h := if_neg (Nat.not_lt.mpr h)

theorem pktReader_ne_panic (src : List UInt8) (pos : ℕ) : pktReader.next src pos ≠ panic := by
  intro h
  change (if pos < src.length then _ else _) = _ at h
  split_ifs at h
  rcases bind_eq_panic.mp h with h | ⟨r, -, h⟩
  · exact pktRead_ne_panic src pos h
  · cases h

theorem readFrom_written (ps : List Packet) :
    pktReader.readFrom (written ps) 0 = ok (ps.filter Fits) := by
  have hfits : ∀ p ∈ ps.filter (fun p => decide (Fits p)), Fits p := by simp
  have hdata : (written ps).drop 0 = (ps.filter fun p => decide (Fits p)).flatMap frame :=
    written_eq ps
  rw [pktReader_accepts.readFrom hfits hdata, List.map_id]

/-- A reader that comes to the end has taken every byte. -/
theorem chain_of_readFrom (h : pktReader.readFrom src 0 = ok ps) :
    pktReader.Chain src 0 ps src.length := by
  obtain ⟨stop, hchain, hstop⟩ := Reader.readFrom_chain h
  have hend : src.length ≤ stop := by
    by_contra hlt
    change (if stop < src.length then _ else _) = _ at hstop
    rw [if_pos (by omega)] at hstop
    obtain ⟨r, -, hr⟩ := bind_eq_ok.mp hstop
    cases hr
  rwa [Nat.le_antisymm (hchain.stop_le (Nat.zero_le _)) hend] at hchain

/-- No reader goes on for ever. -/
theorem pktRead_wellFounded (src : List UInt8) :
    WellFounded fun p pos => ∃ line flush, pktRead src pos = ok (line, flush, p) := by
  refine Subrelation.wf (fun {p pos} h => ?_) (pktReader.wellFounded src)
  obtain ⟨line, flush, hread⟩ := h
  exact ⟨_, pktReader_next hread⟩

theorem write_fits (h : Fits p) (dst : List UInt8) : (write dst p).2 = none := by
  cases p with
  | flush => rfl
  | line data => rw [write, pktWrite_fits h]

/-- Writer and reader agree on streams of packets, whatever the payloads look like, and no stream
of bytes keeps a reader busy for ever or leads it past the end. -/
theorem framing :
    (∀ ps : List Packet, (∀ p ∈ ps, Fits p) → (∀ p ∈ ps, ∀ dst, (write dst p).2 = none) ∧
      pktReader.readFrom (written ps) 0 = ok ps ∧
      pktReader.Chain (written ps) 0 ps (written ps).length) ∧
    (∀ dst data, 65531 < data.length →
      pktWrite dst data = (dst, some "pkt-line payload too large")) ∧
    (∀ src pos line flush p, pktRead src pos = ok (line, flush, p) →
      pos + 4 ≤ p ∧ p ≤ src.length) ∧
    ∀ src, WellFounded fun p pos => ∃ line flush, pktRead src pos = ok (line, flush, p) := by
  refine ⟨fun ps h => ?_, fun dst data h => pktWrite_too_large h dst,
    fun src pos line flush p => pktRead_pos, pktRead_wellFounded⟩
  have hall : ps.filter (fun p => decide (Fits p)) = ps :=
    List.filter_eq_self.mpr (by simpa using h)
  have hread := readFrom_written ps
  rw [hall] at hread
  exact ⟨fun p hp => write_fits (h p hp), hread, chain_of_readFrom hread⟩

/-- Payloads that look like headers. -/
example :
    pktReader.readFrom (written [.line (ascii "0000"), .line [], .flush, .line (ascii "0005")]) 0 =
      ok [.line (ascii "0000"), .line [], .flush, .line (ascii "0005")] :=
  readFrom_written _

/-! ### The request -/

/-- What the server is asked: the branch, one commit deep. -/
def request (want : OID) : List Packet :=
  [.line (firstWant want), .line (ascii "deepen 1\n"), .flush, .line (ascii "done\n")]

theorem buildUploadPackRequest_eq {want : OID} (h : (firstWant want).length ≤ 65531) :
    buildUploadPackRequest want = ok (written (request want)) := by
  have hdeepen : (ascii "deepen 1\n").length ≤ 65531 := by decide
  have hdone : (ascii "done\n").length ≤ 65531 := by decide
  simp only [buildUploadPackRequest, written, request, List.foldl_cons, List.foldl_nil, write,
    pktWrite_fits h, pktWrite_fits hdeepen, pktWrite_fits hdone, checked, ok_bind]

/-- A server that reads the request finds the packets in it. -/
theorem buildUploadPackRequest_read {want : OID} (h : (firstWant want).length ≤ 65531) :
    ∃ bytes, buildUploadPackRequest want = ok bytes ∧
      pktReader.readFrom bytes 0 = ok (request want) := by
  refine ⟨_, buildUploadPackRequest_eq h, ?_⟩
  have hfits : ∀ p ∈ request want, Fits p := by
    intro p hp
    simp only [request, List.mem_cons, List.not_mem_nil, or_false] at hp
    rcases hp with rfl | rfl | rfl | rfl
    · exact h
    · exact (by decide : (ascii "deepen 1\n").length ≤ 65531)
    · trivial
    · exact (by decide : (ascii "done\n").length ≤ 65531)
  rw [readFrom_written, List.filter_eq_self.mpr (by simpa using hfits)]

end GitpPktStream
