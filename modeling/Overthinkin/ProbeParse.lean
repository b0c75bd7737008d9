import Mathlib.Data.Finset.Insert
import Overthinkin.RustText

/-! `parse_frame`: one dump of /proc/net/tcp becomes the set of ports that listen on the remote
loopback interface, or an error when nothing in the dump looks like the table. -/
namespace ProbeParse

open AsciiText RustText

/-- `u32::to_le_bytes`. -/
def toLeBytes (n : ℕ) : List ℕ := [n % 256, n / 256 % 256, n / 256 ^ 2 % 256, n / 256 ^ 3 % 256]

/-- `line.starts_with("sl")`. -/
def IsHeader (line : List Char) : Prop := "sl".toList <+: line

instance (line : List Char) : Decidable (IsHeader line) := inferInstanceAs (Decidable (_ <+: _))

/-- The columns of a socket: `none` for no such line, `some none` for a line that adds no
port. -/
def parseColumns (column state : List Char) : Option (Option UInt16) := do
  let (addrHex, portHex) ← splitOnce ':' column
  if byteLength addrHex ≠ 8 ∨ byteLength portHex ≠ 4 then none
  else
    let port ← fromStrRadix16 16 portHex
    if state ≠ "0A".toList then some none
    else
      let bytes := toLeBytes (← fromStrRadix16 32 addrHex)
      some (if bytes = [127, 0, 0, 1] ∨ bytes = [0, 0, 0, 0] then some (UInt16.ofNat port)
        else none)

def parseProcLine (line : List Char) : Option (Option UInt16) :=
  if IsHeader line then some none
  else
    match words line with
    | _ :: column :: _ :: state :: _ => parseColumns column state
    | _ => none

/-- The variables of the loop over the lines. -/
structure Seen where
  ports : Finset UInt16 := ∅
  sawContent : Bool := false
  recognized : Bool := false
  deriving DecidableEq

def Seen.visit (seen : Seen) (line : List Char) : Seen :=
  if line = [] then seen
  else
    match parseProcLine line with
    | some (some port) =>
      { ports := insert port seen.ports, sawContent := true, recognized := true }
    | some none => { seen with sawContent := true, recognized := true }
    | none => { seen with sawContent := true }

/-- The lines of a frame, trimmed. -/
def frameLines (frame : List UInt8) : List (List Char) := (lines (fromUtf8Lossy frame)).map trim

def parseFrame (frame : List UInt8) : Except String (Finset UInt16) :=
  let seen := (frameLines frame).foldl Seen.visit {}
  if seen.sawContent ∧ ¬ seen.recognized then
    .error "frame did not match /proc/net/tcp format"
  else .ok seen.ports

/-- An IPv4 address, its bytes in the order of the dotted notation. -/
structure Address where
  a : UInt8
  b : UInt8
  c : UInt8
  d : UInt8
  deriving DecidableEq

/-- The word that a little-endian machine sees in the bytes of an address. -/
def Address.word (x : Address) : ℕ :=
  x.a.toNat + 256 * x.b.toNat + 256 ^ 2 * x.c.toNat + 256 ^ 3 * x.d.toNat

def loopback : Address := ⟨127, 0, 0, 1⟩

def unspecified : Address := ⟨0, 0, 0, 0⟩

def listen : UInt8 := 0x0A

/-- A socket of the kernel's table. The columns after the state, with the padding of the line,
are any text of one line. -/
structure Socket where
  address : Address
  port : UInt16
  remote : Address
  remotePort : UInt16
  state : UInt8
  columns : List UInt8
  oneLine : 0x0A ∉ columns

/-- The width to which the kernel pads the lines of the table. -/
def tableWidth : ℕ := 149

def header : List Char :=
  ("  sl  local_address rem_address   st tx_queue rx_queue tr tm->when retrnsmt" ++
    "   uid  timeout inode").toList.rightpad tableWidth ' '

/-- `%08X:%04X` -/
def endpoint (address : Address) (port : UInt16) : List Char :=
  hexText 8 address.word ++ ':' :: hexText 4 port.toNat

/-- `%4d: ` and the columns up to the state. -/
def Socket.known (s : Socket) (slot : ℕ) : List Char :=
  (Nat.toDigits 10 slot).leftpad 4 ' ' ++ ':' :: ' ' :: endpoint s.address s.port ++
    ' ' :: endpoint s.remote s.remotePort ++ ' ' :: hexText 2 s.state.toNat ++ [' ']

def Socket.line (s : Socket) (slot : ℕ) : List UInt8 := encode (s.known slot) ++ s.columns

def rows : ℕ → List Socket → List UInt8
  | _, [] => []
  | slot, s :: sockets => s.line slot ++ 0x0A :: rows (slot + 1) sockets

/-- The table of the sockets as the kernel prints it. -/
def procNetTcp (sockets : List Socket) : List UInt8 := encode header ++ 0x0A :: rows 0 sockets

/-- The port is of interest: somebody listens there for connections from the remote machine
itself. -/
def Socket.Local (s : Socket) : Prop :=
  s.state = listen ∧ (s.address = loopback ∨ s.address = unspecified)

instance (s : Socket) : Decidable s.Local := inferInstanceAs (Decidable (_ ∧ _))

/-- A line with at least four columns, the second of which is eight and four bytes around its
first colon. The port is a hexadecimal number, and the address one if the state is `0A`. -/
def Readable (line : List Char) : Prop :=
  ∃ slot address port remote state columns,
    words line = slot :: (address ++ ':' :: port) :: remote :: state :: columns ∧
    ':' ∉ address ∧ byteLength address = 8 ∧ byteLength port = 4 ∧ HexNumeral port ∧
    (state = "0A".toList → HexNumeral address)

section
variable {line : List Char} {port : UInt16}

theorem parseProcLine_nil : parseProcLine [] = none := rfl

/-- What a line adds to what was seen before it. -/
theorem visit_spec (seen : Seen) (line : List Char) :
    (∀ p, p ∈ (seen.visit line).ports ↔
      p ∈ seen.ports ∨ parseProcLine line = some (some p)) ∧
    ((seen.visit line).sawContent ↔ seen.sawContent ∨ line ≠ []) ∧
    ((seen.visit line).recognized ↔ seen.recognized ∨ (parseProcLine line).isSome) := by
  by_cases hline : line = []
  · subst hline
    simp [Seen.visit, parseProcLine_nil]
  · rw [Seen.visit, if_neg hline]
    cases hparse : parseProcLine line with
    | none => simp [hline]
    | some result =>
      cases result with
      | none => simp [hline]
      | some port =>
        refine ⟨fun p => ?_, by simp [hline], by simp⟩
        rw [Finset.mem_insert, or_comm, Option.some.injEq, Option.some.injEq, eq_comm (a := p)]

theorem visits_spec (ls : List (List Char)) (seen : Seen) :
    (∀ p, p ∈ (ls.foldl Seen.visit seen).ports ↔
      p ∈ seen.ports ∨ ∃ line ∈ ls, parseProcLine line = some (some p)) ∧
    ((ls.foldl Seen.visit seen).sawContent ↔ seen.sawContent ∨ ∃ line ∈ ls, line ≠ []) ∧
    ((ls.foldl Seen.visit seen).recognized ↔
      seen.recognized ∨ ∃ line ∈ ls, (parseProcLine line).isSome) := by
  induction ls generalizing seen with
  | nil => simp
  | cons line ls ih =>
    obtain ⟨hports, hcontent, hrecognized⟩ := ih (seen.visit line)
    obtain ⟨hp, hc, hr⟩ := visit_spec seen line
    simp only [List.foldl_cons, hports, hcontent, hrecognized, hp, hc, hr, or_assoc,
      List.exists_mem_cons_iff, implies_true, and_self]

/-- The verdict on a frame, by its lines. -/
theorem parseFrame_error_iff (frame : List UInt8) : (∃ e, parseFrame frame = .error e) ↔
    (∃ line ∈ frameLines frame, line ≠ []) ∧
      ∀ line ∈ frameLines frame, parseProcLine line = none := by
  obtain ⟨-, hcontent, hrecognized⟩ := visits_spec (frameLines frame) {}
  have hnone : (¬ ∃ line ∈ frameLines frame, (parseProcLine line).isSome) ↔
      ∀ line ∈ frameLines frame, parseProcLine line = none := by
    simp
  simp only [Bool.false_eq_true, false_or] at hcontent hrecognized
  simp only [parseFrame, hcontent, hrecognized, hnone]
  by_cases h : (∃ line ∈ frameLines frame, line ≠ []) ∧
      ∀ line ∈ frameLines frame, parseProcLine line = none
  · exact ⟨fun _ => h, fun _ => ⟨_, if_pos h⟩⟩
  · refine ⟨fun ⟨e, he⟩ => ?_, fun hboth => absurd hboth h⟩
    rw [if_neg h] at he
    cases he

theorem parseFrame_ok (frame : List UInt8)
    (h : ∃ line ∈ frameLines frame, (parseProcLine line).isSome) :
    ∃ ports, parseFrame frame = .ok ports ∧
      ∀ p, p ∈ ports ↔ ∃ line ∈ frameLines frame, parseProcLine line = some (some p) := by
  obtain ⟨hports, -, hrecognized⟩ := visits_spec (frameLines frame) {}
  refine ⟨((frameLines frame).foldl Seen.visit {}).ports, ?_, fun p => ?_⟩
  · simp only [parseFrame]
    rw [if_neg fun hno => hno.2 (hrecognized.mpr (.inr h))]
  · rw [hports]
    simp

theorem parseColumns_isSome {address portHex state : List Char} (hcolon : ':' ∉ address) :
    (parseColumns (address ++ ':' :: portHex) state).isSome ↔
      byteLength address = 8 ∧ byteLength portHex = 4 ∧ HexNumeral portHex ∧
        (state = "0A".toList → HexNumeral address) := by
  have hsplit : splitOnce ':' (address ++ ':' :: portHex) = some (address, portHex) :=
    splitOnce_eq_some.mpr ⟨rfl, hcolon⟩
  unfold parseColumns
  rw [hsplit]
  by_cases hlengths : byteLength address ≠ 8 ∨ byteLength portHex ≠ 4
  · simp only [Option.bind_eq_bind, Option.bind_some, if_pos hlengths]
    constructor
    · intro h
      cases h
    · intro ⟨haddress, hport, _⟩
      exact absurd hlengths (by simp [haddress, hport])
  · obtain ⟨haddress, hport⟩ := not_or.mp hlengths
    have haddress := not_ne_iff.mp haddress
    have hport := not_ne_iff.mp hport
    have hread := fromStrRadix16_short (w := 8) haddress.le
    have hreadPort := fromStrRadix16_short (w := 4) hport.le
    simp only [Option.bind_eq_bind, Option.bind_some, haddress, hport, true_and, ← hread,
      ← hreadPort, ne_eq, not_true_eq_false, or_self, if_false]
    cases fromStrRadix16 (4 * 4) portHex with
    | none => simp
    | some port =>
      by_cases hstate : state = "0A".toList
      · simp only [hstate, not_true_eq_false, if_false, true_implies, Option.bind_some]
        cases fromStrRadix16 (4 * 8) address <;> simp
      · rw [Option.bind_some, if_pos hstate]
        exact ⟨fun _ => ⟨rfl, fun h => absurd h hstate⟩, fun _ => rfl⟩

theorem parseProcLine_isSome (line : List Char) :
    (parseProcLine line).isSome ↔ IsHeader line ∨ Readable line := by
  by_cases hheader : IsHeader line
  · simp [parseProcLine, hheader]
  · have hreadable : Readable line ↔ ∃ slot column remote state columns,
        words line = slot :: column :: remote :: state :: columns ∧
          (parseColumns column state).isSome := by
      constructor
      · intro ⟨slot, address, port, remote, state, columns, hwords, hcolon, hrest⟩
        exact ⟨slot, _, remote, state, columns, hwords, (parseColumns_isSome hcolon).mpr hrest⟩
      · intro ⟨slot, column, remote, state, columns, hwords, hsome⟩
        cases hsplit : splitOnce ':' column with
        | none =>
          simp [parseColumns, hsplit] at hsome
        | some parts =>
          obtain ⟨hcolumn, hcolon⟩ := splitOnce_eq_some.mp hsplit
          rw [hcolumn] at hwords hsome
          exact ⟨slot, parts.1, parts.2, remote, state, columns, hwords, hcolon,
            (parseColumns_isSome hcolon).mp hsome⟩
    rw [hreadable, parseProcLine, if_neg hheader]
    constructor
    · intro h
      split at h
      · rename_i slot column remote state columns heq
        exact .inr ⟨slot, column, remote, state, columns, heq, h⟩
      · cases h
    · intro h
      rcases h with h | ⟨slot, column, remote, state, columns, heq, hsome⟩
      · exact absurd h hheader
      · rw [heq]
        exact hsome

end

section
variable {s : Socket} {slot : ℕ}

theorem frameLines_cons {line : List UInt8} (h : 0x0A ∉ line) (rest : List UInt8) :
    frameLines (line ++ 0x0A :: rest) = trim (fromUtf8Lossy line) :: frameLines rest := by
  have hline : '\n' ∉ fromUtf8Lossy line := fun hmem =>
    h (mem_of_mem_fromUtf8Lossy (by decide) (by decide) hmem)
  have hbyte : Char.ofNat (UInt8.toNat 0x0A) = '\n' := by decide
  rw [frameLines, fromUtf8Lossy_append (by decide), hbyte, lines_append hline, List.map_cons,
    trim_stripCr, frameLines]

theorem Address.word_lt (x : Address) : x.word < 16 ^ 8 := by
  have ha := x.a.toNat_lt
  have hb := x.b.toNat_lt
  have hc := x.c.toNat_lt
  have hd := x.d.toNat_lt
  unfold word
  omega

/-- The bytes of the word are those of the address again. -/
theorem Address.toLeBytes_word (x : Address) :
    toLeBytes x.word = [x.a.toNat, x.b.toNat, x.c.toNat, x.d.toNat] := by
  have ha := x.a.toNat_lt
  have hb := x.b.toNat_lt
  have hc := x.c.toNat_lt
  have hd := x.d.toNat_lt
  simp only [toLeBytes, word, List.cons.injEq, and_true]
  omega

theorem Address.word_eq_iff (x y : Address) :
    toLeBytes x.word = [y.a.toNat, y.b.toNat, y.c.toNat, y.d.toNat] ↔ x = y := by
  rw [Address.toLeBytes_word]
  cases x
  cases y
  simp [UInt8.toNat_inj]

/-- What the parser makes of a socket. -/
def Socket.reading (s : Socket) : Option UInt16 := if s.Local then some s.port else none

theorem hexText_plain {w n : ℕ} : ∀ c ∈ hexText w n,
    isWhitespace c = false ∧ c ≠ ':' ∧ c.toNat < 0x80 := by
  intro c hc
  obtain ⟨m, hm, rfl⟩ := mem_hexText hc
  obtain ⟨-, -, -, hspace, hcolon, hascii⟩ := upperDigit_spec hm
  exact ⟨hspace, hcolon, hascii⟩

theorem parseColumns_endpoint (s : Socket) :
    parseColumns (endpoint s.address s.port) (hexText 2 s.state.toNat) = some s.reading := by
  have hsplit : splitOnce ':' (endpoint s.address s.port) =
      some (hexText 8 s.address.word, hexText 4 s.port.toNat) :=
    splitOnce_eq_some.mpr ⟨rfl, fun hc => (hexText_plain _ hc).2.1 rfl⟩
  have hlength {w n : ℕ} : byteLength (hexText w n) = w := by
    rw [byteLength_ascii fun c hc => (hexText_plain c hc).2.2, length_hexText]
  have hport : fromStrRadix16 16 (hexText 4 s.port.toNat) = some s.port.toNat :=
    fromStrRadix16_hexText (by decide) s.port.toNat_lt s.port.toNat_lt
  have haddress : fromStrRadix16 32 (hexText 8 s.address.word) = some s.address.word :=
    fromStrRadix16_hexText (by decide) s.address.word_lt s.address.word_lt
  have hstate : hexText 2 s.state.toNat = "0A".toList ↔ s.state = listen := by
    have hall : ∀ x : Fin 256, hexText 2 x.val = "0A".toList ↔ x.val = 10 := by decide +kernel
    rw [hall ⟨s.state.toNat, s.state.toNat_lt⟩, ← UInt8.toNat_inj]
    rfl
  have hloopback : toLeBytes s.address.word = [127, 0, 0, 1] ↔ s.address = loopback :=
    s.address.word_eq_iff loopback
  have hunspecified : toLeBytes s.address.word = [0, 0, 0, 0] ↔ s.address = unspecified :=
    s.address.word_eq_iff unspecified
  unfold parseColumns
  simp only [hsplit, Option.bind_eq_bind, Option.bind_some, hlength, hport, haddress, ne_eq,
    not_true_eq_false, or_self, if_false]
  by_cases hlisten : s.state = listen
  · rw [if_neg (not_not.mpr (hstate.mpr hlisten))]
    simp only [hloopback, hunspecified, UInt16.ofNat_toNat, Socket.reading, Socket.Local, hlisten,
      true_and]
  · rw [if_pos fun h => hlisten (hstate.mp h), Socket.reading, if_neg fun h => hlisten h.1]

theorem toDigits_plain {n : ℕ} : ∀ c ∈ Nat.toDigits 10 n,
    isWhitespace c = false ∧ c ≠ 's' ∧ c.toNat < 0x80 := by
  have hall : ∀ m < 0x80, (Char.ofNat m).isDigit = true →
      isWhitespace (Char.ofNat m) = false ∧ Char.ofNat m ≠ 's' ∧ (Char.ofNat m).toNat < 0x80 := by
    decide +kernel
  intro c hc
  have hdigit := Nat.isDigit_of_mem_toDigits (by decide) (by decide) hc
  have h := hall c.toNat (ascii_of_isDigit hdigit)
  rw [Char.ofNat_toNat] at h
  exact h hdigit

theorem words_known (s : Socket) (slot : ℕ) (columns : List Char) :
    words (s.known slot ++ columns) = (Nat.toDigits 10 slot ++ [':']) ::
      endpoint s.address s.port :: endpoint s.remote s.remotePort ::
      hexText 2 s.state.toNat :: words columns := by
  have hendpoint (x : Address) (p : UInt16) : words (endpoint x p) = [endpoint x p] := by
    refine words_word (fun c hc => ?_) (by simp [endpoint])
    rcases List.mem_append.mp hc with hc | hc
    · exact (hexText_plain c hc).1
    · rcases List.mem_cons.mp hc with rfl | hc
      · decide
      · exact (hexText_plain c hc).1
  have hslot : words (Nat.toDigits 10 slot ++ [':']) = [Nat.toDigits 10 slot ++ [':']] := by
    refine words_word (fun c hc => ?_) (by simp)
    rcases List.mem_append.mp hc with hc | hc
    · exact (toDigits_plain c hc).1
    · obtain rfl := List.mem_singleton.mp hc
      decide
  have hstate : words (hexText 2 s.state.toNat) = [hexText 2 s.state.toNat] := by
    refine words_word (fun c hc => (hexText_plain c hc).1) fun he => ?_
    have hlength := length_hexText 2 s.state.toNat
    rw [he] at hlength
    cases hlength
  have hparts : s.known slot ++ columns =
      List.replicate (4 - (Nat.toDigits 10 slot).length) ' ' ++
        ((Nat.toDigits 10 slot ++ [':']) ++ ' ' :: (endpoint s.address s.port ++
          ' ' :: (endpoint s.remote s.remotePort ++
            ' ' :: (hexText 2 s.state.toNat ++ ' ' :: columns)))) := by
    simp [Socket.known, List.leftpad]
  have hblank : isWhitespace ' ' = true := by decide
  rw [hparts, words_spaces fun c hc => (List.eq_of_mem_replicate hc).symm ▸ hblank]
  simp only [words_append hblank, hslot, hendpoint, hstate, List.cons_append, List.nil_append]

/-- The line of a socket is no header, and its columns are those that were printed. -/
theorem parseProcLine_known (s : Socket) (slot : ℕ) (columns : List Char) :
    parseProcLine (trim (s.known slot ++ columns)) = some s.reading := by
  have hheader : ¬ IsHeader (trim (s.known slot ++ columns)) := by
    obtain ⟨d, digits, hd⟩ := List.exists_cons_of_ne_nil (Nat.toDigits_ne_nil (n := slot) (b := 10))
    obtain ⟨hspace, hs, -⟩ := toDigits_plain d (by rw [hd]; exact List.mem_cons_self)
    obtain ⟨tail, htail⟩ : ∃ tail, s.known slot ++ columns =
        List.replicate (4 - (Nat.toDigits 10 slot).length) ' ' ++ d :: tail := by
      simp [Socket.known, List.leftpad, hd]
    have hblank : isWhitespace ' ' = true := by decide
    have hpad : ∀ c ∈ List.replicate (4 - (Nat.toDigits 10 slot).length) ' ',
        isWhitespace c = true := fun c hc => (List.eq_of_mem_replicate hc).symm ▸ hblank
    obtain ⟨rest, hrest⟩ := trim_head hpad hspace tail
    rw [htail, hrest]
    exact fun h => hs (List.cons_prefix_cons.mp h).1.symm
  rw [parseProcLine, if_neg hheader, words_trim, words_known]
  exact parseColumns_endpoint s

theorem known_plain (s : Socket) (slot : ℕ) :
    ∀ c ∈ s.known slot, c.toNat < 0x80 ∧ c ≠ '\n' := by
  have hplain : ∀ c : Char, isWhitespace c = false ∧ c.toNat < 0x80 → c.toNat < 0x80 ∧ c ≠ '\n' :=
    fun c hc => ⟨hc.2, fun he => absurd hc.1 (by rw [he]; decide)⟩
  have hhex {w n : ℕ} (c : Char) (hc : c ∈ hexText w n) : c.toNat < 0x80 ∧ c ≠ '\n' :=
    hplain c ⟨(hexText_plain c hc).1, (hexText_plain c hc).2.2⟩
  have hdigit (c : Char) (hc : c ∈ Nat.toDigits 10 slot) : c.toNat < 0x80 ∧ c ≠ '\n' :=
    hplain c ⟨(toDigits_plain c hc).1, (toDigits_plain c hc).2.2⟩
  have hspace (c : Char) (hc : c = ' ') : c.toNat < 0x80 ∧ c ≠ '\n' := by rw [hc]; decide
  have hcolon (c : Char) (hc : c = ':') : c.toNat < 0x80 ∧ c ≠ '\n' := by rw [hc]; decide
  intro c hc
  simp only [Socket.known, endpoint, List.leftpad, List.mem_append, List.mem_cons,
    List.mem_replicate, List.not_mem_nil, or_false] at hc
  grind

theorem fromUtf8Lossy_line (s : Socket) (slot : ℕ) :
    fromUtf8Lossy (s.line slot) = s.known slot ++ fromUtf8Lossy s.columns :=
  fromUtf8Lossy_ascii (fun c hc => (known_plain s slot c hc).1) s.columns

theorem newline_notMem_line (s : Socket) (slot : ℕ) : 0x0A ∉ s.line slot := by
  intro hmem
  rcases List.mem_append.mp hmem with hmem | hmem
  · exact notMem_encode (a := '\n') (by decide) (known_plain s slot) hmem
  · exact s.oneLine hmem

theorem frameLines_rows (sockets : List Socket) (slot : ℕ) :
    (frameLines (rows slot sockets)).map parseProcLine = sockets.map fun s => some s.reading := by
  induction sockets generalizing slot with
  | nil => rfl
  | cons s sockets ih =>
    rw [rows, frameLines_cons (newline_notMem_line s slot), List.map_cons, ih, List.map_cons,
      fromUtf8Lossy_line, parseProcLine_known]

theorem header_plain : (∀ c ∈ header, c.toNat < 0x80 ∧ c ≠ '\n') ∧ IsHeader (trim header) := by
  have hplain : header.all (fun c => c.toNat < 0x80 ∧ c ≠ '\n') = true := by decide +kernel
  exact ⟨fun c hc => of_decide_eq_true (List.all_eq_true.mp hplain c hc), by decide +kernel⟩

/-- The lines of a table mean the header and the sockets, in order. -/
theorem frameLines_table (sockets : List Socket) :
    (frameLines (procNetTcp sockets)).map parseProcLine =
      some none :: sockets.map fun s => some s.reading := by
  have hheader : fromUtf8Lossy (encode header) = header := by
    simpa [fromUtf8Lossy, lossyFrom] using
      fromUtf8Lossy_ascii (fun c hc => (header_plain.1 c hc).1) []
  have hnewline : 0x0A ∉ encode header := notMem_encode (a := '\n') (by decide) header_plain.1
  rw [procNetTcp, frameLines_cons hnewline, List.map_cons, frameLines_rows, hheader, parseProcLine,
    if_pos header_plain.2]

end

/-- A table that the kernel prints is understood, and only the listeners on the loopback
interface are taken from it. Any other frame is refused just when it has content, but no line is
a header or readable. -/
theorem parseFrame_exact :
    (∀ sockets, ∃ ports, parseFrame (procNetTcp sockets) = .ok ports ∧
      ∀ p, p ∈ ports ↔ ∃ s ∈ sockets, s.state = listen ∧
        (s.address = loopback ∨ s.address = unspecified) ∧ s.port = p) ∧
    ∀ frame, (∃ e, parseFrame frame = .error e) ↔
      (∃ line ∈ frameLines frame, line ≠ []) ∧
        ∀ line ∈ frameLines frame, ¬ IsHeader line ∧ ¬ Readable line := by
  constructor
  · intro sockets
    have hlines := frameLines_table sockets
    have hmem : ∀ r, (∃ line ∈ frameLines (procNetTcp sockets), parseProcLine line = r) ↔
        r = some none ∨ ∃ s ∈ sockets, some s.reading = r := by
      intro r
      rw [← List.mem_map, hlines, List.mem_cons, List.mem_map]
    obtain ⟨_, hline, hheader⟩ := (hmem (some none)).mpr (.inl rfl)
    obtain ⟨ports, hok, hports⟩ := parseFrame_ok _ ⟨_, hline, by rw [hheader]; rfl⟩
    refine ⟨ports, hok, fun p => ?_⟩
    rw [hports, hmem]
    constructor
    · intro h
      rcases h with h | ⟨s, hs, hreading⟩
      · cases h
      · by_cases hlocal : s.Local
        · rw [Socket.reading, if_pos hlocal] at hreading
          cases hreading
          exact ⟨s, hs, hlocal.1, hlocal.2, rfl⟩
        · rw [Socket.reading, if_neg hlocal] at hreading
          cases hreading
    · intro h
      obtain ⟨s, hs, hlisten, haddress, rfl⟩ := h
      exact .inr ⟨s, hs, by rw [Socket.reading, if_pos ⟨hlisten, haddress⟩]⟩
  · intro frame
    rw [parseFrame_error_iff]
    refine and_congr_right fun _ => forall₂_congr fun line _ => ?_
    rw [← not_or, ← parseProcLine_isSome, Option.not_isSome_iff_eq_none]

/-- A second column of eight and four hexadecimal digits around a colon. -/
def hasEndpoint (line : List Char) : Bool :=
  match words line with
  | _ :: column :: _ =>
    match splitOnce ':' column with
    | some (address, port) => address.length = 8 ∧ port.length = 4 ∧ address.all isHex ∧
      port.all isHex
    | none => false
  | _ => false

/-- There is content, but no line is a header or has a well-formed endpoint. -/
def unlike (frame : List UInt8) : Bool :=
  (frameLines frame).any (· ≠ []) && (frameLines frame).all fun line =>
    ¬ IsHeader line && !hasEndpoint line

/-- A row whose address is no number is taken for a socket when it does not listen, and one that
breaks off after the third column is not taken for one, whatever its second column. -/
theorem endpoint_read_late :
    ¬ ((∃ e, parseFrame (ascii "0: ZZZZZZZZ:0BB8 0 01") = .error e) ↔
      unlike (ascii "0: ZZZZZZZZ:0BB8 0 01")) ∧
    ¬ ((∃ e, parseFrame (ascii "0: 0100007F:0BB8 0") = .error e) ↔
      unlike (ascii "0: 0100007F:0BB8 0")) := by
  have hlate : parseFrame (ascii "0: ZZZZZZZZ:0BB8 0 01") = .ok ∅ := by decide +kernel
  have hshort : parseFrame (ascii "0: 0100007F:0BB8 0") =
      .error "frame did not match /proc/net/tcp format" := by decide +kernel
  have hunlike : unlike (ascii "0: ZZZZZZZZ:0BB8 0 01") = true ∧
      unlike (ascii "0: 0100007F:0BB8 0") = false := by decide +kernel
  rw [hlate, hshort, hunlike.1, hunlike.2]
  simp

end ProbeParse
