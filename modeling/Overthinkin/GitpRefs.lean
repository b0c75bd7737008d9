import Overthinkin.GitpReceive
import Overthinkin.GitpTree

/-! The reference advertisement: `selectAdvertisedRef` of `protocol.go`, with the hash algorithms
of `oid.go` that it chooses between. -/
namespace GitpRefs

open GoRuntime GoRuntime.Outcome GitpObject GitpPktLine GitpTree GitpReceive

/-- What `sha1.New` and `sha256.New` compute. -/
structure Digests where
  sha1 : List UInt8 → List UInt8
  sha256 : List UInt8 → List UInt8

def SHA1 (digests : Digests) : HashAlgorithm := ⟨"sha1", 20, 40, digests.sha1⟩
def SHA256 (digests : Digests) : HashAlgorithm := ⟨"sha256", 32, 64, digests.sha256⟩

def Known (digests : Digests) (algo : HashAlgorithm) : Prop :=
  algo = SHA1 digests ∨ algo = SHA256 digests

def parseHashAlgorithm (digests : Digests) (fmt : Fmt) (name : GoString) :
    Outcome HashAlgorithm :=
  if name = ascii (SHA1 digests).name then ok (SHA1 digests)
  else if name = ascii (SHA256 digests).name then ok (SHA256 digests)
  else error ("unsupported object format: " ++ fmt.operand name)

def hashAlgorithmFromHexSize (digests : Digests) (hexSize : ℕ) : Outcome HashAlgorithm :=
  if hexSize = (SHA1 digests).hexSize then ok (SHA1 digests)
  else if hexSize = (SHA256 digests).hexSize then ok (SHA256 digests)
  else error ("unsupported object ID length: " ++ toString hexSize)

/-- `hex.DecodeString`, with `none` for its errors. -/
def decodeString : GoString → Option (List UInt8)
  | [] => some []
  | [_] => none
  | a :: b :: rest => do
    let high ← hexValue a
    let low ← hexValue b
    let raw ← decodeString rest
    some (UInt8.ofNat (high * 16 + low) :: raw)

/-- `strings.ToLower` of an ASCII string. -/
def toLower (s : GoString) : GoString :=
  s.map fun b => if 65 ≤ b ∧ b ≤ 90 then b + 32 else b

def parseHex (algo : HashAlgorithm) (s : GoString) : Outcome OID := do
  failIf (s.length ≠ algo.hexSize) ("invalid " ++ algo.name ++ " hex length")
  failIf (decodeString s = none) ("invalid " ++ algo.name ++ " hex character")
  ok ⟨algo, toLower s⟩

/-- `strings.Fields`, behind the word that has been read so far. -/
def fields (word s : GoString) : List GoString :=
  match s with
  | [] => if word = [] then [] else [word]
  | b :: rest =>
    match spaces.find? fun w => w.isPrefixOf (b :: rest) with
    | none => fields (word ++ [b]) rest
    | some w => (if word = [] then [] else [word]) ++ fields [] (rest.drop (w.length - 1))
termination_by s.length
decreasing_by
  all_goals
    simp only [List.length_drop, List.length_cons]
    omega

def parseCapabilities (raw : GoString) : List GoString :=
  let raw := trimSpace raw
  if raw = [] then [] else fields [] raw

def objectFormat : GoString := ascii "object-format="

/-- One capability of the loop: the first format counts, but all of them must be known. -/
def advertiseFormat (digests : Digests) (fmt : Fmt) (advertised : Option HashAlgorithm)
    (cap : GoString) : Outcome (Option HashAlgorithm) :=
  if ¬ objectFormat.isPrefixOf cap then ok advertised
  else do
    let algo ← parseHashAlgorithm digests fmt (cap.drop objectFormat.length)
    ok (if advertised.isNone then some algo else advertised)

def advertisedObjectFormat (digests : Digests) (fmt : Fmt) (capabilities : List GoString)
    (hexLen : ℕ) : Outcome HashAlgorithm := do
  let advertised ← capabilities.foldlM (advertiseFormat digests fmt) none
  let fromLen ← hashAlgorithmFromHexSize digests hexLen
  match advertised with
  | some algo =>
    failIf (algo.hexSize ≠ fromLen.hexSize) "ref advertisement object-format mismatch"
    ok algo
  | none => ok fromLen

inductive RefMatch where
  | none
  | head
  | tag
  | branch
  deriving DecidableEq, Repr

/-- The constants in the order of `iota`. -/
def RefMatch.rank : RefMatch → ℕ
  | none => 0
  | head => 1
  | tag => 2
  | branch => 3

def tagsPrefix : GoString := ascii "refs/tags/"
def headsPrefix : GoString := ascii "refs/heads/"

def matchWantedRef (name wanted : GoString) : RefMatch :=
  if wanted = ascii "HEAD" then
    if name = ascii "HEAD" then .head else .none
  else if name = tagsPrefix ++ wanted then .tag
  else if name = headsPrefix ++ wanted then .branch
  else .none

structure SelectedRef where
  oid : OID
  capabilities : List GoString

/-- The variables of `selectAdvertisedRef`. -/
structure Selection where
  firstRef : Bool
  parsingRefs : Bool
  selectedMatch : RefMatch
  selected : SelectedRef
  algo : HashAlgorithm

def unselected : Selection := ⟨true, false, .none, ⟨zeroOID, []⟩, zeroOID.algo⟩

/-- `bytes.TrimSuffix(s, []byte("\n"))`. -/
def trimNewline (s : GoString) : GoString := if [10].isSuffixOf s then s.dropLast else s

/-- The first reference of the advertisement, which carries the capabilities. -/
def selectFirst (digests : Digests) (fmt : Fmt) (wanted : GoString) (st : Selection)
    (oidHex capsStart : GoString) : Outcome Selection :=
  match indexByte capsStart 0 with
  | none => error "malformed first ref advertisement"
  | some nul => do
    let capabilities := parseCapabilities (capsStart.drop (nul + 1))
    let algo ← advertisedObjectFormat digests fmt capabilities oidHex.length
    let refName := capsStart.take nul
    failIf (refName = []) "empty ref name"
    let found := matchWantedRef refName wanted
    let st := { st with algo, parsingRefs := true, firstRef := false }
    if found ≠ .none then do
      let oid ← parseHex algo oidHex
      ok { st with selected := ⟨oid, capabilities⟩, selectedMatch := found }
    else ok st

def selectNext (digests : Digests) (wanted : GoString) (st : Selection)
    (oidHex name : GoString) : Outcome Selection := do
  let algo ← if st.algo.name = "" then hashAlgorithmFromHexSize digests oidHex.length
    else ok st.algo
  let refName := trimNewline name
  failIf (refName = []) "empty ref name"
  let found := matchWantedRef refName wanted
  let st := { st with algo, parsingRefs := true }
  if found ≠ .none ∧ found.rank > st.selectedMatch.rank then do
    let oid ← parseHex algo oidHex
    ok { st with selected := { st.selected with oid }, selectedMatch := found }
  else ok st

/-- What a line that is not a flush does. -/
def selectLine (digests : Digests) (fmt : Fmt) (wanted : GoString) (st : Selection)
    (line : List UInt8) : Outcome Selection :=
  if line = [] then ok st
  else if ¬ st.parsingRefs ∧ (ascii "# service=git-upload-pack").isPrefixOf line then ok st
  else if (ascii "version ").isPrefixOf line then ok st
  else
    match indexByte line 32 with
    | none => error "malformed ref advertisement"
    | some space =>
      if space = 0 then error "malformed ref advertisement"
      else if st.firstRef then
        selectFirst digests fmt wanted st (line.take space) (line.drop (space + 1))
      else selectNext digests wanted st (line.take space) (line.drop (space + 1))

def selectLoop (digests : Digests) (fmt : Fmt) (wanted : GoString) (pktStream : List UInt8)
    (pos : ℕ) (st : Selection) : Outcome Selection :=
  if pos < pktStream.length then
    match _h : pktRead pktStream pos with
    | .error e => error e
    | .panic => panic
    | .ok (line, flush, next) =>
      if flush then
        if ¬ st.parsingRefs then selectLoop digests fmt wanted pktStream next st else ok st
      else do
        let st ← selectLine digests fmt wanted st line
        selectLoop digests fmt wanted pktStream next st
  else ok st
termination_by pktStream.length - pos
decreasing_by
  all_goals
    have := pktRead_pos _h
    omega

def selectAdvertisedRef (digests : Digests) (fmt : Fmt) (pktStream : List UInt8)
    (wanted : GoString) : Outcome SelectedRef := do
  let st ← selectLoop digests fmt wanted pktStream 0 unselected
  failIf (st.selectedMatch = .none) ("ref not found: " ++ fmt.operand wanted)
  ok st.selected

/-! ### Advertisements -/

structure Ref where
  name : GoString
  hex : GoString

/-- The identifier itself: its digits may be spelled in either case. -/
def Ref.oid (algo : HashAlgorithm) (r : Ref) : OID := ⟨algo, toLower r.hex⟩

structure Ref.Valid (algo : HashAlgorithm) (r : Ref) : Prop where
  hexSize : r.hex.length = algo.hexSize
  hexDigits : ∀ b ∈ r.hex, (hexValue b).isSome
  name_ne_nil : r.name ≠ []
  name_plain : ∀ b ∈ r.name, b ≠ 0 ∧ b ≠ 10

def refLine (r : Ref) : List UInt8 := r.hex ++ 32 :: r.name

def Visible (b : UInt8) : Prop := 33 ≤ b ∧ b ≤ 126

/-- A capability is a word of visible ASCII characters. -/
def Word (s : GoString) : Prop := s ≠ [] ∧ ∀ b ∈ s, Visible b

/-- The formats that the capabilities name: the first is the one in use, the others are offered. -/
def formats (capabilities : List GoString) : List GoString :=
  (capabilities.filter (objectFormat.isPrefixOf ·)).map (·.drop objectFormat.length)

/-- Every line but those with capabilities may end with a line feed. -/
inductive Ended (line : List UInt8) : List UInt8 → Prop where
  | bare : Ended line line
  | newline : Ended line (line ++ [10])

/-- What a server may send before its references. -/
inductive Prelude : List Packet → Prop where
  | nothing : Prelude []
  | service (tail) : Prelude [.line (ascii "# service=git-upload-pack" ++ tail), .flush]
  | version (tail) : Prelude [.line (ascii "version " ++ tail)]
  | both (tail tail') : Prelude [.line (ascii "# service=git-upload-pack" ++ tail), .flush,
      .line (ascii "version " ++ tail')]

/-- The first reference with its capabilities, the others, and a flush. -/
inductive Listing : List Ref → List GoString → List Packet → Prop where
  | refs {first rest capabilities raw lines} :
      Ended (List.intercalate [32] capabilities) raw →
      List.Forall₂ (fun r packet => ∃ line, Ended (refLine r) line ∧ packet = .line line)
        rest lines →
      Listing (first :: rest) capabilities (.line (refLine first ++ 0 :: raw) :: lines ++ [.flush])

/-- A well-formed advertisement of references in this order. -/
structure Advertises (digests : Digests) (algo : HashAlgorithm) (refs : List Ref)
    (pktStream : List UInt8) : Prop where
  known : Known digests algo
  valid : ∀ r ∈ refs, r.Valid algo
  distinct : (refs.map Ref.name).Nodup
  sent : ∃ preface capabilities packets, Prelude preface ∧ Listing refs capabilities packets ∧
    Framed (preface ++ packets) pktStream ∧ (∀ cap ∈ capabilities, Word cap) ∧
    (∀ f ∈ formats capabilities, f = ascii "sha1" ∨ f = ascii "sha256") ∧
    ∀ f ∈ (formats capabilities).head?, f = ascii algo.name

/-- `r` is what the name stands for, in whatever order the references come: a branch goes before
a tag of the same name. -/
def Wanted (refs : List Ref) (wanted : GoString) (r : Ref) : Prop :=
  r ∈ refs ∧
    if wanted = ascii "HEAD" then r.name = ascii "HEAD"
    else r.name = headsPrefix ++ wanted ∨
      r.name = tagsPrefix ++ wanted ∧ ∀ r' ∈ refs, r'.name ≠ headsPrefix ++ wanted

/-! ### Words and capabilities -/

variable {digests : Digests} {fmt : Fmt} {algo : HashAlgorithm} {wanted : GoString}

/-- Trimming stops at a visible character, on either side. -/
def Breaks (ws : List (List UInt8)) : Prop := ∀ w ∈ ws, w ≠ [] ∧ ∀ c ∈ w.head?, c < 33 ∨ 126 < c

theorem spaces_break : Breaks spaces := by
  unfold Breaks
  decide +kernel

theorem reversed_spaces_break : Breaks (spaces.map List.reverse) := by
  unfold Breaks
  decide +kernel

theorem no_space_at {ws : List (List UInt8)} {b : UInt8} (hws : Breaks ws) (h : Visible b)
    (rest : List UInt8) : (ws.find? fun w => w.isPrefixOf (b :: rest)) = none := by
  rw [List.find?_eq_none]
  intro w hw hstarts
  obtain ⟨hne, hhead⟩ := hws w hw
  obtain ⟨c, w', rfl⟩ := List.exists_cons_of_ne_nil hne
  have hout := hhead c rfl
  rw [List.isPrefixOf_cons_cons, Bool.and_eq_true, beq_iff_eq] at hstarts
  rw [hstarts.1] at hout
  rcases hout with hlow | hhigh
  · exact absurd h.1 (UInt8.not_le.mpr hlow)
  · exact absurd h.2 (UInt8.not_le.mpr hhigh)

theorem trimLeft_visible {ws : List (List UInt8)} {b : UInt8} (hws : Breaks ws) (h : Visible b)
    (rest : List UInt8) : trimLeft ws (b :: rest) = b :: rest := by
  rw [trimLeft, no_space_at hws h]

theorem fields_word {t : GoString} (h : ∀ b ∈ t, Visible b) (word s : GoString) :
    fields word (t ++ s) = fields (word ++ t) s := by
  induction t generalizing word with
  | nil => rw [List.nil_append, List.append_nil]
  | cons b t ih =>
    have hb := h b List.mem_cons_self
    rw [List.cons_append, fields, no_space_at spaces_break hb]
    dsimp only
    rw [ih (fun c hc => h c (List.mem_cons_of_mem _ hc)), List.append_assoc, List.singleton_append]

theorem fields_space {word : GoString} (h : word ≠ []) (s : GoString) :
    fields word (32 :: s) = word :: fields [] s := by
  have hfind : (spaces.find? fun w => w.isPrefixOf (32 :: s)) = some [32] := rfl
  rw [fields, hfind]
  dsimp only
  rw [if_neg h, List.singleton_append]
  rfl

theorem fields_intercalate {t : GoString} {ts : List GoString} (h : ∀ s ∈ t :: ts, Word s) :
    fields [] (List.intercalate [32] (t :: ts)) = t :: ts := by
  induction ts generalizing t with
  | nil =>
    have ht := h t List.mem_cons_self
    rw [List.intercalate_singleton, ← List.append_nil t, fields_word ht.2, List.nil_append, fields,
      if_neg ht.1, List.append_nil]
  | cons t' ts ih =>
    have ht := h t List.mem_cons_self
    rw [List.intercalate_cons_cons, List.append_assoc, fields_word ht.2, List.nil_append,
      List.singleton_append, fields_space ht.1, ih fun s hs => h s (List.mem_cons_of_mem _ hs)]

/-- Words that are joined begin and end with a visible character. -/
theorem intercalate_ends {t : GoString} {ts : List GoString} (h : ∀ s ∈ t :: ts, Word s) :
    (∃ b rest, List.intercalate [32] (t :: ts) = b :: rest ∧ Visible b) ∧
      ∃ rest c, List.intercalate [32] (t :: ts) = rest ++ [c] ∧ Visible c := by
  induction ts generalizing t with
  | nil =>
    have ht := h t List.mem_cons_self
    rw [List.intercalate_singleton]
    constructor
    · obtain ⟨b, rest, rfl⟩ := List.exists_cons_of_ne_nil ht.1
      exact ⟨b, rest, rfl, ht.2 b List.mem_cons_self⟩
    · exact ⟨t.dropLast, t.getLast ht.1, (List.dropLast_append_getLast ht.1).symm,
        ht.2 _ (List.getLast_mem ht.1)⟩
  | cons t' ts ih =>
    have ht := h t List.mem_cons_self
    obtain ⟨-, last, c, hlast, hc⟩ := ih fun s hs => h s (List.mem_cons_of_mem _ hs)
    rw [List.intercalate_cons_cons, hlast]
    constructor
    · obtain ⟨b, rest, rfl⟩ := List.exists_cons_of_ne_nil ht.1
      exact ⟨b, _, rfl, ht.2 b List.mem_cons_self⟩
    · exact ⟨t ++ [32] ++ last, c, (List.append_assoc _ _ _).symm, hc⟩

theorem trimSpace_visible {text raw rest last : GoString} {b c : UInt8} (hraw : Ended text raw)
    (hfirst : text = b :: rest) (hb : Visible b) (hlast : text = last ++ [c]) (hc : Visible c) :
    trimSpace raw = text := by
  have hback : trimLeft (spaces.map List.reverse) text.reverse = text.reverse := by
    rw [hlast, List.reverse_append, List.reverse_singleton, List.singleton_append,
      trimLeft_visible reversed_spaces_break hc]
  have hleft (more : GoString) : trimLeft spaces (text ++ more) = text ++ more := by
    rw [hfirst, List.cons_append, trimLeft_visible spaces_break hb]
  cases hraw with
  | bare =>
    have hnothing := hleft []
    rw [List.append_nil] at hnothing
    rw [trimSpace, hnothing, hback, List.reverse_reverse]
  | newline =>
    have hfind : ((spaces.map List.reverse).find? fun w => w.isPrefixOf (10 :: text.reverse)) =
        some [10] := rfl
    have hskip : trimLeft (spaces.map List.reverse) (10 :: text.reverse) = text.reverse := by
      rw [trimLeft, hfind]
      exact hback
    rw [trimSpace, hleft, List.reverse_append, List.reverse_singleton, List.singleton_append,
      hskip, List.reverse_reverse]

theorem parseCapabilities_eq {capabilities : List GoString} {raw : GoString}
    (h : ∀ cap ∈ capabilities, Word cap) (hraw : Ended (List.intercalate [32] capabilities) raw) :
    parseCapabilities raw = capabilities := by
  cases capabilities with
  | nil =>
    have hnothing : trimSpace raw = [] := by
      cases hraw with
      | bare => simp [trimSpace, trimLeft, List.intercalate]
      | newline => simp [trimSpace, trimLeft, List.intercalate, spaces]
    rw [parseCapabilities, hnothing, if_pos rfl]
  | cons t ts =>
    obtain ⟨⟨b, rest, hfirst, hb⟩, last, c, hlast, hc⟩ := intercalate_ends h
    have hne : List.intercalate [32] (t :: ts) ≠ [] := by
      rw [hfirst]
      exact List.cons_ne_nil _ _
    rw [parseCapabilities, trimSpace_visible hraw hfirst hb hlast hc, if_neg hne,
      fields_intercalate h]

/-! ### Hash algorithms -/

theorem hashAlgorithmFromHexSize_known (h : Known digests algo) :
    hashAlgorithmFromHexSize digests algo.hexSize = ok algo := by
  rcases h with rfl | rfl
  · rfl
  · rfl

theorem name_injective {a b : HashAlgorithm} (ha : Known digests a) (hb : Known digests b)
    (h : ascii a.name = ascii b.name) : a = b := by
  have hne : ascii "sha1" ≠ ascii "sha256" := by decide
  rcases ha with rfl | rfl <;> rcases hb with rfl | rfl
  · rfl
  · exact absurd h hne
  · exact absurd h.symm hne
  · rfl

theorem parseHashAlgorithm_known (digests : Digests) (fmt : Fmt) {name : GoString}
    (h : name = ascii "sha1" ∨ name = ascii "sha256") : ∃ a,
    parseHashAlgorithm digests fmt name = ok a ∧ Known digests a ∧ ascii a.name = name := by
  rcases h with rfl | rfl
  · exact ⟨SHA1 digests, if_pos rfl, Or.inl rfl, rfl⟩
  · have hne : ascii "sha256" ≠ ascii "sha1" := by decide
    exact ⟨SHA256 digests, (if_neg hne).trans (if_pos rfl), Or.inr rfl, rfl⟩

theorem formats_cons (cap : GoString) (caps : List GoString) :
    formats (cap :: caps) =
      if objectFormat.isPrefixOf cap then cap.drop objectFormat.length :: formats caps
      else formats caps := by
  rw [formats, List.filter_cons]
  split
  · rw [List.map_cons, ← formats]
  · rw [← formats]

/-- Of several formats the first is kept. -/
theorem foldlM_advertiseFormat (digests : Digests) (fmt : Fmt) {capabilities : List GoString}
    (h : ∀ f ∈ formats capabilities, f = ascii "sha1" ∨ f = ascii "sha256")
    (advertised : Option HashAlgorithm) :
    ∃ a, capabilities.foldlM (advertiseFormat digests fmt) advertised = ok a ∧
      (advertised.isSome → a = advertised) ∧
      (advertised = none → (∀ x ∈ a, Known digests x) ∧
        a.map (fun x => ascii x.name) = (formats capabilities).head?) := by
  induction capabilities generalizing advertised with
  | nil =>
    refine ⟨advertised, rfl, fun _ => rfl, ?_⟩
    rintro rfl
    exact ⟨fun x hx => absurd hx (Option.not_mem_none x), rfl⟩
  | cons cap caps ih =>
    rw [formats_cons] at h ⊢
    rw [List.foldlM_cons, advertiseFormat]
    by_cases hcap : objectFormat.isPrefixOf cap
    · rw [if_pos hcap] at h ⊢
      rw [if_neg (not_not_intro hcap)]
      obtain ⟨x, hx, hknown, hname⟩ := parseHashAlgorithm_known digests fmt
        (h _ List.mem_cons_self)
      rw [hx]
      obtain ⟨a, ha, hkept, -⟩ := ih (fun f hf => h f (List.mem_cons_of_mem _ hf))
        (if advertised.isNone then some x else advertised)
      refine ⟨a, ha, ?_, ?_⟩
      · intro hs
        obtain ⟨y, rfl⟩ := Option.isSome_iff_exists.mp hs
        exact hkept rfl
      · rintro rfl
        obtain rfl := hkept rfl
        refine ⟨?_, congrArg some hname⟩
        rintro y hy
        cases hy
        exact hknown
    · rw [if_neg hcap] at h ⊢
      rw [if_pos hcap]
      exact ih h advertised

theorem advertisedObjectFormat_eq {capabilities : List GoString} (hknown : Known digests algo)
    (h : ∀ f ∈ formats capabilities, f = ascii "sha1" ∨ f = ascii "sha256")
    (hfirst : ∀ f ∈ (formats capabilities).head?, f = ascii algo.name) :
    advertisedObjectFormat digests fmt capabilities algo.hexSize = ok algo := by
  obtain ⟨a, ha, -, hnone⟩ := foldlM_advertiseFormat digests fmt h none
  obtain ⟨hx, hhead⟩ := hnone rfl
  rw [advertisedObjectFormat, ha, ok_bind, hashAlgorithmFromHexSize_known hknown, ok_bind]
  cases a with
  | none => rfl
  | some x =>
    have hname : ascii x.name = ascii algo.name := hfirst _ (hhead ▸ rfl)
    obtain rfl := name_injective (hx x rfl) hknown hname
    dsimp only
    rw [failIf_of_not (not_not_intro rfl), ok_bind]

theorem decodeString_isSome {s : GoString} (heven : s.length % 2 = 0)
    (h : ∀ b ∈ s, (hexValue b).isSome) : (decodeString s).isSome := by
  fun_induction decodeString s with
  | case1 => rfl
  | case2 => simp at heven
  | case3 a b rest ih =>
    obtain ⟨high, hhigh⟩ := Option.isSome_iff_exists.mp (h a (by simp))
    obtain ⟨low, hlow⟩ := Option.isSome_iff_exists.mp (h b (by simp))
    obtain ⟨raw, hraw⟩ := Option.isSome_iff_exists.mp
      (ih (by rw [List.length_cons, List.length_cons] at heven; omega)
        fun c hc => h c (by simp [hc]))
    simp [hhigh, hlow, hraw]

theorem parseHex_valid {r : Ref} (hknown : Known digests algo) (h : r.Valid algo) :
    parseHex algo r.hex = ok (r.oid algo) := by
  have heven : r.hex.length % 2 = 0 := by
    rcases hknown with rfl | rfl
    · have hsize : r.hex.length = 40 := h.hexSize
      omega
    · have hsize : r.hex.length = 64 := h.hexSize
      omega
  obtain ⟨raw, hraw⟩ := Option.isSome_iff_exists.mp (decodeString_isSome heven h.hexDigits)
  rw [parseHex, failIf_of_not (not_not_intro h.hexSize), ok_bind, hraw,
    failIf_of_not (Option.some_ne_none raw), ok_bind, Ref.oid]

/-! ### Lines of the advertisement -/

/-- How a selection stands after the references `seen`. -/
structure Best (algo : HashAlgorithm) (wanted : GoString) (seen : List Ref) (st : Selection) :
    Prop where
  format : st.algo = algo
  firstRef : st.firstRef = false
  parsingRefs : st.parsingRefs = true
  best : ∀ r ∈ seen, (matchWantedRef r.name wanted).rank ≤ st.selectedMatch.rank
  found : st.selectedMatch ≠ .none →
    ∃ r ∈ seen, matchWantedRef r.name wanted = st.selectedMatch ∧ st.selected.oid = r.oid algo

theorem rank_pos {found : RefMatch} (h : found ≠ .none) : 0 < found.rank := by
  cases found with
  | none => exact absurd rfl h
  | head | tag | branch => decide

theorem trimNewline_ended {name line : GoString} (hplain : ∀ b ∈ name, b ≠ 0 ∧ b ≠ 10)
    (h : Ended name line) : trimNewline line = name := by
  cases h with
  | bare =>
    have hnot : ¬ [10] <:+ name := by
      rintro ⟨front, rfl⟩
      exact (hplain 10 (by simp)).2 rfl
    rw [trimNewline, if_neg (by rwa [List.isSuffixOf_iff_suffix])]
  | newline =>
    rw [trimNewline, if_pos (by rw [List.isSuffixOf_iff_suffix]; exact List.suffix_append _ _),
      List.dropLast_concat]

theorem hex_plain {b c : UInt8} (h : (hexValue b).isSome) (hc : hexValue c = none) : b ≠ c := by
  rintro rfl
  rw [hc] at h
  cases h

/-- A line that begins with a digit is none of the lines that come before the references. -/
theorem selectLine_ref {r : Ref} (hvalid : r.Valid algo) (hknown : Known digests algo)
    (st : Selection) (tail : List UInt8) :
    selectLine digests fmt wanted st (r.hex ++ 32 :: tail) =
      if st.firstRef then selectFirst digests fmt wanted st r.hex tail
      else selectNext digests wanted st r.hex tail := by
  have hpos : 0 < r.hex.length := by
    rw [hvalid.hexSize]
    rcases hknown with rfl | rfl
    · exact Nat.succ_pos 39
    · exact Nat.succ_pos 63
  obtain ⟨b, hex, hhex⟩ := List.exists_cons_of_length_pos hpos
  have hb : (hexValue b).isSome := hvalid.hexDigits b (by rw [hhex]; exact List.mem_cons_self)
  have hne : r.hex ++ 32 :: tail ≠ [] := by simp
  have hservice : (ascii "# service=git-upload-pack").isPrefixOf (r.hex ++ 32 :: tail) = false := by
    have hsharp : (35 == b) = false := beq_false_of_ne (hex_plain hb rfl).symm
    rw [hhex, show ascii "# service=git-upload-pack" = 35 :: ascii " service=git-upload-pack" from
      rfl, List.cons_append, List.isPrefixOf_cons_cons, hsharp, Bool.false_and]
  have hversion : (ascii "version ").isPrefixOf (r.hex ++ 32 :: tail) = false := by
    have hv : (118 == b) = false := beq_false_of_ne (hex_plain hb rfl).symm
    rw [hhex, show ascii "version " = 118 :: ascii "ersion " from rfl, List.cons_append,
      List.isPrefixOf_cons_cons, hv, Bool.false_and]
  have hspace : (32 : UInt8) ∉ r.hex := fun hmem => hex_plain (hvalid.hexDigits 32 hmem) rfl rfl
  rw [selectLine, if_neg hne, hservice, hversion, indexByte_append hspace]
  simp only [Bool.false_eq_true, and_false, if_false]
  rw [if_neg (by omega), List.take_left, ← List.drop_drop, List.drop_left]
  rfl

/-- The first reference has no rival yet. -/
theorem selectFirst_best (fmt : Fmt) (wanted : GoString) {r : Ref} {capabilities : List GoString}
    {raw : GoString} {st : Selection}
    (hvalid : r.Valid algo) (hknown : Known digests algo) (hwords : ∀ cap ∈ capabilities, Word cap)
    (hraw : Ended (List.intercalate [32] capabilities) raw)
    (hformats : ∀ f ∈ formats capabilities, f = ascii "sha1" ∨ f = ascii "sha256")
    (hformat : ∀ f ∈ (formats capabilities).head?, f = ascii algo.name)
    (hnone : st.selectedMatch = .none) :
    ∃ st', selectFirst digests fmt wanted st r.hex (r.name ++ 0 :: raw) = ok st' ∧
      Best algo wanted [r] st' := by
  have hnul : (0 : UInt8) ∉ r.name := fun hmem => (hvalid.name_plain 0 hmem).1 rfl
  have hcaps : (r.name ++ 0 :: raw).drop (r.name.length + 1) = raw := by
    rw [← List.drop_drop, List.drop_left]
    rfl
  rw [selectFirst, indexByte_append hnul]
  dsimp only
  rw [hcaps, parseCapabilities_eq hwords hraw, hvalid.hexSize,
    advertisedObjectFormat_eq hknown hformats hformat, ok_bind, List.take_left,
    failIf_of_not hvalid.name_ne_nil, ok_bind]
  by_cases hfound : matchWantedRef r.name wanted ≠ .none
  · rw [if_pos hfound, parseHex_valid hknown hvalid, ok_bind]
    refine ⟨_, rfl, rfl, rfl, rfl, ?_, fun _ => ⟨r, List.mem_singleton_self r, rfl, rfl⟩⟩
    intro r' hr'
    rw [List.mem_singleton.mp hr']
  · rw [if_neg hfound]
    rw [not_not] at hfound
    refine ⟨_, rfl, rfl, rfl, rfl, ?_, fun hne => absurd hnone hne⟩
    intro r' hr'
    rw [List.mem_singleton.mp hr', hfound]
    exact Nat.zero_le _

/-- One reference more: the better match of the two stays. -/
theorem selectNext_best (digests : Digests) {r : Ref} {seen : List Ref} {name : GoString}
    {st : Selection} (hvalid : r.Valid algo) (hknown : Known digests algo)
    (hname : Ended r.name name) (hbest : Best algo wanted seen st) :
    ∃ st', selectNext digests wanted st r.hex name = ok st' ∧
      Best algo wanted (seen ++ [r]) st' := by
  have hnamed : st.algo.name ≠ "" := by
    rw [hbest.format]
    rcases hknown with rfl | rfl
    · exact (by decide : "sha1" ≠ "")
    · exact (by decide : "sha256" ≠ "")
  rw [selectNext, if_neg hnamed, ok_bind]
  dsimp only
  rw [trimNewline_ended hvalid.name_plain hname,
    failIf_of_not hvalid.name_ne_nil, ok_bind, hbest.format]
  by_cases hfound : matchWantedRef r.name wanted ≠ .none ∧
      (matchWantedRef r.name wanted).rank > st.selectedMatch.rank
  · rw [if_pos hfound, parseHex_valid hknown hvalid, ok_bind]
    refine ⟨_, rfl, rfl, hbest.firstRef, rfl, ?_, fun _ => ⟨r, by simp, rfl, rfl⟩⟩
    intro r' hr'
    rcases List.mem_append.mp hr' with hold | hnew
    · exact (hbest.best r' hold).trans hfound.2.le
    · rw [List.mem_singleton.mp hnew]
  · rw [if_neg hfound]
    refine ⟨_, rfl, rfl, hbest.firstRef, rfl, ?_, ?_⟩
    · intro r' hr'
      rcases List.mem_append.mp hr' with hold | hnew
      · exact hbest.best r' hold
      · rw [List.mem_singleton.mp hnew]
        by_cases hnone : matchWantedRef r.name wanted = .none
        · rw [hnone]
          exact Nat.zero_le _
        · exact Nat.le_of_not_lt fun hlt => hfound ⟨hnone, hlt⟩
    · intro hne
      obtain ⟨r', hr', hmatch⟩ := hbest.found hne
      exact ⟨r', List.mem_append_left _ hr', hmatch⟩

/-! ### The loop over a framed stream -/

theorem selectLoop_read {pktStream line : List UInt8} {pos next : ℕ} {flush : Bool}
    (hread : pktRead pktStream pos = ok (line, flush, next)) (st : Selection) :
    selectLoop digests fmt wanted pktStream pos st =
      if flush then
        if ¬ st.parsingRefs then selectLoop digests fmt wanted pktStream next st else ok st
      else
        selectLine digests fmt wanted st line >>= selectLoop digests fmt wanted pktStream next := by
  have hpos := pktRead_pos hread
  rw [selectLoop, if_pos (by omega)]
  split
  · rename_i he
    cases hread.symm.trans he
  · rename_i he
    cases hread.symm.trans he
  · rename_i hr
    cases hread.symm.trans hr
    rfl

/-- `selectLoop`, packet by packet. -/
def selectPackets (digests : Digests) (fmt : Fmt) (wanted : GoString) :
    List Packet → Selection → Outcome Selection
  | [], st => ok st
  | .flush :: ps, st => if ¬ st.parsingRefs then selectPackets digests fmt wanted ps st else ok st
  | .line data :: ps, st => do
    let st ← selectLine digests fmt wanted st data
    selectPackets digests fmt wanted ps st

theorem selectLoop_framed {pktStream bytes : List UInt8} {ps : List Packet}
    (hframed : Framed ps bytes) {pos : ℕ} (hbytes : pktStream.drop pos = bytes) (st : Selection) :
    selectLoop digests fmt wanted pktStream pos st = selectPackets digests fmt wanted ps st := by
  induction hframed generalizing pos st with
  | nil =>
    rw [List.drop_eq_nil_iff] at hbytes
    rw [selectLoop, if_neg (by omega), selectPackets]
  | @flush ps rest _ ih =>
    have hnext : pktStream.drop (pos + 4) = rest := drop_past hbytes
    rw [selectLoop_read (pktRead_flush hbytes), selectPackets, if_pos rfl, ih hnext]
  | @line ps head data rest hlen hhead _ ih =>
    have hnext : pktStream.drop (pos + (data.length + 4)) = rest := by
      rw [Nat.add_comm data.length, ← hlen, ← List.length_append]
      exact drop_past hbytes
    rw [selectLoop_read (pktRead_line hbytes hlen hhead), selectPackets, if_neg Bool.false_ne_true]
    exact congrArg (selectLine digests fmt wanted st data >>= ·) (funext (ih hnext))

theorem isPrefixOf_append (a b : List UInt8) : a.isPrefixOf (a ++ b) = true :=
  List.isPrefixOf_iff_prefix.mpr (List.prefix_append a b)

/-- The lines before the references change nothing. -/
theorem selectPackets_prelude {preface : List Packet} (h : Prelude preface) (ps : List Packet)
    {st : Selection} (hst : st.parsingRefs = false) :
    selectPackets digests fmt wanted (preface ++ ps) st =
      selectPackets digests fmt wanted ps st := by
  have hservice (tail : List UInt8) :
      selectLine digests fmt wanted st (ascii "# service=git-upload-pack" ++ tail) = ok st := by
    have hne := List.append_ne_nil_of_left_ne_nil
      (show ascii "# service=git-upload-pack" ≠ [] by decide) tail
    rw [selectLine, if_neg hne, isPrefixOf_append, hst]
    rfl
  have hversion (tail : List UInt8) :
      selectLine digests fmt wanted st (ascii "version " ++ tail) = ok st := by
    have hother : (ascii "# service=git-upload-pack").isPrefixOf (ascii "version " ++ tail) =
        false := rfl
    have hne := List.append_ne_nil_of_left_ne_nil (show ascii "version " ≠ [] by decide) tail
    rw [selectLine, if_neg hne, isPrefixOf_append, hother]
    simp
  cases h with
  | nothing => rfl
  | service tail => simp [selectPackets, hservice, hst]
  | version tail => simp [selectPackets, hversion]
  | both tail tail' => simp [selectPackets, hservice, hversion, hst]

/-- The references after the first, and the flush that ends them. -/
theorem selectPackets_refs {seen rest : List Ref} {lines : List Packet} {st : Selection}
    (hknown : Known digests algo) (hvalid : ∀ r ∈ rest, r.Valid algo)
    (hlines : List.Forall₂ (fun r packet => ∃ line, Ended (refLine r) line ∧ packet = .line line)
      rest lines)
    (hbest : Best algo wanted seen st) :
    ∃ st', selectPackets digests fmt wanted (lines ++ [.flush]) st = ok st' ∧
      Best algo wanted (seen ++ rest) st' := by
  induction hlines generalizing seen st with
  | nil =>
    refine ⟨st, ?_, (List.append_nil seen).symm ▸ hbest⟩
    rw [List.nil_append, selectPackets, if_neg (not_not_intro hbest.parsingRefs)]
  | @cons r packet rest lines hline _ ih =>
    obtain ⟨line, hended, rfl⟩ := hline
    have hr := hvalid r List.mem_cons_self
    have hname : ∃ name, line = r.hex ++ 32 :: name ∧ Ended r.name name := by
      cases hended with
      | bare => exact ⟨r.name, rfl, .bare⟩
      | newline => exact ⟨r.name ++ [10], by rw [refLine]; simp, .newline⟩
    obtain ⟨name, rfl, hname⟩ := hname
    obtain ⟨st', hnext, hbest'⟩ := selectNext_best digests hr hknown hname hbest
    have hrest := ih (fun r' hr' => hvalid r' (List.mem_cons_of_mem _ hr')) hbest'
    rw [List.append_assoc, List.singleton_append] at hrest
    rw [List.cons_append, selectPackets, selectLine_ref hr hknown, hbest.firstRef]
    simpa [hnext] using hrest

theorem selectLoop_best (fmt : Fmt) (wanted : GoString) {refs : List Ref} {pktStream : List UInt8}
    (h : Advertises digests algo refs pktStream) :
    ∃ st, selectLoop digests fmt wanted pktStream 0 unselected = ok st ∧
      Best algo wanted refs st := by
  obtain ⟨preface, capabilities, packets, hpreface, hlisting, hframed, hwords, hformats, hformat⟩ :=
    h.sent
  rw [selectLoop_framed hframed List.drop_zero, selectPackets_prelude hpreface _ rfl]
  cases hlisting with
  | @refs first rest _ raw lines hraw hlines =>
    have hfirst := h.valid first List.mem_cons_self
    obtain ⟨st, hst, hbest⟩ := selectFirst_best fmt wanted hfirst h.known hwords hraw hformats
      hformat (show unselected.selectedMatch = .none from rfl)
    rw [List.cons_append, selectPackets, refLine, List.append_assoc, List.cons_append,
      selectLine_ref hfirst h.known, if_pos (show unselected.firstRef = true from rfl), hst,
      ok_bind]
    exact selectPackets_refs h.known (fun r hr => h.valid r (List.mem_cons_of_mem _ hr)) hlines
      hbest

/-! ### What is selected -/

theorem tag_ne_branch (wanted : GoString) : tagsPrefix ++ wanted ≠ headsPrefix ++ wanted := by
  intro h
  exact absurd (List.append_cancel_right h) (by decide)

theorem matchWantedRef_branch : matchWantedRef (headsPrefix ++ wanted) wanted =
    if wanted = ascii "HEAD" then .none else .branch := by
  rw [matchWantedRef]
  by_cases hhead : wanted = ascii "HEAD"
  · subst hhead
    decide
  · rw [if_neg hhead, if_neg (tag_ne_branch wanted).symm, if_pos rfl, if_neg hhead]

/-- What is wanted is what ranks highest. -/
theorem wanted_iff {refs : List Ref} {r : Ref} :
    Wanted refs wanted r ↔ r ∈ refs ∧ matchWantedRef r.name wanted ≠ .none ∧
      ∀ r' ∈ refs, (matchWantedRef r'.name wanted).rank ≤ (matchWantedRef r.name wanted).rank := by
  have hle (name : GoString) : (matchWantedRef name wanted).rank ≤ 3 := by
    cases matchWantedRef name wanted <;> decide
  rw [Wanted]
  refine and_congr_right fun hr => ?_
  by_cases hhead : wanted = ascii "HEAD"
  · rw [if_pos hhead]
    have hmatch (name : GoString) : matchWantedRef name wanted =
        if name = ascii "HEAD" then .head else .none := if_pos hhead
    constructor
    · intro hname
      rw [hmatch, if_pos hname]
      refine ⟨by decide, fun r' _ => ?_⟩
      rw [hmatch]
      split
      · exact le_rfl
      · exact Nat.zero_le _
    · rintro ⟨hne, -⟩
      rw [hmatch] at hne
      by_contra hname
      exact hne (if_neg hname)
  · rw [if_neg hhead]
    have hmatch (name : GoString) : matchWantedRef name wanted =
        if name = tagsPrefix ++ wanted then .tag
        else if name = headsPrefix ++ wanted then .branch else .none := if_neg hhead
    constructor
    · rintro (hbranch | ⟨htag, hno⟩)
      · rw [hbranch, matchWantedRef_branch, if_neg hhead]
        exact ⟨by decide, fun r' _ => hle r'.name⟩
      · rw [htag, hmatch (tagsPrefix ++ wanted), if_pos rfl]
        refine ⟨by decide, fun r' hr' => ?_⟩
        rw [hmatch, if_neg (hno r' hr')]
        split
        · exact le_rfl
        · exact Nat.zero_le _
    · rintro ⟨hne, hbest⟩
      rw [hmatch] at hne
      by_cases htag : r.name = tagsPrefix ++ wanted
      · refine Or.inr ⟨htag, fun r' hr' hbranch => ?_⟩
        have hlt := hbest r' hr'
        rw [hbranch, matchWantedRef_branch, if_neg hhead, htag, hmatch, if_pos rfl] at hlt
        exact absurd hlt (by decide)
      · by_contra hnot
        rw [not_or] at hnot
        rw [if_neg htag, if_neg hnot.1] at hne
        exact hne rfl

/-- No two references of an advertisement are wanted under one name. -/
theorem wanted_unique {refs : List Ref} {r r' : Ref} (hdistinct : (refs.map Ref.name).Nodup)
    (h : Wanted refs wanted r) (h' : Wanted refs wanted r') : r = r' := by
  have hname : r.name = r'.name := by
    obtain ⟨hr, h⟩ := h
    obtain ⟨hr', h'⟩ := h'
    split_ifs at h h'
    · rw [h, h']
    · rcases h with hb | ⟨ht, hno⟩ <;> rcases h' with hb' | ⟨ht', hno'⟩
      · rw [hb, hb']
      · exact absurd hb (hno' r hr)
      · exact absurd hb' (hno r' hr')
      · rw [ht, ht']
  exact List.inj_on_of_nodup_map hdistinct h.1 h'.1 hname

theorem wanted_perm {refs order : List Ref} (hperm : order.Perm refs) {r : Ref} :
    Wanted order wanted r ↔ Wanted refs wanted r := by
  simp only [Wanted, hperm.mem_iff]

/-- For every advertisement of these references, in any order: the reference that the name stands
for is returned, and when there is none the error says so. -/
theorem selectAdvertisedRef_wanted {refs order : List Ref} {pktStream : List UInt8}
    (hperm : order.Perm refs) (h : Advertises digests algo order pktStream) (fmt : Fmt)
    (wanted : GoString) :
    (∀ r, Wanted refs wanted r → ∃ capabilities,
      selectAdvertisedRef digests fmt pktStream wanted = ok ⟨r.oid algo, capabilities⟩) ∧
    (selectAdvertisedRef digests fmt pktStream wanted =
        error ("ref not found: " ++ fmt.operand wanted) ↔ ∀ r, ¬ Wanted refs wanted r) := by
  obtain ⟨st, hst, hbest⟩ := selectLoop_best fmt wanted h
  simp only [← wanted_perm hperm]
  rw [selectAdvertisedRef, hst, ok_bind]
  by_cases hnone : st.selectedMatch = .none
  · have hnot : ∀ r, ¬ Wanted order wanted r := by
      intro r hr
      obtain ⟨hmem, hne, -⟩ := wanted_iff.mp hr
      have hrank := hbest.best r hmem
      rw [hnone] at hrank
      exact absurd (rank_pos hne) (Nat.not_lt.mpr hrank)
    rw [failIf, if_pos hnone]
    exact ⟨fun r hr => absurd hr (hnot r), fun _ => hnot, fun _ => rfl⟩
  · obtain ⟨r, hmem, hmatch, hoid⟩ := hbest.found hnone
    have hr : Wanted order wanted r := by
      refine wanted_iff.mpr ⟨hmem, ?_, ?_⟩
      · rwa [hmatch]
      · rw [hmatch]
        exact hbest.best
    rw [failIf_of_not hnone, ok_bind]
    refine ⟨?_, ?_, ?_⟩
    · intro r' hr'
      obtain rfl := wanted_unique h.distinct hr hr'
      exact ⟨st.selected.capabilities, by rw [← hoid]⟩
    · intro he
      cases he
    · intro hnot
      exact absurd hr (hnot r)

def noDigests : Digests := ⟨fun _ => [], fun _ => []⟩

def releaseTag : Ref := ⟨ascii "refs/tags/release", List.replicate 40 49⟩
def releaseBranch : Ref := ⟨ascii "refs/heads/release", List.replicate 40 65⟩

/-- The tag comes first; the digits of the branch are capitals. -/
def releaseStream : List UInt8 :=
  ascii "001e" ++ (ascii "# service=git-upload-pack" ++ [10]) ++ (ascii "0000" ++
    (ascii "005c" ++ (refLine releaseTag ++ 0 :: (ascii "ofs-delta object-format=sha1" ++ [10])) ++
      (ascii "0040" ++ (refLine releaseBranch ++ [10]) ++ (ascii "0000" ++ []))))

theorem advertises_release :
    Advertises noDigests (SHA1 noDigests) [releaseTag, releaseBranch] releaseStream where
  known := Or.inl rfl
  valid := by
    intro r hr
    rcases List.mem_pair.mp hr with rfl | rfl
    · exact ⟨rfl, by decide +kernel, by decide +kernel, by decide +kernel⟩
    · exact ⟨rfl, by decide +kernel, by decide +kernel, by decide +kernel⟩
  distinct := by decide
  sent := by
    refine ⟨_, [ascii "ofs-delta", ascii "object-format=sha1"], _, .service [10],
      .refs .newline (.cons ⟨_, .newline, rfl⟩ .nil), ?_, ?_, by decide, by decide⟩
    · exact .line rfl (by decide)
        (.flush (.line rfl (by decide) (.line rfl (by decide) (.flush .nil))))
    · unfold Word Visible
      decide +kernel

/-- The branch wins, whatever the order. -/
theorem selectAdvertisedRef_wanted_release : ∃ capabilities,
    selectAdvertisedRef noDigests ⟨fun _ => "", fun _ => ""⟩ releaseStream (ascii "release") =
      ok ⟨⟨SHA1 noDigests, List.replicate 40 97⟩, capabilities⟩ :=
  (selectAdvertisedRef_wanted (List.Perm.swap releaseTag releaseBranch []).symm
    advertises_release _ _).1 releaseBranch ⟨by simp, by decide⟩

end GitpRefs
