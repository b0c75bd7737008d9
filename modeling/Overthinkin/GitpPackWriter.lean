import Overthinkin.GitpDelta
import Overthinkin.GitpStoreInvariant

/-! A pack writer: what a listing of full objects and deltas means, the bytes of the pack that
carries it, and that `parsePack` reads these bytes back entry by entry. -/
namespace GitpPackWriter

open GoRuntime GoRuntime.Outcome GitpVarint GitpObject GitpDelta GitpPack GitpStoreInvariant

inductive GitType where
  | commit
  | tree
  | blob
  | tag
  deriving DecidableEq, Repr

namespace GitType

def code : GitType → ℕ
  | commit => ObjCommit
  | tree => ObjTree
  | blob => ObjBlob
  | tag => ObjTag

def name : GitType → GoString
  | commit => ascii "commit"
  | tree => ascii "tree"
  | blob => ascii "blob"
  | tag => ascii "tag"

theorem typeName_code (t : GitType) : typeName t.code = ok t.name := by
  cases t <;> rfl

theorem code_range (t : GitType) : 1 ≤ t.code ∧ t.code ≤ 4 := by
  cases t <;> decide

end GitType

/-- An entry as a listing gives it; bases are named by their index in the listing. -/
inductive Entry where
  | full (type : GitType) (content : List UInt8)
  | ofsDelta (base : ℕ) (ops : List DeltaOp)
  | refDelta (base : ℕ) (ops : List DeltaOp)

structure GitObject where
  type : GitType
  content : List UInt8
  deriving DecidableEq, Repr

instance : Inhabited GitObject := ⟨⟨.blob, []⟩⟩

/-- Entry `i` stands for an object at the end of a chain of `depth` deltas. An OFS delta refers
to an earlier entry, a REF delta to any. -/
inductive Denotes (entries : List Entry) : ℕ → ℕ → GitObject → Prop where
  | full {i t c} : entries[i]? = some (.full t c) → Denotes entries 0 i ⟨t, c⟩
  | ofsDelta {i j ops depth base} : entries[i]? = some (.ofsDelta j ops) → j < i →
      Denotes entries depth j base → (∀ op ∈ ops, op.Valid base.content) →
      Denotes entries (depth + 1) i ⟨base.type, deltaOutput base.content ops⟩
  | refDelta {i j ops depth base} : entries[i]? = some (.refDelta j ops) →
      Denotes entries depth j base → (∀ op ∈ ops, op.Valid base.content) →
      Denotes entries (depth + 1) i ⟨base.type, deltaOutput base.content ops⟩

/-- Fewer than 2^32 entries, with the object that each stands for: every chain of deltas ends
in a full object. -/
structure Listing where
  entries : List Entry
  objects : List GitObject
  count : entries.length < 2 ^ 32
  length : objects.length = entries.length
  denotes : ∀ i obj, objects[i]? = some obj → ∃ depth, Denotes entries depth i obj

structure Writer where
  algo : HashAlgorithm
  deflate : List UInt8 → List UInt8

def Listing.object (l : Listing) (i : ℕ) : GitObject := l.objects.getD i default

def Writer.rawOID (w : Writer) (obj : GitObject) : List UInt8 :=
  w.algo.newHash (HashAlgorithm.objectBytes obj.type.name obj.content)

def Writer.oid (w : Writer) (obj : GitObject) : OID := ⟨w.algo, encodeToString (w.rawOID obj)⟩

def typeCode : Entry → ℕ
  | .full t _ => t.code
  | .ofsDelta _ _ => ObjOFSDelta
  | .refDelta _ _ => ObjRefDelta

def payload (l : Listing) : Entry → List UInt8
  | .full _ content => content
  | .ofsDelta j ops => encodeDelta (l.object j).content ops
  | .refDelta j ops => encodeDelta (l.object j).content ops

/-- What stands between header and payload; `starts` are the offsets of the earlier entries. -/
def baseField (w : Writer) (l : Listing) (starts : List ℕ) (pos : ℕ) : Entry → List UInt8
  | .full _ _ => []
  | .ofsDelta j _ => encodeOFSDelta (pos - starts.getD j 0)
  | .refDelta j _ => w.rawOID (l.object j)

def writeEntry (w : Writer) (l : Listing) (starts : List ℕ) (pos : ℕ) (e : Entry) : List UInt8 :=
  encodePackObjectHeader (typeCode e) (payload l e).length ++ baseField w l starts pos e ++
    w.deflate (payload l e)

def writeEntries (w : Writer) (l : Listing) : List ℕ → ℕ → List Entry → List UInt8
  | _, _, [] => []
  | starts, pos, e :: es =>
    let bytes := writeEntry w l starts pos e
    bytes ++ writeEntries w l (starts ++ [pos]) (pos + bytes.length) es

/-- The offsets at which `writeEntries` puts its entries. -/
def positions (w : Writer) (l : Listing) : List ℕ → ℕ → List Entry → List ℕ
  | _, _, [] => []
  | starts, pos, e :: es =>
    pos :: positions w l (starts ++ [pos]) (pos + (writeEntry w l starts pos e).length) es

/-- `binary.BigEndian.PutUint32`. -/
def putUint32 (n : ℕ) : List UInt8 :=
  [UInt8.ofNat (n / 2 ^ 24 % 256), UInt8.ofNat (n / 2 ^ 16 % 256), UInt8.ofNat (n / 2 ^ 8 % 256),
    UInt8.ofNat (n % 256)]

def packHeader (version : ℕ) (l : Listing) : List UInt8 :=
  ascii "PACK" ++ putUint32 version ++ putUint32 l.entries.length

def writeBody (w : Writer) (version : ℕ) (l : Listing) : List UInt8 :=
  packHeader version l ++ writeEntries w l [] 12 l.entries

def writePack (w : Writer) (version : ℕ) (l : Listing) : List UInt8 :=
  writeBody w version l ++ w.algo.newHash (writeBody w version l)

def starts (w : Writer) (l : Listing) : List ℕ := positions w l [] 12 l.entries

/-- The entry as the parser reads it back. -/
def readBack (w : Writer) (l : Listing) (starts : List ℕ) (pos : ℕ) (e : Entry) : PackEntry where
  objType := typeCode e
  baseOID := match e with
    | .refDelta j _ => w.oid (l.object j)
    | _ => zeroOID
  ofsDelta := match e with
    | .ofsDelta j _ => ((pos - starts.getD j 0 : ℕ) : ℤ)
    | _ => 0
  raw := payload l e
  objStart := pos

/-! ### The laws of the libraries -/

/-- Inflating a deflated string followed by anything gives the string and consumes exactly the
deflated bytes; a digest has `RawSize` bytes. -/
structure Lawful (w : Writer) (zlib : Zlib) : Prop where
  inflate : ∀ data rest, zlib (w.deflate data ++ rest) = .inflated data (w.deflate data).length
  digest : ∀ data, (w.algo.newHash data).length = w.algo.rawSize

variable {w : Writer} {zlib : Zlib} {l : Listing}

theorem Lawful.deflate_ne_nil (h : Lawful w zlib) (data : List UInt8) : w.deflate data ≠ [] := by
  intro hd
  -- an empty stream would be found in front of every other stream
  have h₁ := h.inflate data (w.deflate (0 :: data))
  have h₂ := h.inflate (0 :: data) []
  rw [hd, List.nil_append] at h₁
  rw [List.append_nil, h₁, ZlibResult.inflated.injEq] at h₂
  simpa using congrArg List.length h₂.1

theorem Lawful.hashObject (h : Lawful w zlib) (obj : GitObject) :
    w.algo.hashObject obj.type.name obj.content = ok (w.oid obj) := by
  unfold HashAlgorithm.hashObject HashAlgorithm.fromBytes
  rw [failIf_of_not (by rw [h.digest]; simp), ok_bind]
  rfl

/-! ### One entry -/

theorem typeCode_lt (e : Entry) : typeCode e < 8 := by
  cases e with
  | full t c =>
    have := t.code_range
    simp only [typeCode]
    omega
  | ofsDelta j ops => exact (by decide : ObjOFSDelta < 8)
  | refDelta j ops => exact (by decide : ObjRefDelta < 8)

theorem readBase_write (h : Lawful w zlib) (l : Listing) (starts : List ℕ) (pos : ℕ)
    (pre rest : List UInt8) (e : Entry) (hpos : pos < 2 ^ 63) :
    readBase w.algo (pre ++ baseField w l starts pos e ++ rest) (typeCode e) pre.length =
      ok ((readBack w l starts pos e).baseOID, (readBack w l starts pos e).ofsDelta,
        pre.length + (baseField w l starts pos e).length) := by
  cases e with
  | full t c =>
    have := t.code_range
    unfold readBase
    rw [if_neg (by simp [typeCode, ObjRefDelta]; omega),
      if_neg (by simp [typeCode, ObjOFSDelta]; omega)]
    rfl
  | ofsDelta j ops =>
    unfold readBase
    simp only [typeCode, baseField]
    rw [if_neg (by decide), if_pos trivial, decode_ofs_encode pre rest (by omega), ok_bind]
    rfl
  | refDelta j ops =>
    have hlen : (w.rawOID (l.object j)).length = w.algo.rawSize := h.digest _
    unfold readBase
    rw [if_pos (show typeCode (.refDelta j ops) = ObjRefDelta from rfl),
      show baseField w l starts pos (.refDelta j ops) = w.rawOID (l.object j) from rfl,
      failIf_of_not (by simp [hlen]), ok_bind, ← hlen, slice_middle, ok_bind]
    unfold HashAlgorithm.fromBytes
    rw [failIf_of_not (by rw [hlen]; simp)]
    rfl

/-- Wherever an entry stands in a pack, it is read back and the position moves past it. -/
theorem readEntry_write (h : Lawful w zlib) (l : Listing) (starts : List ℕ)
    (pre rest : List UInt8) (e : Entry) (hsize : (payload l e).length < 2 ^ 63)
    (hpos : pre.length < 2 ^ 63) :
    readEntry zlib w.algo (pre ++ writeEntry w l starts pre.length e ++ rest) pre.length =
      ok (readBack w l starts pre.length e,
        pre.length + (writeEntry w l starts pre.length e).length) := by
  set head := encodePackObjectHeader (typeCode e) (payload l e).length with hhead
  set field := baseField w l starts pre.length e with hfield
  have hne := h.deflate_ne_nil (payload l e)
  have hlen : 0 < (w.deflate (payload l e)).length := List.length_pos_iff.mpr hne
  have hpack : pre ++ writeEntry w l starts pre.length e ++ rest =
      pre ++ head ++ field ++ (w.deflate (payload l e) ++ rest) := by
    simp [writeEntry, ← hhead, ← hfield]
  have h₁ := decode_header_encode pre (field ++ (w.deflate (payload l e) ++ rest)) (typeCode_lt e)
    hsize
  have h₂ := readBase_write h l starts pre.length (pre ++ head)
    (w.deflate (payload l e) ++ rest) e hpos
  have h₃ := slice_tail (pre ++ head ++ field) (w.deflate (payload l e) ++ rest)
  rw [← hhead, ← List.append_assoc] at h₁
  rw [← hfield, @List.length_append _ pre] at h₂
  rw [@List.length_append _ (pre ++ head), @List.length_append _ pre] at h₃
  unfold readEntry
  rw [hpack, h₁, ok_bind]
  simp only
  rw [h₂, ok_bind]
  simp only
  rw [h₃, ok_bind, inflateStream, h.inflate]
  simp only [ok_bind]
  rw [failIf_of_not, ok_bind]
  · simp only [writeEntry, ← hhead, ← hfield, List.length_append, ← Nat.add_assoc]
    rfl
  · simp only [List.length_append]
    omega

/-! ### All entries -/

theorem writeEntry_pos (w : Writer) (l : Listing) (starts : List ℕ) (pos : ℕ) (e : Entry) :
    0 < (writeEntry w l starts pos e).length := by
  have : 0 < (encodePackObjectHeader (typeCode e) (payload l e).length).length := by
    unfold encodePackObjectHeader
    split <;> simp
  simp only [writeEntry, List.length_append]
  omega

theorem positions_length (w : Writer) (l : Listing) (starts : List ℕ) (pos : ℕ)
    (es : List Entry) : (positions w l starts pos es).length = es.length := by
  induction es generalizing starts pos with
  | nil => rfl
  | cons e es ih => simp [positions, ih]

theorem positions_sorted (w : Writer) (l : Listing) (starts : List ℕ) (pos : ℕ)
    (es : List Entry) : (∀ p ∈ positions w l starts pos es, pos ≤ p) ∧
      (positions w l starts pos es).Pairwise (· < ·) := by
  induction es generalizing starts pos with
  | nil => simp [positions]
  | cons e es ih =>
    have hpos := writeEntry_pos w l starts pos e
    obtain ⟨hlow, hsort⟩ := ih (starts ++ [pos]) (pos + (writeEntry w l starts pos e).length)
    have hlt : ∀ p ∈ positions w l (starts ++ [pos])
        (pos + (writeEntry w l starts pos e).length) es, pos < p := by
      intro p hp
      have := hlow p hp
      omega
    refine ⟨?_, List.pairwise_cons.mpr ⟨hlt, hsort⟩⟩
    intro p hp
    rcases List.mem_cons.mp hp with rfl | hp
    · exact le_rfl
    · exact (hlt p hp).le

/-- The distance of an OFS delta only looks at entries before it. -/
theorem readBack_prefix (w : Writer) (l : Listing) (starts more : List ℕ) (pos : ℕ) {e : Entry}
    (he : ∀ j ops, e = .ofsDelta j ops → j < starts.length) :
    readBack w l starts pos e = readBack w l (starts ++ more) pos e := by
  cases e with
  | full t c => rfl
  | refDelta j ops => rfl
  | ofsDelta j ops =>
    have hj := he j ops rfl
    simp [readBack, List.getD_eq_getElem?_getD, List.getElem?_append_left hj]

/-- Entry `i` of a written pack, as the parser reads it back. -/
def readBackAt (w : Writer) (l : Listing) (starts : List ℕ) (p : Entry × ℕ) : PackEntry :=
  readBack w l starts (starts.getD p.2 0) p.1

theorem scanEntries_write (h : Lawful w zlib) {all done : List ℕ} {es : List Entry}
    {pack pre rest : List UInt8} (hall : all = done ++ positions w l done pre.length es)
    (hpack : pack = pre ++ writeEntries w l done pre.length es ++ rest)
    (hsize : ∀ e ∈ es, (payload l e).length < 2 ^ 63) (hfit : pack.length < 2 ^ 63)
    (hearlier : ∀ p ∈ es.zipIdx done.length, ∀ j ops, p.1 = .ofsDelta j ops → j < p.2) :
    scanEntries zlib w.algo pack es.length pre.length =
      ok ((es.zipIdx done.length).map (readBackAt w l all),
        pre.length + (writeEntries w l done pre.length es).length) := by
  induction es generalizing done pre with
  | nil => simp [scanEntries, writeEntries]
  | cons e es ih =>
    set bytes := writeEntry w l done pre.length e with hbytes
    have htail : pack = (pre ++ bytes) ++
        writeEntries w l (done ++ [pre.length]) (pre ++ bytes).length es ++ rest := by
      rw [hpack, writeEntries, List.length_append]
      simp [← hbytes]
    have hfirst : readEntry zlib w.algo pack pre.length =
        ok (readBack w l done pre.length e, pre.length + bytes.length) := by
      rw [htail, List.append_assoc (pre ++ bytes)]
      refine readEntry_write h l done pre _ e (hsize e (by simp)) ?_
      rw [hpack, List.length_append, List.length_append] at hfit
      omega
    have hhere : readBack w l done pre.length e = readBackAt w l all (e, done.length) := by
      have hd : all.getD done.length 0 = pre.length := by
        rw [hall, positions]
        simp
      rw [readBackAt, hd, hall]
      exact readBack_prefix w l done _ _ (hearlier (e, done.length) (by simp))
    have hrest := @ih (done ++ [pre.length]) (pre ++ bytes)
      (by rw [hall, positions, List.length_append]; simp [← hbytes]) htail
      (fun f hf => hsize f (by simp [hf]))
      (fun p hp => hearlier p (by simpa using Or.inr hp))
    simp only [List.length_append, List.length_cons, List.length_nil, Nat.zero_add] at hrest
    rw [List.length_cons, scanEntries, hfirst, ok_bind]
    simp only
    rw [hrest, ok_bind, hhere]
    simp only [writeEntries, List.zipIdx_cons, List.map_cons, List.length_append, ← hbytes,
      Nat.add_assoc]

end GitpPackWriter
