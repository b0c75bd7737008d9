import Overthinkin.GoRuntime
import Overthinkin.FiniteMap

/-! Object identifiers and the object store of `oid.go` and `object.go`. The store never drops
or replaces an object, so the key under which `byOID` holds it stands for the pointer that
`byOffset` keeps. -/
namespace GitpObject

open GoRuntime GoRuntime.Outcome FiniteMap

/-- `newHash` is the digest of everything written to a fresh hash; it is left arbitrary. -/
structure HashAlgorithm where
  name : String
  rawSize : ℕ
  hexSize : ℕ
  newHash : List UInt8 → List UInt8

structure OID where
  algo : HashAlgorithm
  hex : GoString

/-- The zero value of `OID`. -/
def zeroOID : OID := ⟨⟨"", 0, 0, fun _ => []⟩, []⟩

def hexDigit (n : ℕ) : UInt8 := if n < 10 then UInt8.ofNat (48 + n) else UInt8.ofNat (87 + n)

/-- `hex.EncodeToString`. -/
def encodeToString (raw : List UInt8) : GoString :=
  raw.flatMap fun b => [hexDigit (b.toNat / 16), hexDigit (b.toNat % 16)]

namespace HashAlgorithm

def fromBytes (a : HashAlgorithm) (raw : List UInt8) : Outcome OID := do
  failIf (raw.length ≠ a.rawSize) ("invalid " ++ a.name ++ " raw length")
  ok ⟨a, encodeToString raw⟩

def hashBytes (a : HashAlgorithm) (data : List UInt8) : List UInt8 := a.newHash data

/-- `"%s %d\x00"` of the type name and the length, then the data. -/
def objectBytes (typeName : GoString) (raw : List UInt8) : List UInt8 :=
  typeName ++ ascii " " ++ decimal raw.length ++ [0] ++ raw

def hashObject (a : HashAlgorithm) (typeName : GoString) (raw : List UInt8) : Outcome OID :=
  a.fromBytes (a.newHash (objectBytes typeName raw))

theorem hashObject_ne_panic (a : HashAlgorithm) (t : GoString) (raw : List UInt8) :
    a.hashObject t raw ≠ panic := by
  simp [hashObject, fromBytes, bind_eq_panic]

end HashAlgorithm

def ObjCommit := 1
def ObjTree := 2
def ObjBlob := 3
def ObjTag := 4
def ObjOFSDelta := 6
def ObjRefDelta := 7

def typeName (objType : ℕ) : Outcome GoString :=
  if objType = ObjCommit then ok (ascii "commit")
  else if objType = ObjTree then ok (ascii "tree")
  else if objType = ObjBlob then ok (ascii "blob")
  else if objType = ObjTag then ok (ascii "tag")
  else error ("unknown pack object type " ++ toString objType)

theorem typeName_ne_panic (t : ℕ) : typeName t ≠ panic := by
  unfold typeName
  split_ifs <;> simp

theorem typeName_eq_ok {t : ℕ} {name : GoString} (h : typeName t = ok name) :
    t = ObjCommit ∨ t = ObjTree ∨ t = ObjBlob ∨ t = ObjTag := by
  unfold typeName at h
  split_ifs at h <;> simp_all

structure Object where
  type : ℕ
  oid : OID
  data : List UInt8
  packOffset : ℤ

/-- `DeltaData` is `none` once the delta has been resolved (`nil` in the source). -/
structure PendingDelta where
  kind : ℕ
  offset : ℤ
  baseOID : OID
  deltaData : Option (List UInt8)
  srcOffset : ℤ

structure ObjectStore where
  algo : HashAlgorithm
  byOID : FMap GoString Object
  byOffset : FMap ℤ GoString
  deltas : List PendingDelta

def newObjectStore (algo : HashAlgorithm) : ObjectStore := ⟨algo, ∅, ∅, []⟩

namespace ObjectStore

def get (s : ObjectStore) (oid : OID) : Option Object := s.byOID.lookup oid.hex

def getByOffset (s : ObjectStore) (offset : ℤ) : Option Object :=
  (s.byOffset.lookup offset).bind fun key => s.byOID.lookup key

def add (s : ObjectStore) (objType : ℕ) (oid : OID) (data : List UInt8) :
    Outcome ObjectStore := do
  failIf (objType = 0) "obj_store_add: invalid argument"
  failIf (s.byOID.lookup oid.hex).isSome ("duplicate object " ++ oid.algo.name)
  ok { s with byOID := s.byOID.insert oid.hex ⟨objType, oid, data, 0⟩ }

def setOffset (s : ObjectStore) (oid : OID) (offset : ℤ) : Outcome ObjectStore :=
  match s.get oid with
  | none => error "obj_store_set_offset: object not found"
  | some obj =>
    ok { s with
      byOID := s.byOID.insert oid.hex { obj with packOffset := offset }
      byOffset := s.byOffset.insert offset oid.hex }

def addPendingDelta (s : ObjectStore) (delta : PendingDelta) : ObjectStore :=
  { s with deltas := s.deltas ++ [delta] }

/-- The store with one more object, known under its identifier and its pack offset. -/
def record (s : ObjectStore) (obj : Object) : ObjectStore :=
  { s with
    byOID := s.byOID.insert obj.oid.hex obj
    byOffset := s.byOffset.insert obj.packOffset obj.oid.hex }

@[simp] theorem record_algo (s : ObjectStore) (o : Object) : (s.record o).algo = s.algo := rfl
@[simp] theorem record_deltas (s : ObjectStore) (o : Object) :
    (s.record o).deltas = s.deltas := rfl

/-- `Add` followed by `SetOffset`, the only way objects enter the store. -/
theorem add_setOffset_eq_ok {s t : ObjectStore} {objType : ℕ} {oid : OID} {data : List UInt8}
    {offset : ℤ} :
    (do let u ← s.add objType oid data; u.setOffset oid offset) = ok t ↔
      objType ≠ 0 ∧ s.byOID.lookup oid.hex = none ∧
        t = s.record ⟨objType, oid, data, offset⟩ := by
  simp only [add, bind_eq_ok, failIf_eq_ok, ok.injEq]
  constructor
  · rintro ⟨u, ⟨_, h0, _, hn, rfl⟩, hs⟩
    simp only [setOffset, get, Finmap.lookup_insert, Finmap.insert_insert, ok.injEq] at hs
    exact ⟨h0, by simpa using hn, hs.symm⟩
  · rintro ⟨h0, hn, rfl⟩
    exact ⟨_, ⟨(), h0, (), by simp [hn], rfl⟩, by simp [setOffset, get, record]⟩

theorem add_setOffset_ne_panic (s : ObjectStore) (objType : ℕ) (oid : OID) (data : List UInt8)
    (offset : ℤ) : (do let u ← s.add objType oid data; u.setOffset oid offset) ≠ panic := by
  intro h
  simp only [add, bind_eq_panic, bind_eq_ok, failIf_ne_panic, failIf_eq_ok, false_or, reduceCtorEq,
    and_false, exists_false, or_false] at h
  obtain ⟨u, _, hu⟩ := h
  unfold setOffset at hu
  split at hu <;> cases hu

end ObjectStore

end GitpObject
