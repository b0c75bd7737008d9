import Overthinkin.GitpVarint
import Overthinkin.GitpObject

/-! `parsePack` of `pack.go`: the entries of a pack, read one after another into the store.
zlib is a parameter, since only what it makes of the front of a byte string matters here;
progress reporting has no effect on the result and is left out. -/
namespace GitpPack

open GoRuntime GoRuntime.Outcome FiniteMap GitpVarint GitpObject

/-- The zlib reader fails to start, fails later, or yields data from a number of bytes. -/
inductive ZlibResult where
  | initFailed
  | inflateFailed
  | inflated (data : List UInt8) (consumed : ℕ)
  deriving DecidableEq, Repr

abbrev Zlib := List UInt8 → ZlibResult

def inflateStream (zlib : Zlib) (src : List UInt8) : Outcome (List UInt8 × ℕ) :=
  match zlib src with
  | .initFailed => error "zlib inflateInit failed"
  | .inflateFailed => error "zlib inflate failed"
  | .inflated data consumed => ok (data, consumed)

/-- What one turn of the loop reads before it touches the store. -/
structure PackEntry where
  objType : ℕ
  baseOID : OID
  ofsDelta : ℤ
  raw : List UInt8
  objStart : ℤ

def PackEntry.isFull (e : PackEntry) : Bool := ObjCommit ≤ e.objType ∧ e.objType ≤ ObjTag

theorem PackEntry.isFull_iff {e : PackEntry} :
    e.isFull = true ↔ 1 ≤ e.objType ∧ e.objType ≤ 4 := by
  simp only [isFull, decide_eq_true_eq]
  rfl

/-- The pending delta an entry leaves when it is not a full object. -/
def PackEntry.pending (e : PackEntry) : PendingDelta :=
  ⟨e.objType, e.ofsDelta, e.baseOID, some e.raw, e.objStart⟩

/-- The base of a delta entry, and the position after it. -/
def readBase (algo : HashAlgorithm) (pack : List UInt8) (objType pos : ℕ) :
    Outcome (OID × ℤ × ℕ) :=
  if objType = ObjRefDelta then do
    failIf (pos + algo.rawSize > pack.length) "truncated ref delta"
    let raw ← slice pack pos (pos + algo.rawSize)
    let baseOID ← algo.fromBytes raw
    ok (baseOID, 0, pos + algo.rawSize)
  else if objType = ObjOFSDelta then do
    let (ofsDelta, pos) ← decodeOFSDelta pack pos
    ok (zeroOID, ofsDelta, pos)
  else ok (zeroOID, 0, pos)

def readEntry (zlib : Zlib) (algo : HashAlgorithm) (pack : List UInt8) (pos : ℕ) :
    Outcome (PackEntry × ℕ) := do
  let (objType, size, next) ← decodePackObjectHeader pack pos
  let (baseOID, ofsDelta, next) ← readBase algo pack objType next
  let rest ← slice pack next pack.length
  let (raw, consumed) ← inflateStream zlib rest
  failIf (consumed = 0 ∨ next + consumed > pack.length ∨ raw.length ≠ size)
    "pack object size mismatch"
  ok (⟨objType, baseOID, ofsDelta, raw, pos⟩, next + consumed)

/-- The second half of the loop body: a full object is stored, a delta is put aside. -/
def recordEntry (store : ObjectStore) (e : PackEntry) : Outcome ObjectStore :=
  if e.isFull then do
    let objTypeName ← typeName e.objType
    let oid ← store.algo.hashObject objTypeName e.raw
    let store ← store.add e.objType oid e.raw
    store.setOffset oid e.objStart
  else do
    failIf (e.objType ≠ ObjRefDelta ∧ e.objType ≠ ObjOFSDelta)
      ("unknown pack object type " ++ toString e.objType)
    ok (store.addPendingDelta e.pending)

/-- `for i := uint32(0); i < objectCount; i++`. -/
def parseEntries (zlib : Zlib) (pack : List UInt8) :
    ℕ → ℕ → ObjectStore → Outcome (ℕ × ObjectStore)
  | 0, pos, store => ok (pos, store)
  | n + 1, pos, store => do
    let (e, pos) ← readEntry zlib store.algo pack pos
    let store ← recordEntry store e
    parseEntries zlib pack n pos store

/-- `binary.BigEndian.Uint32`. -/
def bigEndianUint32 (bytes : List UInt8) : ℕ := bytes.foldl (fun n b => n * 256 + b.toNat) 0

def parsePack (zlib : Zlib) (pack : List UInt8) (store : ObjectStore) : Outcome ObjectStore := do
  let algo := store.algo
  failIf (pack.length < 12 + algo.rawSize) "packfile too short"
  let magic ← slice pack 0 4
  failIf (magic ≠ ascii "PACK") "not a packfile"
  let versionBytes ← slice pack 4 8
  let version := bigEndianUint32 versionBytes
  failIf (version ≠ 2 ∧ version ≠ 3) ("unsupported packfile version " ++ toString version)
  let countBytes ← slice pack 8 12
  let objectCount := bigEndianUint32 countBytes
  let (pos, store) ← parseEntries zlib pack objectCount 12 store
  failIf (pos + algo.rawSize ≠ pack.length) "packfile trailing data"
  let body ← slice pack 0 pos
  let trailer ← slice pack pos pack.length
  failIf (algo.hashBytes body ≠ trailer) "packfile checksum mismatch"
  ok store

/-! ### Reading moves forward and never indexes out of range -/

theorem inflateStream_ne_panic (zlib : Zlib) (src : List UInt8) :
    inflateStream zlib src ≠ panic := by
  unfold inflateStream
  split <;> simp

theorem readBase_pos {algo : HashAlgorithm} {pack : List UInt8} {objType pos p : ℕ} {oid : OID}
    {n : ℤ} (h : readBase algo pack objType pos = ok (oid, n, p)) (hp : pos ≤ pack.length) :
    pos ≤ p ∧ p ≤ pack.length := by
  unfold readBase at h
  split_ifs at h
  · simp only [bind_eq_ok, failIf_eq_ok, ok.injEq, Prod.mk.injEq] at h
    obtain ⟨_, _, _, _, _, _, _, _, rfl⟩ := h
    omega
  · simp only [bind_eq_ok, ok.injEq, Prod.mk.injEq, Prod.exists] at h
    obtain ⟨_, q, hq, _, _, rfl⟩ := h
    have := decode_ofs_pos hq
    omega
  · simp only [ok.injEq, Prod.mk.injEq] at h
    omega

theorem readBase_ne_panic (algo : HashAlgorithm) (pack : List UInt8) (objType pos : ℕ) :
    readBase algo pack objType pos ≠ panic := by
  unfold readBase
  split_ifs
  · simp [bind_eq_panic, failIf_eq_ok, slice_eq_panic, HashAlgorithm.fromBytes]
  · simp [bind_eq_panic, decode_ofs_ne_panic]
  · simp

/-- An entry takes at least two bytes, ends inside the pack and starts where it was read. -/
theorem readEntry_pos {zlib : Zlib} {algo : HashAlgorithm} {pack : List UInt8} {pos p : ℕ}
    {e : PackEntry} (h : readEntry zlib algo pack pos = ok (e, p)) :
    pos < p ∧ p ≤ pack.length ∧ e.objStart = pos := by
  simp only [readEntry, bind_eq_ok, failIf_eq_ok, ok.injEq, Prod.mk.injEq, Prod.exists] at h
  obtain ⟨t, n, q, hq, oid, o, r, hr, _, _, raw, c, _, _, hc, rfl, rfl⟩ := h
  have := decode_header_pos hq
  have := readBase_pos hr (by omega)
  exact ⟨by omega, by omega, rfl⟩

theorem readEntry_ne_panic (zlib : Zlib) (algo : HashAlgorithm) (pack : List UInt8) (pos : ℕ) :
    readEntry zlib algo pack pos ≠ panic := by
  intro h
  simp only [readEntry, bind_eq_panic, decode_header_ne_panic, readBase_ne_panic, slice_eq_panic,
    inflateStream_ne_panic, failIf_ne_panic, false_or, reduceCtorEq, and_false, exists_false,
    or_false, Prod.exists] at h
  obtain ⟨t, n, q, hq, oid, o, r, hr, hs⟩ := h
  have := decode_header_pos hq
  have := readBase_pos hr (by omega)
  exact hs (by omega)

theorem recordEntry_ne_panic (store : ObjectStore) (e : PackEntry) :
    recordEntry store e ≠ panic := by
  unfold recordEntry
  split
  · intro h
    rcases bind_eq_panic.mp h with h | ⟨name, _, h⟩
    · exact typeName_ne_panic _ h
    rcases bind_eq_panic.mp h with h | ⟨oid, _, h⟩
    · exact HashAlgorithm.hashObject_ne_panic _ _ _ h
    · exact ObjectStore.add_setOffset_ne_panic _ _ _ _ _ h
  · simp [bind_eq_panic]

theorem parseEntries_ne_panic (zlib : Zlib) (pack : List UInt8) (n pos : ℕ)
    (store : ObjectStore) : parseEntries zlib pack n pos store ≠ panic := by
  induction n generalizing pos store with
  | zero => simp [parseEntries]
  | succ n ih => simp [parseEntries, bind_eq_panic, readEntry_ne_panic, recordEntry_ne_panic, ih]

theorem parseEntries_pos {zlib : Zlib} {pack : List UInt8} {n pos p : ℕ} {s t : ObjectStore}
    (h : parseEntries zlib pack n pos s = ok (p, t)) (hp : pos ≤ pack.length) :
    pos ≤ p ∧ p ≤ pack.length := by
  induction n generalizing pos s with
  | zero =>
    simp only [parseEntries, ok.injEq, Prod.mk.injEq] at h
    omega
  | succ n ih =>
    simp only [parseEntries, bind_eq_ok, Prod.exists] at h
    obtain ⟨e, q, he, u, _, hrest⟩ := h
    have := readEntry_pos he
    have := ih hrest (by omega)
    omega

theorem parsePack_ne_panic (zlib : Zlib) (pack : List UInt8) (store : ObjectStore) :
    parsePack zlib pack store ≠ panic := by
  intro h
  simp only [parsePack, bind_eq_panic, failIf_ne_panic, failIf_eq_ok, slice_eq_panic,
    parseEntries_ne_panic, false_or, reduceCtorEq, and_false, exists_false, or_false,
    Prod.exists] at h
  obtain ⟨_, hlen, h | ⟨_, _, _, _, h | ⟨_, _, _, _, h | ⟨_, _, p, s, hp, _, _,
    h | ⟨_, _, h⟩⟩⟩⟩⟩ := h
  · omega
  · omega
  · omega
  · have := parseEntries_pos hp (by omega)
    omega
  · have := parseEntries_pos hp (by omega)
    omega

end GitpPack
