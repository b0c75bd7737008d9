import Overthinkin.GitpTransport
import Overthinkin.GitpProgress
import Overthinkin.GitpRefs

/-! `Clone` of `fetch.go`, from the options to the files, with all that it reports on the way. The
phases are those of the other modules; here they run one after another against a server. -/
namespace GitpClone

open GoRuntime GoRuntime.Outcome GitpObject GitpPack GitpResolve GitpReceive GitpRefs GitpTree
  PosixFileSystem PosixCalls StatefulCall LoggedCall GitpCheckout GitpTransport

structure Options where
  url : GoString
  ref : GoString
  outDir : Path
  progress : Bool

/-- What the program runs on. -/
structure Host where
  digests : Digests
  fmt : Fmt
  zlib : Zlib
  rt : Runtime
  remote : Remote
  faults : ℕ → Fault

/-- `if err != nil { return err }`. -/
def checked {σ α : Type} : Outcome α → Call σ Stop α
  | ok a => pure a
  | error e => throw (.error (ascii e))
  | .panic => throw .panic

/-! ### The two phases of the pack, with their reports -/

/-- `for i := uint32(0); i < objectCount; i++`, with `n` turns to go. -/
def parseEntries (zlib : Zlib) (progress : Bool) (pack : List UInt8) (objectCount : ℕ) :
    ℕ → ℕ → ObjectStore → Call Client Stop (ℕ × ObjectStore)
  | 0, pos, store => return (pos, store)
  | n + 1, pos, store => do
    let (e, pos) ← checked (readEntry zlib store.algo pack pos)
    let store ← checked (recordEntry store e)
    record progress (.packObjects (objectCount - n) objectCount)
    parseEntries zlib progress pack objectCount n pos store

/-- What is checked of the header, and the number of objects in it. -/
def packHeader (pack : List UInt8) (algo : HashAlgorithm) : Outcome ℕ := do
  failIf (pack.length < 12 + algo.rawSize) "packfile too short"
  let magic ← slice pack 0 4
  failIf (magic ≠ ascii "PACK") "not a packfile"
  let versionBytes ← slice pack 4 8
  let version := bigEndianUint32 versionBytes
  failIf (version ≠ 2 ∧ version ≠ 3) ("unsupported packfile version " ++ toString version)
  let countBytes ← slice pack 8 12
  ok (bigEndianUint32 countBytes)

def packTrailer (pack : List UInt8) (algo : HashAlgorithm) (pos : ℕ) : Outcome Unit := do
  failIf (pos + algo.rawSize ≠ pack.length) "packfile trailing data"
  let body ← slice pack 0 pos
  let trailer ← slice pack pos pack.length
  failIf (algo.hashBytes body ≠ trailer) "packfile checksum mismatch"

def parsePack (zlib : Zlib) (progress : Bool) (pack : List UInt8) (store : ObjectStore) :
    Call Client Stop ObjectStore := do
  let objectCount ← checked (packHeader pack store.algo)
  record progress (.stage (ascii "parsing pack"))
  record progress (.packObjects 0 objectCount)
  let (pos, parsed) ← parseEntries zlib progress pack objectCount objectCount 12 store
  checked (packTrailer pack store.algo pos)
  return parsed

/-- One `range` over the deltas, with `resolvedCount` beside what it is without reports. -/
def resolvePass (rt : Runtime) (progress : Bool) (total : ℕ) :
    ObjectStore → List PendingDelta → ℕ →
      Call Client Stop ((ObjectStore × List PendingDelta × Bool) × ℕ)
  | s, [], count => return ((s, [], false), count)
  | s, δ :: rest, count => do
    match ← checked (visitDelta rt s δ) with
    | none => do
      let ((t, ds, madeProgress), count) ← resolvePass rt progress total s rest count
      return ((t, δ :: ds, madeProgress), count)
    | some u => do
      record progress (.resolveDeltas (count + 1) total)
      let ((t, ds, _), count) ← resolvePass rt progress total u rest (count + 1)
      return ((t, resolved δ :: ds, true), count)

/-! ### But for the reports they are the phases without -/

section
variable {σ α β ρ : Type} {progress : Bool}

@[simp] theorem checked_ok (a : α) : (checked (ok a) : Call σ Stop α) = pure a := rfl

theorem checked_bind (x : Outcome α) (f : α → Outcome β) :
    (checked (x >>= f) : Call σ Stop β) = checked x >>= fun a => checked (f a) := by
  cases x with
  | ok a => rfl
  | error e => rfl
  | panic => rfl

theorem follows_checked (x : Outcome α) :
    Follows progress (checked x) (checked x : Call σ Stop α)
      (fun a (more : List ρ) => x = ok a ∧ more = []) (· = []) := by
  cases x with
  | ok a => exact follows_pure ⟨rfl, rfl⟩
  | error e => exact follows_throw rfl
  | panic => exact follows_throw rfl

/-- What a call returns is what it has been checked for. -/
theorem Follows.known {x : Call (σ × List ρ) Stop α} {o : Outcome α} {Q : α → List ρ → Prop}
    {E : List ρ → Prop} (h : LoggedCall.Follows progress x (checked o) Q E) :
    LoggedCall.Follows progress x (checked o) (fun a more => o = ok a ∧ Q a more) E := by
  intro s log
  obtain ⟨more, hx, hmore⟩ := h s log
  refine ⟨more, hx, ?_⟩
  cases o with
  | ok a => exact ⟨rfl, hmore⟩
  | error e => exact hmore
  | panic => exact hmore

/-- A call that reports nothing, before others that do. -/
theorem follows_checked_bind {x : Outcome α} {f : α → Call (σ × List ρ) Stop β}
    {g : α → Call σ Stop β} {Q : β → List ρ → Prop} {E : List ρ → Prop} (hE : E [])
    (h : ∀ a, x = ok a → Follows progress (f a) (g a) Q E) :
    Follows progress (checked x >>= f) (checked x >>= g) Q E := by
  refine ((follows_checked x).mono (fun _ _ h => h) fun _ he => he ▸ hE).bind ?_
  rintro a _ ⟨hx, rfl⟩
  exact h a hx

/-- Reports that count from `k + 1` on. -/
def counting (f : ℕ → ℕ → Report) (total k n : ℕ) : List Report :=
  (List.range' (k + 1) n).map fun i => f i total

theorem counting_succ (f : ℕ → ℕ → Report) (total k n : ℕ) :
    counting f total k (n + 1) = f (k + 1) total :: counting f total (k + 1) n := by
  rw [counting, counting, List.range'_succ, List.map_cons]

theorem counting_append (f : ℕ → ℕ → Report) (total k m n : ℕ) :
    counting f total k m ++ counting f total (k + m) n = counting f total k (m + n) := by
  rw [counting, counting, counting, ← List.map_append, Nat.add_right_comm, List.range'_append_1]

theorem counting_isPrefix (f : ℕ → ℕ → Report) (total k : ℕ) {m n : ℕ} (h : m ≤ n) :
    counting f total k m <+: counting f total k n := by
  obtain ⟨d, rfl⟩ := Nat.exists_eq_add_of_le h
  exact ⟨_, counting_append f total k m d⟩

theorem parseEntries_follows (zlib : Zlib) (pack : List UInt8) {total n : ℕ} (hn : n ≤ total)
    (pos : ℕ) (store : ObjectStore) :
    Follows progress (parseEntries zlib progress pack total n pos store)
      (checked (GitpPack.parseEntries zlib pack n pos store))
      (fun _ more => more = counting .packObjects total (total - n) n)
      (fun more => more <+: counting .packObjects total (total - n) n) := by
  induction n generalizing pos store with
  | zero => exact follows_pure rfl
  | succ n ih =>
    have hcount : total - (n + 1) + 1 = total - n := by omega
    rw [parseEntries, GitpPack.parseEntries, checked_bind, counting_succ, hcount]
    refine follows_checked_bind List.nil_prefix fun r _ => ?_
    rw [checked_bind]
    refine follows_checked_bind List.nil_prefix fun store _ => ?_
    refine Follows.record ((ih (by omega) _ _).mono ?_ ?_)
    · rintro _ more rfl
      rfl
    · exact fun more h => (List.prefix_cons_inj _).mpr h

theorem parsePack_eq (zlib : Zlib) (pack : List UInt8) (store : ObjectStore) :
    GitpPack.parsePack zlib pack store = (do
      let objectCount ← packHeader pack store.algo
      let r ← GitpPack.parseEntries zlib pack objectCount 12 store
      packTrailer pack store.algo r.1
      ok r.2) := by
  have hassoc : ∀ {α β γ : Type} (x : Outcome α) (f : α → Outcome β) (g : β → Outcome γ),
      x >>= f >>= g = x >>= fun a => f a >>= g := by
    intro α β γ x f g
    cases x <;> rfl
  simp only [GitpPack.parsePack, packHeader, packTrailer, hassoc, ok_bind]

/-- The reports on a pack with this many entries. -/
def parseReports (entries : ℕ) : List Report :=
  .stage (ascii "parsing pack") :: .packObjects 0 entries :: counting .packObjects entries 0 entries

theorem parsePack_follows (zlib : Zlib) (pack : List UInt8) (store : ObjectStore) :
    Follows progress (parsePack zlib progress pack store)
      (checked (GitpPack.parsePack zlib pack store))
      (fun _ more => ∃ entries, more = parseReports entries)
      (fun more => ∃ entries, more <+: parseReports entries) := by
  rw [parsePack_eq, checked_bind]
  refine follows_checked_bind ⟨0, List.nil_prefix⟩ fun entries _ => ?_
  rw [checked_bind]
  refine Follows.record (Follows.record ?_)
  have hparse := @parseEntries_follows progress zlib pack entries entries le_rfl 12
    store
  rw [Nat.sub_self] at hparse
  refine (hparse.mono (fun _ _ h => h) fun more h => ?_).bind ?_
  · exact ⟨entries, (List.prefix_cons_inj _).mpr ((List.prefix_cons_inj _).mpr h)⟩
  · rintro r _ rfl
    rw [checked_bind]
    refine follows_checked_bind ⟨entries, ?_⟩ fun _ _ => follows_pure ⟨entries, ?_⟩
    · rw [List.append_nil]
      exact List.prefix_rfl
    · rw [List.append_nil]
      rfl

/-- `GitpResolve.resolvePass`; how many deltas it resolves can be seen from those it leaves. -/
def countedPass (rt : Runtime) (s : ObjectStore) (ds : List PendingDelta) (count : ℕ) :
    Outcome ((ObjectStore × List PendingDelta × Bool) × ℕ) := do
  let r ← GitpResolve.resolvePass rt s ds
  ok (r, count + (pendingCount ds - pendingCount r.2.1))

theorem pendingCount_cons (δ : PendingDelta) (rest : List PendingDelta) :
    pendingCount (δ :: rest) = pendingCount rest + if δ.deltaData.isSome then 1 else 0 :=
  List.countP_cons

theorem countedPass_none {rt : Runtime} {s : ObjectStore} {δ : PendingDelta}
    {rest : List PendingDelta} (hv : visitDelta rt s δ = ok none) (count : ℕ) :
    countedPass rt s (δ :: rest) count = (do
      let q ← countedPass rt s rest count
      ok ((q.1.1, δ :: q.1.2.1, q.1.2.2), q.2)) := by
  rw [countedPass, countedPass, GitpResolve.resolvePass, hv]
  cases GitpResolve.resolvePass rt s rest with
  | ok r =>
    have hsub : pendingCount (δ :: rest) - pendingCount (δ :: r.2.1) =
        pendingCount rest - pendingCount r.2.1 := by
      rw [pendingCount_cons, pendingCount_cons, Nat.add_sub_add_right]
    simp only [ok_bind, hsub]
  | error e => rfl
  | panic => rfl

theorem countedPass_some {rt : Runtime} {s u : ObjectStore} {δ : PendingDelta}
    {rest : List PendingDelta} (hv : visitDelta rt s δ = ok (some u)) (count : ℕ) :
    countedPass rt s (δ :: rest) count = (do
      let q ← countedPass rt u rest (count + 1)
      ok ((q.1.1, resolved δ :: q.1.2.1, true), q.2)) := by
  rw [countedPass, countedPass, GitpResolve.resolvePass, hv]
  cases hp : GitpResolve.resolvePass rt u rest with
  | ok r =>
    have hle : pendingCount r.2.1 ≤ pendingCount rest :=
      (Nat.le_add_right _ _).trans (resolvePass_count hp).2
    obtain ⟨data, _, _, _, _, hd, _⟩ := visitDelta_eq_some.mp hv
    have hsub : count + (pendingCount (δ :: rest) - pendingCount (resolved δ :: r.2.1)) =
        count + 1 + (pendingCount rest - pendingCount r.2.1) := by
      rw [pendingCount_cons, pendingCount_cons, hd, resolved]
      rw [Option.isSome_some, if_pos rfl, Option.isSome_none, if_neg Bool.false_ne_true]
      omega
    simp only [ok_bind, hp, hsub]
  | error e => simp only [ok_bind, hp, error_bind]
  | panic => simp only [ok_bind, hp, panic_bind]

theorem resolvePass_follows (rt : Runtime) (total : ℕ) (s : ObjectStore) (ds : List PendingDelta)
    (count : ℕ) :
    Follows progress (resolvePass rt progress total s ds count)
      (checked (countedPass rt s ds count))
      (fun r more => count ≤ r.2 ∧ more = counting .resolveDeltas total count (r.2 - count))
      (fun more => more <+: counting .resolveDeltas total count (pendingCount ds)) := by
  induction ds generalizing s count with
  | nil => exact follows_pure ⟨Nat.le_refl _, by simp [counting]⟩
  | cons δ rest ih =>
    rw [resolvePass, pendingCount_cons]
    cases hv : visitDelta rt s δ with
    | error e =>
      rw [countedPass, GitpResolve.resolvePass, hv]
      exact follows_throw List.nil_prefix
    | panic =>
      rw [countedPass, GitpResolve.resolvePass, hv]
      exact follows_throw List.nil_prefix
    | ok visited =>
      cases visited with
      | none =>
        rw [countedPass_none hv, checked_bind]
        refine ((ih s count).mono (fun _ _ h => h) fun more h => ?_).map fun _ _ h => h
        exact h.trans (counting_isPrefix _ _ _ (Nat.le_add_right _ _))
      | some u =>
        obtain ⟨data, _, _, _, _, hd, _⟩ := visitDelta_eq_some.mp hv
        rw [countedPass_some hv, checked_bind, hd, Option.isSome_some, if_pos rfl]
        refine Follows.record (((ih u (count + 1)).mono ?_ ?_).map fun _ _ h => h)
        · rintro r _ ⟨hle, rfl⟩
          refine ⟨by omega, ?_⟩
          rw [show r.2 - count = r.2 - (count + 1) + 1 by omega, counting_succ]
        · intro more h
          rw [counting_succ]
          exact (List.prefix_cons_inj _).mpr h

end

/-! ### The rest of the client -/

/-- `for { ... if !madeProgress { break } }`, and the final check. -/
def resolveLoop (rt : Runtime) (progress : Bool) (total : ℕ) (s : ObjectStore) (count : ℕ) :
    Call Client Stop ObjectStore :=
  ofStep fun c =>
    match _h : (resolvePass rt progress total s s.deltas count).from c with
    | (.ok ((t, ds, true), resolvedCount), c') =>
      (resolveLoop rt progress total { t with deltas := ds } resolvedCount).from c'
    | (.ok ((t, ds, false), _), c') =>
      (checked (do
        failIf (∃ δ ∈ ds, δ.deltaData.isSome) "unresolvable delta"
        ok { t with deltas := ds })).from c'
    | (.error e, c') => (.error e, c')
termination_by pendingCount s.deltas
decreasing_by
  obtain ⟨more, hx, -⟩ := @resolvePass_follows progress rt total s s.deltas count
    c.1 c.2
  have hpass := (congrArg Prod.fst (_h.symm.trans hx)).symm
  cases hp : GitpResolve.resolvePass rt s s.deltas with
  | ok r =>
    rw [countedPass, hp] at hpass
    cases hpass
    have := (resolvePass_count hp).2
    simp only [Bool.toNat_true] at this
    omega
  | error e =>
    rw [countedPass, hp] at hpass
    cases hpass
  | panic =>
    rw [countedPass, hp] at hpass
    cases hpass

def resolveDeltas (rt : Runtime) (progress : Bool) (s : ObjectStore) :
    Call Client Stop ObjectStore := do
  let total := s.deltas.length
  if total > 0 then
    record progress (.stage (ascii "resolving deltas"))
    record progress (.resolveDeltas 0 total)
  resolveLoop rt progress total s 0

/-- `for len(data) > 0` of `parseHeaderOID`, with the position of `data` in the object. -/
def headerLoop (algo : HashAlgorithm) (key data : List UInt8) (missing : String) (pos : ℕ) :
    Outcome OID :=
  if pos < data.length then do
    let rest ← slice data pos data.length
    match indexByte rest 10 with
    | none => error "malformed object header"
    | some nl => do
      let line ← slice rest 0 nl
      if line.length = 0 then error missing
      else if line.length = key.length + algo.hexSize ∧ key.isPrefixOf line then do
        parseHex algo (← slice line key.length line.length)
      else headerLoop algo key data missing (pos + nl + 1)
  else error missing
termination_by data.length - pos

def parseHeaderOID (obj : Object) (key : String) : Outcome OID :=
  headerLoop obj.oid.algo (ascii key) obj.data ("missing object header: " ++ key) 0

/-- `for depth := 0; obj != nil && depth < 8; depth++`, with `depth` turns to go. -/
def peelLoop (store : ObjectStore) : ℕ → Option Object → Outcome Object
  | depth + 1, some obj =>
    if obj.type = ObjCommit then ok obj
    else if obj.type ≠ ObjTag then error "selected ref does not point to a commit"
    else do
      let targetOID ← parseHeaderOID obj "object "
      peelLoop store depth (store.get targetOID)
  | _, _ => error "selected ref does not point to a commit"

def peelToCommit (store : ObjectStore) (obj : Object) : Outcome Object :=
  peelLoop store 8 (some obj)

def isZero (oid : OID) : Bool := oid.hex = List.replicate oid.algo.hexSize 48

/-- From the reference to the tree that is written. -/
def wantedTree (store : ObjectStore) (oid : OID) : Outcome OID :=
  match store.get oid with
  | none => error "selected ref object not found"
  | some wanted => do
    let commit ← peelToCommit store wanted
    let treeOID ← parseHeaderOID commit "tree "
    failIf (isZero treeOID) "commit has no tree"
    ok treeOID

def writingReport : GitpProgress.Report → Report
  | .stage name => .stage name
  | .writing done total => .writing done total

/-- `materialize` on the file system, its reports among the others. -/
def materialize (host : Host) (progress : Bool) (store : ObjectStore) (fuel : ℕ) (treeOID : OID)
    (outDir : Path) : Call Client Stop ℕ :=
  ofStep fun c =>
    let (r, world, log) :=
      (GitpProgress.materialize host.faults progress store fuel treeOID outDir).from (c.1.world, [])
    (r, { c.1 with world := world }, c.2 ++ log.map writingReport)

/-- `defer closeProgress(opts.Progress)`, however the call ends. -/
def closing {α : Type} (progress : Bool) (x : Call Client Stop α) : Call Client Stop α :=
  ofStep fun c =>
    let (r, outside, log) := x.from c
    (r, outside, if progress then log ++ [.close] else log)

/-- `Clone` behind its `defer`. -/
def body (host : Host) (opts : Options) (fuel : ℕ) : Call Client Stop Unit := do
  record opts.progress (.stage (ascii "resolving refs"))
  let refsBuf ← getRefs host.remote opts.url
  let selected ← checked (selectAdvertisedRef host.digests host.fmt refsBuf opts.ref)
  let req ← checked (GitpPktStream.buildUploadPackRequest selected.oid)
  record opts.progress (.stage (ascii "downloading pack"))
  let response ← uploadPack host.remote opts.url req opts.progress
  let pack ← checked (extractPack host.fmt response)
  let store ← parsePack host.zlib opts.progress pack (newObjectStore selected.oid.algo)
  let store ← resolveDeltas host.rt opts.progress store
  let treeOID ← checked (wantedTree store selected.oid)
  let files ← materialize host opts.progress store fuel treeOID opts.outDir
  record opts.progress (.finish files)

def clone (host : Host) (opts : Options) (fuel : ℕ) : Call Client Stop Unit :=
  closing opts.progress (body host opts fuel)

/-! ### Without the progress -/

/-- A call on the file system alone. -/
def onDisk {α : Type} (x : Call World Stop α) : Call Outside Stop α :=
  ofStep fun c => ((x.from c.world).1, { c with world := (x.from c.world).2 })

/-- Everything before the first file: the objects, and the tree to write. -/
def fetch (host : Host) (opts : Options) : Call Outside Stop (ObjectStore × OID) := do
  let refsBuf ← plainExchange host.remote (refsRequest opts.url)
  let selected ← checked (selectAdvertisedRef host.digests host.fmt refsBuf opts.ref)
  let req ← checked (GitpPktStream.buildUploadPackRequest selected.oid)
  let response ← plainExchange host.remote (packRequest opts.url req)
  let store ← checked (receive host.fmt host.zlib selected.oid.algo host.rt response)
  let treeOID ← checked (wantedTree store selected.oid)
  return (store, treeOID)

def plainClone (host : Host) (opts : Options) (fuel : ℕ) : Call Outside Stop Unit := do
  let (store, treeOID) ← fetch host opts
  let _ ← onDisk (GitpCheckout.materialize host.faults store fuel treeOID opts.outDir)

/-! ### What a clone without progress comes to -/

section
variable {host : Host} {opts : Options} {c c' : Outside} {fuel : ℕ}

theorem checked_from {σ α : Type} {x : Outcome α} {s s' : σ} {a : α} :
    (checked x : Call σ Stop α).from s = (.ok a, s') ↔ x = ok a ∧ s' = s := by
  cases x with
  | ok b => simp [checked, eq_comm]
  | error e => simp [checked]
  | panic => simp [checked]

theorem plainExchange_from {remote : Remote} {req : Request} {data : List UInt8} :
    (plainExchange remote req).from c = (.ok data, c') ↔ remote.badURL req.url = none ∧
      (remote.reply (c.sent ++ [req])).data = .ok data ∧
        c' = { c with sent := c.sent ++ [req] } := by
  unfold plainExchange
  cases remote.badURL req.url with
  | some e => simp
  | none =>
    rw [from_bind_eq_ok]
    simp only [send, from_ofStep, from_lift, Prod.mk.injEq, Except.ok.injEq, true_and]
    constructor
    · rintro ⟨_, _, ⟨rfl, rfl⟩, hd, rfl⟩
      refine ⟨?_, rfl⟩
      cases hr : (remote.reply (c.sent ++ [req])).data with
      | error e => rw [hr] at hd; cases hd
      | ok d => rw [hr] at hd; cases hd; rfl
    · rintro ⟨hd, rfl⟩
      exact ⟨_, _, ⟨rfl, rfl⟩, by rw [hd]; rfl, rfl⟩

/-- The replies to the two requests lead to `oid`, and the response holds what is in `store`. -/
structure Fetched (host : Host) (opts : Options) (sent : List Request) (oid : OID)
    (store : ObjectStore) (treeOID : OID) (req : List UInt8) : Prop where
  urls : host.remote.badURL (refsRequest opts.url).url = none ∧
    host.remote.badURL (packRequest opts.url req).url = none
  request : GitpPktStream.buildUploadPackRequest oid = ok req
  selected : ∃ refsBuf capabilities,
    (host.remote.reply (sent ++ [refsRequest opts.url])).data = .ok refsBuf ∧
      selectAdvertisedRef host.digests host.fmt refsBuf opts.ref = ok ⟨oid, capabilities⟩
  received : ∃ response,
    (host.remote.reply (sent ++ [refsRequest opts.url] ++ [packRequest opts.url req])).data =
      .ok response ∧ receive host.fmt host.zlib oid.algo host.rt response = ok store
  wanted : wantedTree store oid = ok treeOID

theorem fetch_from {store : ObjectStore} {treeOID : OID} :
    (fetch host opts).from c = (.ok (store, treeOID), c') ↔ ∃ oid req,
      Fetched host opts c.sent oid store treeOID req ∧
        c' = { c with sent := c.sent ++ [refsRequest opts.url] ++ [packRequest opts.url req] } := by
  simp only [fetch, from_bind_eq_ok, plainExchange_from, checked_from, from_pure, Prod.mk.injEq,
    Except.ok.injEq]
  constructor
  · rintro ⟨refsBuf, _, ⟨hurl, hrefs, rfl⟩, selected, _, ⟨hs, rfl⟩, req, _, ⟨hreq, rfl⟩, response,
      _, ⟨hurl', hpack, rfl⟩, store', _, ⟨hstore, rfl⟩, tree, _, ⟨htree, rfl⟩, ⟨rfl, rfl⟩, rfl⟩
    exact ⟨selected.oid, req, ⟨⟨hurl, hurl'⟩, hreq, ⟨refsBuf, selected.capabilities, hrefs, hs⟩,
      ⟨response, hpack, hstore⟩, htree⟩, rfl⟩
  · rintro ⟨oid, req, ⟨⟨hurl, hurl'⟩, hreq, ⟨refsBuf, capabilities, hrefs, hs⟩,
      ⟨response, hpack, hstore⟩, htree⟩, rfl⟩
    exact ⟨refsBuf, _, ⟨hurl, hrefs, rfl⟩, _, _, ⟨hs, rfl⟩, req, _, ⟨hreq, rfl⟩, response, _,
      ⟨hurl', hpack, rfl⟩, store, _, ⟨hstore, rfl⟩, treeOID, _, ⟨htree, rfl⟩, ⟨rfl, rfl⟩, rfl⟩

theorem plainClone_from : (plainClone host opts fuel).from c = (.ok (), c') ↔
    ∃ oid req store treeOID n w, Fetched host opts c.sent oid store treeOID req ∧
      (GitpCheckout.materialize host.faults store fuel treeOID opts.outDir).from c.world =
        (.ok n, w) ∧
      c' = ⟨w, c.sent ++ [refsRequest opts.url] ++ [packRequest opts.url req]⟩ := by
  simp only [plainClone, from_bind_eq_ok, from_pure, Prod.mk.injEq, true_and, Prod.exists,
    fetch_from]
  constructor
  · rintro ⟨store, treeOID, _, ⟨oid, req, hf, rfl⟩, n, s, hm, rfl⟩
    rw [onDisk, from_ofStep] at hm
    obtain ⟨hn, rfl⟩ := Prod.mk.inj hm
    exact ⟨oid, req, store, treeOID, n, _, hf, Prod.ext hn rfl, rfl⟩
  · rintro ⟨oid, req, store, treeOID, n, w, hf, hm, rfl⟩
    refine ⟨store, treeOID, _, ⟨oid, req, hf, rfl⟩, n, _, ?_, rfl⟩
    rw [onDisk, from_ofStep]
    dsimp only
    rw [hm]

/-- Nothing is written while objects are fetched. -/
theorem fetch_world : ((fetch host opts).from c).2.world = c.world := by
  have hchecked : ∀ {α : Type} (x : Outcome α) (w : World),
      Triple (fun d => d.world = w) (checked x : Call Outside Stop α) (fun _ d => d.world = w)
        (fun d => d.world = w) := by
    intro α x w
    cases x with
    | ok a => exact Triple.pure fun _ h => h
    | error e => exact Triple.throw fun _ h => h
    | panic => exact Triple.throw fun _ h => h
  have hexchange : ∀ (req : Request) (w : World),
      Triple (fun d => d.world = w) (plainExchange host.remote req) (fun _ d => d.world = w)
        (fun d => d.world = w) := by
    intro req w
    unfold plainExchange
    split
    · exact Triple.throw fun _ h => h
    · refine Triple.bind (Q := fun _ (d : Outside) => d.world = w) (fun _ h => h) fun reply => ?_
      exact Triple.lift (fun _ _ _ h => h) fun _ _ _ h => h
  have hfetch : Triple (fun d => d.world = c.world) (fetch host opts) (fun _ d => d.world = c.world)
      (fun d => d.world = c.world) := by
    unfold fetch
    refine (hexchange _ _).bind fun _ => (hchecked _ _).bind fun _ => ?_
    refine (hchecked _ _).bind fun _ => (hexchange _ _).bind fun _ => ?_
    refine (hchecked _ _).bind fun _ => (hchecked _ _).bind fun _ => ?_
    exact Triple.pure fun _ h => h
  exact hfetch.always rfl (fun _ _ h => h) fun _ h => h

end

end GitpClone
