import Overthinkin.MeiliIndex
import Overthinkin.MeiliSource

/-! `sync.rs`: one run reads the source, uploads its documents in batches and then deletes
every document that the source no longer generates. Messages on stderr and the elapsed time
are left out. -/
namespace MeiliSync

open StatefulCall MeiliTransform MeiliSource MeiliIndex

def maxBatchDocuments : ℕ := 1024

def maxBatchBytes : ℕ := 8 * 1024 * 1024

/-- `slice::chunks`. -/
def chunks {α : Type} (size : ℕ) (xs : List α) : List (List α) :=
  if _h : xs = [] ∨ size = 0 then [] else xs.take size :: chunks size (xs.drop size)
termination_by xs.length
decreasing_by
  have := List.length_pos_of_ne_nil (not_or.mp _h).1
  rw [List.length_drop]
  omega

theorem flatten_chunks {α : Type} {size : ℕ} (hs : size ≠ 0) (xs : List α) :
    (chunks size xs).flatten = xs := by
  fun_induction chunks size xs with
  | case1 xs h => simp [h.resolve_right hs]
  | case2 xs h ih => rw [List.flatten_cons, ih, List.take_append_drop]

structure Batch where
  values : List Value := []
  bytes : ℕ := 2

def Batch.wouldOverflow (batch : Batch) (document : Document) : Bool :=
  batch.values.length ≥ maxBatchDocuments ||
    batch.bytes + document.bytes + (if batch.values = [] then 0 else 1) > maxBatchBytes

def Batch.push (batch : Batch) (document : Document) : Batch where
  values := batch.values ++ [document.value]
  bytes := batch.bytes + document.bytes + (if batch.values = [] then 0 else 1)

/-- A file given with `--settings`, and what `serde_ignored` makes of its text: the settings
with the names of unknown fields, and whether anything follows them. -/
structure SettingsFile where
  path : String
  text : Except Failure String
  parsed : String → Except Failure (Settings × List String)
  ends : String → Except Failure Unit

def loadSettings (file : SettingsFile) : Except Failure Settings := do
  let text ← context s!"read {file.path}" file.text
  let (settings, unknown) ← context s!"parse settings {file.path}" (file.parsed text)
  context s!"trailing content in settings {file.path}" (file.ends text)
  let names := String.intercalate ", " unknown
  ensure (unknown = []) s!"unknown or SDK-unsupported settings in {file.path}: {names}"
  return settings

/-- A path given with `--report`, and how the file operations on it end. -/
structure ReportFile where
  path : String
  parent : String
  tryExists : Except Failure Bool
  isSymlink : Bool
  created : Except Failure Unit
  written : Except Failure Unit
  synced : Except Failure Unit
  persisted : Except Failure Unit

def prepareReport (file : ReportFile) : Except Failure Unit := do
  let found ← context s!"check report path {file.path}" file.tryExists
  ensure (found = false ∧ file.isSymlink = false)
    s!"report path {file.path} already exists; refusing to overwrite"
  context s!"prepare report in {file.parent}" file.created

def publishReport (file : ReportFile) : Except Failure Unit := do
  context "write success report" file.written
  context "sync success report" file.synced
  context "publish success report without overwriting" file.persisted

/-- The command line, and what opening the files and the client it names comes to. -/
structure Cli where
  index : String
  primaryKey : String
  allowEmpty : Bool
  startedAtUnix : Except Failure ℕ
  source : Except Failure Source
  sqlite : String
  canonicalized : Except Failure String
  settings : Option SettingsFile
  report : Option ReportFile
  client : Except Failure Unit
  finishedAtUnix : Except Failure ℕ
  stdout : Except Failure Unit

structure Report where
  status : String
  sqlite : String
  index : String
  primaryKey : String
  counts : Counts
  deletedDocuments : ℕ
  indexedDocuments : ℕ
  startedAtUnix : ℕ
  finishedAtUnix : ℕ
  deriving DecidableEq, Repr

section
variable (m : Meili)

def wait (stage : String) (uid : ℕ) : TaskEnd → Except Failure Unit
  | .succeeded => .ok ()
  | .failed error => .error [s!"{stage}: task {uid} failed: {error}"]
  | .canceled => .error [s!"{stage}: task {uid} did not succeed"]
  | .timedOut => .error [s!"{stage}: task {uid} timed out; server state may be unknown"]
  | .unreachable error => .error (s!"{stage}: wait for task {uid}" :: error)

/-- Submit a task and wait for its end. -/
def perform (r : Request) (submitting stage : String) : Call Server Failure Unit := do
  let (uid, outcome) ← request m r fun reply => context submitting reply.asTask
  lift (wait stage uid outcome)

def targetIndex (primaryKey : String) : Call Server Failure Unit := do
  match ← request m .getIndex fun reply => context "check target index" reply.asIndex with
  | some found =>
    lift (ensure (found = some primaryKey)
      (s!"target primary key {debugOption found} does not match " ++
      s!"{debug primaryKey}; refusing to modify index"))
  | none => perform m (.createIndex primaryKey) "submit index creation" "create index"

def upload (batch : Batch) (number : ℕ) : Call Server Failure Unit :=
  let stage := s!"batch {number} ({batch.values.length} documents, {batch.bytes} bytes)"
  perform m (.addOrReplace batch.values) s!"submit {stage}" stage

/-- A batch that the document does not fit into is uploaded and replaced by an empty one. -/
def makeRoom (document : Document) (batch : Batch) (number : ℕ) :
    Call Server Failure (Batch × ℕ) :=
  if batch.wouldOverflow document then do
    upload m batch (number + 1)
    return ({}, number + 1)
  else return (batch, number)

/-- The upload loop; `next` is the document read ahead. -/
def uploadLoop (next : Option Document) (documents : Documents) (batch : Batch) (number : ℕ) :
    Call Server Failure (Documents × Batch × ℕ) :=
  match next with
  | none => pure (documents, batch, number)
  | some document => do
    let (batch, number) ← makeRoom m document batch number
    match _h : documents.next with
    | .error e => throw e
    | .ok (next, rest) => uploadLoop next rest (batch.push document) number
termination_by documents.rows.length + next.toList.length
decreasing_by
  cases next with
  | none => simp [next_none _h]
  | some d => simp [next_some _h]

/-- The ids of a page: those that were generated are counted, the others are kept. -/
def classify (primaryKey : String) (ids : Finset String) :
    List Value → List String → ℕ → Except Failure (List String × ℕ)
  | [], stale, retained => .ok (stale, retained)
  | document :: rest, stale, retained => do
    let id ← context "read target primary key before cleanup" (documentId document primaryKey)
    if id ∈ ids then classify primaryKey ids rest stale (retained + 1)
    else classify primaryKey ids rest (stale ++ [id]) retained

def getDocuments (primaryKey : String) (offset : ℕ) : Call Server Failure (List Value × ℕ) :=
  request m (.getDocuments primaryKey maxBatchDocuments offset) fun reply =>
    context "enumerate target documents before cleanup" reply.asPage

/-- What the server will report as the total. -/
def total (s : Server) : ℕ :=
  match s.index with
  | some index => (m.order index.content).val.length
  | none => 0

variable {m} in
theorem getDocuments_ok {primaryKey : String} {offset n : ℕ} {results : List Value} {s s' : Server}
    (h : (getDocuments m primaryKey offset).from s = (.ok (results, n), s')) :
    ∃ index, s.index = some index ∧ n = (m.order index.content).val.length ∧
      results = fields index.content primaryKey (pageIds m index.content
        (m.fate s.log.length).pageSize maxBatchDocuments offset) ∧
      s' = ⟨s.index, s.log ++
        [(.getDocuments primaryKey maxBatchDocuments offset, .page results n)]⟩ := by
  simp only [getDocuments, request, from_ofStep, Meili.exchange, Meili.reply, Prod.mk.injEq,
    context_eq_ok] at h
  obtain ⟨hr, rfl⟩ := h
  cases he : (m.fate s.log.length).error with
  | some e => simp [he, Reply.asPage] at hr
  | none =>
    rw [he] at hr
    cases hi : s.index with
    | none => simp [hi, Meili.answer, Reply.asPage] at hr
    | some index =>
      simp only [hi, Meili.answer, Reply.asPage, Except.ok.injEq, Prod.mk.injEq] at hr
      obtain ⟨rfl, rfl⟩ := hr
      exact ⟨index, rfl, rfl, rfl, by simp [Fate.apply, Meili.answer]⟩

/-- The enumeration loop: the stale ids and the number of those retained. -/
def enumerate (primaryKey : String) (ids : Finset String) (offset : ℕ) (stale : List String)
    (retained : ℕ) (s : Server) : Except Failure (List String × ℕ) × Server :=
  match _h : (getDocuments m primaryKey offset).from s with
  | (.error e, s') => (.error e, s')
  | (.ok (results, n), s') =>
    if _hr : results = [] then (.ok (stale, retained), s')
    else match classify primaryKey ids results stale retained with
      | .error e => (.error e, s')
      | .ok (stale, retained) =>
        if _ho : offset + results.length ≥ n then (.ok (stale, retained), s')
        else enumerate primaryKey ids (offset + results.length) stale retained s'
termination_by total m s - offset
decreasing_by
  obtain ⟨index, hi, hn, _, rfl⟩ := getDocuments_ok _h
  have hp : 0 < results.length := List.length_pos_of_ne_nil _hr
  have ht : total m s = n := by simp [total, hi, hn]
  simp only [total] at ht ⊢
  omega

def deleteBatches : List (List String) → ℕ → Call Server Failure Unit
  | [], _ => pure ()
  | batch :: rest, number => do
    let stage := s!"delete batch {number + 1} ({batch.length} documents)"
    perform m (.deleteDocuments batch) s!"submit {stage}" stage
    deleteBatches rest (number + 1)

/-- Deleting starts after the enumeration, because it would shift the later offsets. -/
def removeStale (primaryKey : String) (ids : Finset String) : Call Server Failure ℕ := do
  let (stale, retained) ← ofStep (enumerate m primaryKey ids 0 [] 0)
  lift (ensure (retained = ids.card) ("target is missing synchronized documents: " ++
    s!"expected {ids.card}, found {retained}; refusing cleanup"))
  deleteBatches m (chunks maxBatchDocuments stale) 0
  return stale.length

/-- Where a run stands before it contacts the server: the first document is read ahead. -/
structure Opened where
  startedAtUnix : ℕ
  sqlitePath : String
  settings : Option Settings
  next : Option Document
  documents : Documents

def Cli.opened (cli : Cli) : Except Failure Opened := do
  let startedAtUnix ← cli.startedAtUnix
  let source ← cli.source
  let sqlitePath ← context s!"resolve SQLite path {cli.sqlite}" cli.canonicalized
  let statement ← source.prepare
  let documents ← Documents.new statement source.transformer cli.primaryKey
  let settings ← cli.settings.mapM loadSettings
  let _ ← cli.report.mapM prepareReport
  let (next, documents) ← documents.next
  ensure (next.isSome ∨ cli.allowEmpty)
    "no documents generated; use --allow-empty to permit clearing the target index"
  return ⟨startedAtUnix, sqlitePath, settings, next, documents⟩

/-- The rows of the query, before any is read. -/
def Cli.documents (cli : Cli) : Except Failure Documents := do
  let source ← cli.source
  let statement ← source.prepare
  Documents.new statement source.transformer cli.primaryKey

theorem opened_ok {cli : Cli} {opened : Opened} (h : cli.opened = .ok opened) :
    ∃ start, cli.documents = .ok start ∧ start.next = .ok (opened.next, opened.documents) ∧
      (opened.next.isSome ∨ cli.allowEmpty) := by
  simp only [Cli.opened, bind_eq_ok, ensure_eq_ok] at h
  obtain ⟨_, _, source, hs, _, _, statement, hp, start, hd, _, _, _, _, next, hn, _, he, h⟩ := h
  cases h
  exact ⟨start, bind_eq_ok.mpr ⟨source, hs, bind_eq_ok.mpr ⟨statement, hp, hd⟩⟩, hn, he⟩

def applySettings : Option Settings → Call Server Failure Unit
  | some settings => perform m (.setSettings settings) "submit index settings" "apply settings"
  | none => pure ()

/-- The last batch of the loop, unless it is empty. -/
def uploadRest (batch : Batch) (number : ℕ) : Call Server Failure Unit :=
  if batch.values ≠ [] then upload m batch (number + 1) else pure ()

def publish (cli : Cli) : Except Failure Unit :=
  match cli.report with
  | some file => context s!"publish success report {file.path}" (publishReport file)
  | none => context "write success report to stdout" cli.stdout

def run (cli : Cli) : Call Server Failure Report := do
  let opened ← lift cli.opened
  lift cli.client
  targetIndex m cli.primaryKey
  applySettings m opened.settings
  let (documents, batch, number) ← uploadLoop m opened.next opened.documents {} 0
  uploadRest m batch number
  let deleted ← removeStale m cli.primaryKey documents.ids
  let indexed ← request m .getStats fun reply => context "read final index stats" reply.asStats
  lift (ensure (indexed = documents.counts.documents) ("document count mismatch: generated " ++
    s!"{documents.counts.documents}, indexed {indexed}"))
  let finishedAtUnix ← lift cli.finishedAtUnix
  lift (publish cli)
  return {
    status := "succeeded"
    sqlite := opened.sqlitePath
    index := cli.index
    primaryKey := cli.primaryKey
    counts := documents.counts
    deletedDocuments := deleted
    indexedDocuments := indexed
    startedAtUnix := opened.startedAtUnix
    finishedAtUnix := finishedAtUnix }

end

end MeiliSync
