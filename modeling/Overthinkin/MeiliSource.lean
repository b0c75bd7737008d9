import Overthinkin.MeiliTransform
import Mathlib.Data.Finset.Card

/-! `source.rs`: the rows of one SQL query become documents with pairwise different ids. What
SQLite returns, errors included, is a list of rows. -/
namespace MeiliSource

open MeiliTransform

inductive SqlValue where
  | null
  | integer (n : Int64)
  | real (x : F64)
  | text (bytes : List UInt8)
  | blob

abbrev Row := List SqlValue

/-- A `BTreeMap` keeps its keys sorted, and a later value replaces an earlier one. -/
def insertEntry (name : String) (value : MeiliTransform.Dynamic) : Map → Map
  | [] => [(name, value)]
  | (k, v) :: rest =>
    if name = k then (name, value) :: rest
    else if name < k then (name, value) :: (k, v) :: rest
    else (k, v) :: insertEntry name value rest

def columnValue (name : String) : SqlValue → Except Failure MeiliTransform.Dynamic
  | .null => return .unit
  | .integer n => return .int n
  | .real x => do
    ensure (x.isFinite = true) s!"column {debug name} contains a non-finite number"
    return .float x
  | .text bytes => do
    ensure (bytes.length ≤ maxDocumentBytes) s!"column {debug name} exceeds size limit"
    match String.fromUTF8? ⟨bytes.toArray⟩ with
    | some s => return .string s
    | none => throw [s!"column {debug name} is not UTF-8"]
  | .blob => throw [s!"column {debug name} is a BLOB; convert it explicitly in SQL"]

def rowToMap (row : Row) (columns : List String) : Except Failure Map :=
  columns.zipIdx.foldlM (fun input (name, i) => do
    let value ← match row[i]? with
      | some value => columnValue name value
      | none => .error [s!"read column {debug name}", s!"Invalid column index: {i}"]
    return insertEntry name value input) []

/-- A prepared statement; `rows` is what `query([])` yields when it is stepped. -/
structure Statement where
  readonly : Bool
  columnNames : List String
  parameterCount : ℕ
  query : Except Failure (List (Except Failure Row))

/-- `connection.prepare(&self.sql)`, and the script. -/
structure Source where
  prepared : Except Failure Statement
  transformer : Transformer

def Source.prepare (source : Source) : Except Failure Statement := do
  let statement ← context "prepare read-only SQL query" source.prepared
  ensure (statement.readonly = true ∧ statement.columnNames ≠ [])
    "SQL must be one read-only query returning columns"
  ensure (statement.parameterCount = 0) "SQL query must not contain unbound parameters"
  ensure statement.columnNames.Nodup
    "duplicate SQL column names; give each column a unique alias"
  return statement

structure Counts where
  rowsRead : ℕ := 0
  rowsSkipped : ℕ := 0
  documents : ℕ := 0
  deriving DecidableEq, Repr

structure Document where
  value : Value
  bytes : ℕ

structure Documents where
  rows : List (Except Failure Row)
  columns : List String
  transformer : Transformer
  primaryKey : String
  ids : Finset String
  counts : Counts

def Documents.new (statement : Statement) (transformer : Transformer) (primaryKey : String) :
    Except Failure Documents := do
  let rows ← context "start SQL query" statement.query
  return ⟨rows, statement.columnNames, transformer, primaryKey, ∅, {}⟩

/-- The loop of `next` over the rows that are left. -/
def nextOf : List (Except Failure Row) → Documents → Except Failure (Option Document × Documents)
  | [], d => return (none, { d with rows := [] })
  | row :: rows, d => do
    let row ← context s!"read SQL row {d.counts.rowsRead + 1}" row
    let n := d.counts.rowsRead + 1
    let input ← context s!"decode SQL row {n}" (rowToMap row d.columns)
    let converted ← context s!"transform SQL row {n}" (d.transformer.apply input)
    match converted with
    | none =>
      nextOf rows { d with
        counts := { d.counts with rowsRead := n, rowsSkipped := d.counts.rowsSkipped + 1 } }
    | some value =>
      let id ← context s!"validate SQL row {n}" (documentId value d.primaryKey)
      ensure (id ∉ d.ids) s!"SQL row {n}: duplicate document primary key {debug id}"
      let bytes := (toJson value).utf8ByteSize
      ensure (bytes ≤ maxDocumentBytes) (s!"SQL row {n}: document {debug id} is too large: " ++
        s!"{bytes} bytes (max {maxDocumentBytes})")
      return (some ⟨value, bytes⟩, { d with
        rows := rows
        ids := insert id d.ids
        counts := { d.counts with rowsRead := n, documents := d.counts.documents + 1 } })

def Documents.next (d : Documents) : Except Failure (Option Document × Documents) :=
  nextOf d.rows d

/-- What one row of the query becomes: a document, nothing, or an error. -/
def Documents.convert (d : Documents) (row : Except Failure Row) :
    Except Failure (Option Value) := do
  d.transformer.apply (← rowToMap (← row) d.columns)

/-- The documents that rows stand for, whether or not they can be accepted. -/
def Documents.generatedBy (d : Documents) (rows : List (Except Failure Row)) : List Value :=
  rows.filterMap fun row => match d.convert row with
    | .ok value => value
    | .error _ => none

def Documents.generated (d : Documents) : List Value := d.generatedBy d.rows

def Documents.generatedIds (d : Documents) : Finset String :=
  (d.generated.filterMap fun v => (documentId v d.primaryKey).toOption).toFinset

theorem mem_generatedIds {d : Documents} {id : String} :
    id ∈ d.generatedIds ↔ ∃ v ∈ d.generated, documentId v d.primaryKey = .ok id := by
  have ht : ∀ x : Except Failure String, x.toOption = some id ↔ x = .ok id := by
    intro x
    cases x <;> simp [Except.toOption]
  simp [Documents.generatedIds, ht]

/-- The source can be read to its end and every document it generates is acceptable. -/
structure Documents.Complete (d : Documents) : Prop where
  readable : ∀ row ∈ d.rows, ∃ value, d.convert row = .ok value
  identified : ∀ v ∈ d.generated, ∃ id, documentId v d.primaryKey = .ok id
  distinct : d.generated.Pairwise fun v w => documentId v d.primaryKey ≠ documentId w d.primaryKey
  small : ∀ v ∈ d.generated, (toJson v).utf8ByteSize ≤ maxDocumentBytes

/-- After `seen` documents, with `rows` left, an iterator that began as `start`. -/
structure Consistent (start : Documents) (seen : List Document) (rows : List (Except Failure Row))
    (d : Documents) : Prop where
  columns : d.columns = start.columns
  transformer : d.transformer = start.transformer
  primaryKey : d.primaryKey = start.primaryKey
  consumed : ∃ before, start.rows = before ++ rows ∧
    ∀ row ∈ before, ∃ value, start.convert row = .ok value
  generated : start.generated = seen.map (·.value) ++ start.generatedBy rows
  identified : ∀ document ∈ seen, ∃ id, documentId document.value start.primaryKey = .ok id
  distinct : seen.Pairwise fun a b =>
    documentId a.value start.primaryKey ≠ documentId b.value start.primaryKey
  small : ∀ document ∈ seen, (toJson document.value).utf8ByteSize ≤ maxDocumentBytes
  sized : ∀ document ∈ seen, document.bytes = (toJson document.value).utf8ByteSize
  ids : ∀ id, id ∈ d.ids ↔ ∃ document ∈ seen, documentId document.value start.primaryKey = .ok id
  card : d.ids.card = seen.length
  documents : d.counts.documents = seen.length
  rowsRead : d.counts.rowsRead = d.counts.rowsSkipped + d.counts.documents

section
variable {start d d' : Documents} {seen : List Document} {rows : List (Except Failure Row)}
  {row : Except Failure Row}

theorem generatedBy_cons_ok {out : Option Value} (h : d.convert row = .ok out) :
    d.generatedBy (row :: rows) = out.toList ++ d.generatedBy rows := by
  cases out with
  | none => simp [Documents.generatedBy, h]
  | some v => simp [Documents.generatedBy, h]

theorem convert_congr (hc : d.columns = start.columns) (ht : d.transformer = start.transformer) :
    d.convert row = start.convert row := by
  unfold Documents.convert
  rw [hc, ht]

/-- Reading one more row moves it from the rest to the rows consumed. -/
theorem Consistent.consume (h : Consistent start seen (row :: rows) d) {out : Option Value}
    (hr : start.convert row = .ok out) :
    ∃ before, start.rows = before ++ rows ∧
      ∀ r ∈ before, ∃ value, start.convert r = .ok value := by
  obtain ⟨before, hs, hb⟩ := h.consumed
  refine ⟨before ++ [row], by simp [hs], ?_⟩
  intro r hm
  rcases List.mem_append.mp hm with hm | hm
  · exact hb r hm
  · exact ⟨out, by rwa [List.mem_singleton.mp hm]⟩

theorem Consistent.skip (h : Consistent start seen (row :: rows) d)
    (hr : start.convert row = .ok none) :
    Consistent start seen rows { d with counts :=
      { d.counts with rowsRead := d.counts.rowsRead + 1,
                      rowsSkipped := d.counts.rowsSkipped + 1 } } where
  columns := h.columns
  transformer := h.transformer
  primaryKey := h.primaryKey
  consumed := h.consume hr
  generated := by rw [h.generated, generatedBy_cons_ok hr]; rfl
  identified := h.identified
  distinct := h.distinct
  small := h.small
  sized := h.sized
  ids := h.ids
  card := h.card
  documents := h.documents
  rowsRead := by
    have hn := h.rowsRead
    simp only
    omega

theorem Consistent.accept (h : Consistent start seen (row :: rows) d) {value : Value} {id : String}
    (hr : start.convert row = .ok (some value)) (hi : documentId value start.primaryKey = .ok id)
    (hn : id ∉ d.ids) (hb : (toJson value).utf8ByteSize ≤ maxDocumentBytes) :
    Consistent start (seen ++ [⟨value, (toJson value).utf8ByteSize⟩]) rows { d with
      rows := rows
      ids := insert id d.ids
      counts := { d.counts with rowsRead := d.counts.rowsRead + 1,
                                documents := d.counts.documents + 1 } } where
  columns := h.columns
  transformer := h.transformer
  primaryKey := h.primaryKey
  consumed := h.consume hr
  generated := by rw [h.generated, generatedBy_cons_ok hr]; simp
  identified := by
    intro document hm
    rcases List.mem_append.mp hm with hm | hm
    · exact h.identified document hm
    · exact ⟨id, by rw [List.mem_singleton.mp hm]; exact hi⟩
  distinct := by
    rw [List.pairwise_append]
    refine ⟨h.distinct, List.pairwise_singleton _ _, ?_⟩
    intro a ha b hb' he
    rw [List.mem_singleton.mp hb', hi] at he
    exact hn ((h.ids id).mpr ⟨a, ha, he⟩)
  small := by
    intro document hm
    rcases List.mem_append.mp hm with hm | hm
    · exact h.small document hm
    · rw [List.mem_singleton.mp hm]; exact hb
  sized := by
    intro document hm
    rcases List.mem_append.mp hm with hm | hm
    · exact h.sized document hm
    · rw [List.mem_singleton.mp hm]
  ids := by
    intro x
    rw [Finset.mem_insert, h.ids]
    constructor
    · rintro (rfl | ⟨a, ha, hx⟩)
      · exact ⟨_, List.mem_append_right _ (List.mem_singleton.mpr rfl), hi⟩
      · exact ⟨a, List.mem_append_left _ ha, hx⟩
    · rintro ⟨a, ha, hx⟩
      rcases List.mem_append.mp ha with ha | ha
      · exact .inr ⟨a, ha, hx⟩
      · rw [List.mem_singleton.mp ha, hi] at hx
        exact .inl (Except.ok.inj hx).symm
  card := by rw [Finset.card_insert_of_notMem hn, h.card]; simp
  documents := by simp [h.documents]
  rowsRead := by
    have hn := h.rowsRead
    simp only
    omega

/-- A row that `next` gets past is either skipped or the document it returns. -/
theorem nextOf_cons_ok {out : Option Document} (h : nextOf (row :: rows) d = .ok (out, d')) :
    (d.convert row = .ok none ∧ nextOf rows { d with counts :=
        { d.counts with rowsRead := d.counts.rowsRead + 1,
                        rowsSkipped := d.counts.rowsSkipped + 1 } } = .ok (out, d')) ∨
      ∃ value id, d.convert row = .ok (some value) ∧ documentId value d.primaryKey = .ok id ∧
        id ∉ d.ids ∧ (toJson value).utf8ByteSize ≤ maxDocumentBytes ∧
        out = some ⟨value, (toJson value).utf8ByteSize⟩ ∧ d' = { d with
          rows := rows
          ids := insert id d.ids
          counts := { d.counts with rowsRead := d.counts.rowsRead + 1,
                                    documents := d.counts.documents + 1 } } := by
  unfold nextOf at h
  simp only [bind_eq_ok, context_eq_ok] at h
  obtain ⟨r, hr, input, hi, converted, hc, h⟩ := h
  have hv : d.convert row = .ok converted :=
    bind_eq_ok.mpr ⟨r, hr, bind_eq_ok.mpr ⟨input, hi, hc⟩⟩
  cases converted with
  | none => exact .inl ⟨hv, h⟩
  | some value =>
    simp only [bind_eq_ok, context_eq_ok, ensure_eq_ok] at h
    obtain ⟨id, hid, _, hn, _, hb, h⟩ := h
    cases h
    exact .inr ⟨value, id, hv, hid, hn, hb, rfl, rfl⟩

theorem nextOf_some {document : Document} (h : nextOf rows d = .ok (some document, d')) :
    d'.rows.length < rows.length := by
  induction rows generalizing d with
  | nil => cases h
  | cons row rows ih =>
    rcases nextOf_cons_ok h with ⟨_, hn⟩ | ⟨value, id, _, _, _, _, _, hd⟩
    · exact (ih hn).trans (Nat.lt_succ_self _)
    · rw [hd]; exact Nat.lt_succ_self _

theorem nextOf_none (h : nextOf rows d = .ok (none, d')) : d'.rows = [] := by
  induction rows generalizing d with
  | nil => cases h; rfl
  | cons row rows ih =>
    rcases nextOf_cons_ok h with ⟨_, hn⟩ | ⟨value, id, _, _, _, _, hs, _⟩
    · exact ih hn
    · cases hs

theorem next_some {document : Document} (h : d.next = .ok (some document, d')) :
    d'.rows.length < d.rows.length := nextOf_some h

theorem nextOf_consistent {out : Option Document} (h : Consistent start seen rows d)
    (hn : nextOf rows d = .ok (out, d')) : Consistent start (seen ++ out.toList) d'.rows d' := by
  induction rows generalizing d with
  | nil =>
    cases hn
    rw [Option.toList_none, List.append_nil]
    exact ⟨h.columns, h.transformer, h.primaryKey, h.consumed, h.generated, h.identified,
      h.distinct, h.small, h.sized, h.ids, h.card, h.documents, h.rowsRead⟩
  | cons row rows ih =>
    have hc : d.convert row = start.convert row := convert_congr h.columns h.transformer
    rcases nextOf_cons_ok hn with ⟨hr, hn⟩ | ⟨value, id, hr, hi, hf, hb, rfl, rfl⟩
    · exact ih (h.skip (hc ▸ hr)) hn
    · exact h.accept (hc ▸ hr) (h.primaryKey ▸ hi) hf hb

theorem next_none (h : d.next = .ok (none, d')) : d'.rows = [] := nextOf_none h

/-- One call of `next`: a document more, or the end of the rows. -/
theorem next_consistent {out : Option Document} (h : Consistent start seen d.rows d)
    (hn : d.next = .ok (out, d')) : Consistent start (seen ++ out.toList) d'.rows d' :=
  nextOf_consistent h hn

/-- Once the rows are used up, the source was complete and `seen` is all it generates. -/
theorem Consistent.complete (h : Consistent start seen [] d) :
    start.Complete ∧ start.generated = seen.map (·.value) := by
  have hg : start.generated = seen.map (·.value) := by
    rw [h.generated]
    exact List.append_nil _
  obtain ⟨before, hs, hb⟩ := h.consumed
  refine ⟨⟨?_, ?_, ?_, ?_⟩, hg⟩
  · intro row hm
    rw [hs, List.append_nil] at hm
    exact hb row hm
  · intro v hm
    rw [hg] at hm
    obtain ⟨document, hd, rfl⟩ := List.mem_map.mp hm
    exact h.identified document hd
  · rw [hg, List.pairwise_map]
    exact h.distinct
  · intro v hm
    rw [hg] at hm
    obtain ⟨document, hd, rfl⟩ := List.mem_map.mp hm
    exact h.small document hd

end

theorem new_consistent {statement : Statement} {transformer : Transformer} {primaryKey : String}
    {d : Documents} (h : Documents.new statement transformer primaryKey = .ok d) :
    d.primaryKey = primaryKey ∧ Consistent d [] d.rows d := by
  unfold Documents.new at h
  obtain ⟨rows, -, h⟩ := bind_eq_ok.mp h
  cases h
  exact ⟨rfl, rfl, rfl, rfl, ⟨[], rfl, by simp⟩, rfl, by simp, .nil, by simp, by simp, by simp, rfl,
    rfl, rfl⟩

end MeiliSource
