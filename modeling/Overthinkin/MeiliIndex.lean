import Overthinkin.FiniteMap
import Overthinkin.StatefulCall
import Overthinkin.MeiliTransform

/-! The target index as `sync.rs` sees it through the client: a finite map from document id to
document, behind a server that answers each request or fails, with or without an effect.
Nobody else writes to the index. -/
namespace MeiliIndex

open FiniteMap StatefulCall MeiliTransform

abbrev Settings := FMap String Value

/-- A document whose id can be read is stored under it. -/
def Keyed (primaryKey : Option String) (content : FMap String Value) : Prop :=
  ∀ key id document i, primaryKey = some key → content.lookup id = some document →
    documentId document key = .ok i → i = id

structure Index where
  primaryKey : Option String
  content : FMap String Value
  settings : Settings
  keyed : Keyed primaryKey content

def Index.empty (key : String) : Index := ⟨some key, ∅, ∅, by simp [Keyed]⟩

def upsert (key : String) (content : FMap String Value) (document : Value) : FMap String Value :=
  match documentId document key with
  | .ok id => content.insert id document
  | .error _ => content

def upsertAll (key : String) (content : FMap String Value) (documents : List Value) :
    FMap String Value :=
  documents.foldl (upsert key) content

def eraseAll (content : FMap String Value) (ids : List String) : FMap String Value :=
  ids.foldl (fun content id => content.erase id) content

section
variable {key : String} {content : FMap String Value} {documents : List Value}

theorem lookup_upsert {document v : Value} {id : String} :
    (upsert key content document).lookup id = some v ↔
      (documentId document key = .ok id ∧ v = document) ∨
        (documentId document key ≠ .ok id ∧ content.lookup id = some v) := by
  unfold upsert
  cases h : documentId document key with
  | error e => simp
  | ok i =>
    rw [lookup_insert_iff]
    simp [eq_comm]

theorem upsertAll_append (a b : List Value) :
    upsertAll key content (a ++ b) = upsertAll key (upsertAll key content a) b :=
  List.foldl_append

theorem mem_keys_upsertAll {id : String} :
    id ∈ (upsertAll key content documents).keys ↔
      id ∈ content.keys ∨ ∃ v ∈ documents, documentId v key = .ok id := by
  induction documents generalizing content with
  | nil => simp [upsertAll]
  | cons v documents ih =>
    change id ∈ (upsertAll key (upsert key content v) documents).keys ↔ _
    have hv : id ∈ (upsert key content v).keys ↔
        id ∈ content.keys ∨ documentId v key = .ok id := by
      simp only [mem_keys_iff, lookup_upsert]
      by_cases h : documentId v key = .ok id
      · simp [h]
      · simp [h]
    rw [ih, hv]
    simp [or_assoc]

/-- Of documents with different ids each one is stored, and nothing else changes. -/
theorem lookup_upsertAll
    (h : documents.Pairwise fun v w => documentId v key ≠ documentId w key)
    {id : String} {v : Value} :
    (upsertAll key content documents).lookup id = some v ↔
      (v ∈ documents ∧ documentId v key = .ok id) ∨
        ((∀ w ∈ documents, documentId w key ≠ .ok id) ∧ content.lookup id = some v) := by
  induction documents generalizing content with
  | nil => simp [upsertAll]
  | cons w documents ih =>
    obtain ⟨hw, hd⟩ := List.pairwise_cons.mp h
    change (upsertAll key (upsert key content w) documents).lookup id = some v ↔ _
    rw [ih hd, lookup_upsert]
    by_cases he : documentId w key = .ok id
    · have hne : ∀ x ∈ documents, documentId x key ≠ .ok id := by
        intro x hx hxi
        exact hw x hx (he.trans hxi.symm)
      constructor
      · rintro (⟨hm, hi⟩ | ⟨_, ⟨_, rfl⟩ | ⟨hn, _⟩⟩)
        · exact absurd hi (hne v hm)
        · exact .inl ⟨List.mem_cons_self, he⟩
        · exact absurd he hn
      · rintro (⟨hm, hi⟩ | ⟨hn, _⟩)
        · rcases List.mem_cons.mp hm with rfl | hm
          · exact .inr ⟨hne, .inl ⟨he, rfl⟩⟩
          · exact absurd hi (hne v hm)
        · exact absurd he (hn w List.mem_cons_self)
    · simp only [List.mem_cons, forall_eq_or_imp]
      constructor
      · rintro (⟨hm, hi⟩ | ⟨hn, ⟨hi, _⟩ | ⟨_, hl⟩⟩)
        · exact .inl ⟨.inr hm, hi⟩
        · exact absurd hi he
        · exact .inr ⟨⟨he, hn⟩, hl⟩
      · rintro (⟨rfl | hm, hi⟩ | ⟨⟨_, hn⟩, hl⟩)
        · exact absurd hi he
        · exact .inl ⟨hm, hi⟩
        · exact .inr ⟨hn, .inr ⟨he, hl⟩⟩

theorem lookup_eraseAll {ids : List String} {id : String} {v : Value} :
    (eraseAll content ids).lookup id = some v ↔ id ∉ ids ∧ content.lookup id = some v := by
  induction ids generalizing content with
  | nil => simp [eraseAll]
  | cons i ids ih =>
    change (eraseAll (content.erase i) ids).lookup id = some v ↔ _
    rw [ih, lookup_erase_iff, List.mem_cons]
    tauto

theorem eraseAll_append (a b : List String) :
    eraseAll content (a ++ b) = eraseAll (eraseAll content a) b :=
  List.foldl_append

theorem mem_keys_eraseAll {ids : List String} {id : String} :
    id ∈ (eraseAll content ids).keys ↔ id ∉ ids ∧ id ∈ content.keys := by
  simp [mem_keys_iff, lookup_eraseAll]

end

theorem keyed_upsertAll {key : String} {content : FMap String Value}
    (h : Keyed (some key) content) (documents : List Value) :
    Keyed (some key) (upsertAll key content documents) := by
  induction documents generalizing content with
  | nil => exact h
  | cons v documents ih =>
    apply ih
    intro k id document i hk hl hi
    obtain rfl := Option.some.inj hk
    rcases lookup_upsert.mp hl with ⟨hv, rfl⟩ | ⟨_, hl⟩
    · exact Except.ok.inj (hi.symm.trans hv)
    · exact h _ id document i rfl hl hi

theorem keyed_eraseAll {primaryKey : Option String} {content : FMap String Value}
    (h : Keyed primaryKey content) (ids : List String) :
    Keyed primaryKey (eraseAll content ids) := by
  intro k id document i hk hl hi
  exact h k id document i hk (lookup_eraseAll.mp hl).2 hi

def Index.addOrReplace (index : Index) (documents : List Value) : Index :=
  match h : index.primaryKey with
  | some key => { index with
      content := upsertAll key index.content documents
      keyed := by
        rw [h]
        exact keyed_upsertAll (h ▸ index.keyed) documents }
  | none => index

def Index.deleteDocuments (index : Index) (ids : List String) : Index :=
  { index with
    content := eraseAll index.content ids
    keyed := keyed_eraseAll index.keyed ids }

def Index.setSettings (index : Index) (settings : Settings) : Index :=
  { index with settings := settings ∪ index.settings }

def Index.size (index : Index) : ℕ := index.content.keys.card

@[simp] theorem addOrReplace_primaryKey (index : Index) (documents : List Value) :
    (index.addOrReplace documents).primaryKey = index.primaryKey := by
  unfold Index.addOrReplace
  split <;> rfl

theorem addOrReplace_content {index : Index} {key : String} (h : index.primaryKey = some key)
    (documents : List Value) :
    (index.addOrReplace documents).content = upsertAll key index.content documents := by
  unfold Index.addOrReplace
  split
  · rename_i k hk
    obtain rfl : k = key := Option.some.inj (hk.symm.trans h)
    rfl
  · rename_i hk
    cases hk.symm.trans h

/-- How the wait for a task ends. -/
inductive TaskEnd where
  | succeeded
  | failed (error : String)
  | canceled
  | timedOut
  | unreachable (error : Failure)
  deriving DecidableEq

inductive Request where
  | getIndex
  | createIndex (primaryKey : String)
  | setSettings (settings : Settings)
  | addOrReplace (documents : List Value)
  | getDocuments (field : String) (limit offset : ℕ)
  | deleteDocuments (ids : List String)
  | getStats

inductive Reply where
  | failed (error : Failure)
  | notFound
  | index (primaryKey : Option String)
  | task (uid : ℕ) (outcome : TaskEnd)
  | page (results : List Value) (total : ℕ)
  | stats (numberOfDocuments : ℕ)

def Reply.succeeded : Reply → Prop
  | .task _ outcome => outcome = .succeeded
  | _ => False

/-- What becomes of one request. Whatever is not reported as done may still have happened:
`settled`, `stored` and `removed` say which part of it did. -/
structure Fate where
  error : Option Failure
  task : TaskEnd
  settled : Bool
  stored : Value → Bool
  removed : String → Bool
  pageSize : ℕ

def Fate.done (fate : Fate) : Bool := fate.error.isNone && fate.task = .succeeded

/-- A server: the fate of its n-th request, and the order in which it lists documents. -/
structure Meili where
  fate : ℕ → Fate
  order : (content : FMap String Value) →
    { ids : List String // ids.Nodup ∧ ∀ id, id ∈ ids ↔ id ∈ content.keys }

structure Server where
  index : Option Index
  log : List (Request × Reply)

/-- The effect of a request on the index. -/
def Fate.apply (fate : Fate) : Request → Option Index → Option Index
  | .createIndex key, none => if fate.done || fate.settled then some (Index.empty key) else none
  | .setSettings settings, some index =>
    some (if fate.done || fate.settled then index.setSettings settings else index)
  | .addOrReplace documents, some index =>
    some (index.addOrReplace (documents.filter fun v => fate.done || fate.stored v))
  | .deleteDocuments ids, some index =>
    some (index.deleteDocuments (ids.filter fun id => fate.done || fate.removed id))
  | _, index => index

/-- The documents with these ids, cut down to one field. -/
def fields (content : FMap String Value) (field : String) (ids : List String) : List Value :=
  ids.filterMap fun id => (content.lookup id).map (Value.only · field)

/-- A page is never empty before the end and never longer than `limit`. -/
def pageIds (m : Meili) (content : FMap String Value) (size limit offset : ℕ) : List String :=
  ((m.order content).val.drop offset).take (min (max size 1) limit)

def Meili.answer (m : Meili) (n : ℕ) : Request → Option Index → Reply
  | .getIndex, none => .notFound
  | .getIndex, some index => .index index.primaryKey
  | .createIndex _, none => .task n (m.fate n).task
  | .createIndex _, some _ => .task n (.failed "index_already_exists")
  | .getDocuments field limit offset, some index =>
    .page (fields index.content field (pageIds m index.content (m.fate n).pageSize limit offset))
      (m.order index.content).val.length
  | .getStats, some index => .stats index.size
  | .setSettings _, some _ | .addOrReplace _, some _ | .deleteDocuments _, some _ =>
    .task n (m.fate n).task
  | _, none => .failed ["index_not_found"]

def Meili.reply (m : Meili) (n : ℕ) (request : Request) (index : Option Index) : Reply :=
  match (m.fate n).error with
  | some error => .failed error
  | none => m.answer n request index

/-- One exchange with the server. Each is logged, so the log counts the requests. -/
def Meili.exchange (m : Meili) (request : Request) (s : Server) : Reply × Server :=
  let reply := m.reply s.log.length request s.index
  (reply, ⟨(m.fate s.log.length).apply request s.index, s.log ++ [(request, reply)]⟩)

/-- `request(..).await`, with what the client makes of the answer. -/
def request {α : Type} (m : Meili) (r : Request) (decode : Reply → Except Failure α) :
    Call Server Failure α :=
  ofStep fun s => (decode (m.exchange r s).1, (m.exchange r s).2)

def unexpected : Failure := ["unexpected response"]

def Reply.asIndex : Reply → Except Failure (Option (Option String))
  | .index primaryKey => .ok (some primaryKey)
  | .notFound => .ok none
  | .failed error => .error error
  | _ => .error unexpected

def Reply.asTask : Reply → Except Failure (ℕ × TaskEnd)
  | .task uid outcome => .ok (uid, outcome)
  | .failed error => .error error
  | _ => .error unexpected

def Reply.asPage : Reply → Except Failure (List Value × ℕ)
  | .page results total => .ok (results, total)
  | .failed error => .error error
  | _ => .error unexpected

def Reply.asStats : Reply → Except Failure ℕ
  | .stats n => .ok n
  | .failed error => .error error
  | _ => .error unexpected

end MeiliIndex
