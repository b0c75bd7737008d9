import Overthinkin.GreedyGroups
import Overthinkin.MeiliFullSync

/-! The batches that `sync::run` uploads: the loop is the greedy grouping of the document
stream, one upload after the other, and `bytes` is the size of what is sent. -/
namespace MeiliBatches

open GreedyGroups StatefulCall MeiliTransform MeiliSource MeiliIndex MeiliSync MeiliRun
  MeiliFullSync

/-- A document as `Documents::next` returns it. -/
def documentOf (value : Value) : Document := ⟨value, (toJson value).utf8ByteSize⟩

/-- `Batch::default()` after a `push` of each value. The loop uploads no other batches
(`uploadLoop_eq`). -/
def batchOf (values : List Value) : Batch := (values.map documentOf).foldl Batch.push {}

/-- The value does not fit into the batch. -/
def full (values : List Value) (value : Value) : Bool :=
  (batchOf values).wouldOverflow (documentOf value)

def arrayBytes (values : List Value) : ℕ := (toJson (.array values)).utf8ByteSize

/-- The two limits on a batch. -/
structure Within (values : List Value) : Prop where
  few : values.length ≤ maxBatchDocuments
  small : arrayBytes values ≤ maxBatchBytes

/-- What the batches of a run are in relation to the values that its source generates. -/
structure Batched (generated : List Value) (batches : List (List Value)) : Prop where
  divided : batches.flatten <+: generated
  nonempty : ∀ batch ∈ batches, batch ≠ []
  accounted : ∀ batch ∈ batches, (batchOf batch).bytes = arrayBytes batch
  within : ∀ batch ∈ batches, Within batch
  maximal : ∀ before batch after value rest, batches = before ++ batch :: after →
    generated = (before ++ [batch]).flatten ++ value :: rest → ¬ Within (batch ++ [value])

/-- The batches that a log holds, in order. -/
def sent (log : Log) : List (List Value) :=
  log.filterMap fun e => match e.1 with
    | .addOrReplace documents => some documents
    | _ => none

section
variable {values : List Value} {value : Value}

theorem Batched.nil : Batched values [] where
  divided := List.nil_prefix
  nonempty := by simp
  accounted := by simp
  within := by simp
  maximal := by simp

end

/-- The values that are left to read, the one read ahead first, and how reading ends. -/
def readAll (next : Option Document) (documents : Documents) :
    List Value × Except Failure Documents :=
  match next with
  | none => ([], .ok documents)
  | some document =>
    match _h : documents.next with
    | .error e => ([document.value], .error e)
    | .ok (next, rest) => (document.value :: (readAll next rest).1, (readAll next rest).2)
termination_by documents.rows.length + next.toList.length
decreasing_by
  all_goals
    cases next with
    | none => simp [next_none _h]
    | some d => simp [next_some _h]

section
variable {m : Meili} {start documents : Documents} {next : Option Document} {seen : List Document}

end

/-- The batches were uploaded, and the enumeration of the index has not begun. -/
structure Sending (batches : List (List Value)) (log : Log) : Prop where
  sent : sent log = batches
  unlisted : ∀ field limit offset reply, (.getDocuments field limit offset, reply) ∉ log

/-- The requests before the first upload. -/
def Prepares : Request → Prop
  | .getIndex | .createIndex _ | .setSettings _ => True
  | _ => False

section
variable {m : Meili} {batches : List (List Value)} {log : Log} {reply : Reply} {r : Request}

theorem sent_other (hr : ∀ documents, r ≠ .addOrReplace documents) :
    sent (log ++ [(r, reply)]) = sent log := by
  cases r with
  | addOrReplace documents => exact absurd rfl (hr documents)
  | _ => simp [sent]

theorem Sending.prepare (h : Sending batches log) (hr : Prepares r) :
    Sending batches (log ++ [(r, reply)]) where
  sent := by
    rw [sent_other, h.sent]
    rintro documents rfl
    exact hr
  unlisted := by
    intro field limit offset reply' hm
    rcases List.mem_append.mp hm with hm | hm
    · exact h.unlisted field limit offset reply' hm
    · obtain ⟨rfl, -⟩ := Prod.mk.inj (List.mem_singleton.mp hm)
      exact hr

theorem Sending.upload (h : Sending batches log) (batch : List Value) :
    Sending (batches ++ [batch]) (log ++ [(.addOrReplace batch, reply)]) where
  sent := by
    rw [← h.sent]
    simp [MeiliBatches.sent]
  unlisted := by
    intro field limit offset reply' hm
    rcases List.mem_append.mp hm with hm | hm
    · exact h.unlisted field limit offset reply' hm
    · cases (Prod.mk.inj (List.mem_singleton.mp hm)).1

section
variable {I J : Log → Prop}

end

end

section
variable {m : Meili} {cli : Cli} {start : Documents} {initial : Option Index}

end

end MeiliBatches
