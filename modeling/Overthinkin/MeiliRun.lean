import Overthinkin.EventTrace
import Overthinkin.MeiliSync

/-! What holds of the server at every point where a run can stop. Until the first deletion the
index only gains documents; a deletion is requested only once the index holds every generated
document. -/
namespace MeiliRun

open FiniteMap StatefulCall MeiliTransform MeiliSource MeiliIndex MeiliSync

abbrev Log := List (Request × Reply)

def contentOf : Option Index → FMap String Value
  | some index => index.content
  | none => ∅

def uploads (log : Log) : List Value :=
  log.flatMap fun e => match e.1 with
    | .addOrReplace documents => documents
    | _ => []

def NoUpload (log : Log) : Prop := ∀ documents reply, (.addOrReplace documents, reply) ∉ log

/-- Some page of the log lists a document with this id. -/
def Listed (key : String) (log : Log) (id : String) : Prop :=
  ∃ field limit offset results total,
    (.getDocuments field limit offset, .page results total) ∈ log ∧
    ∃ document ∈ results, documentId document key = .ok id

/-- What must have happened before a request to delete `ids`. -/
structure Justified (start : Documents) (key : String) (before : Log) (ids : List String) :
    Prop where
  complete : start.Complete
  uploaded : uploads before = start.generated
  succeeded : ∀ documents reply, (.addOrReplace documents, reply) ∈ before → reply.succeeded
  listed : ∀ v ∈ start.generated, ∀ id, documentId v key = .ok id → Listed key before id
  stale : ∀ id ∈ ids, ∀ v ∈ start.generated, documentId v key ≠ .ok id

/-- No deletion was requested yet. -/
structure Growing (key : String) (initial : Option Index) (s : Server) : Prop where
  kept : ∀ id ∈ (contentOf initial).keys, id ∈ (contentOf s.index).keys
  quiet : NoUpload s.log → contentOf s.index = contentOf initial
  refused : ∀ index, initial = some index → index.primaryKey ≠ some key → s.index = some index
  noDelete : ∀ ids reply, (.deleteDocuments ids, reply) ∉ s.log

/-- Every request so far succeeded, and `done` is what was uploaded. -/
structure Uploading (key : String) (initial : Option Index) (done : List Value) (s : Server) :
    Prop where
  index : ∃ index, s.index = some index ∧ index.primaryKey = some key ∧
    index.content = upsertAll key (contentOf initial) done
  accepted : ∀ index, initial = some index → index.primaryKey = some key
  uploaded : uploads s.log = done
  succeeded : ∀ documents reply, (.addOrReplace documents, reply) ∈ s.log → reply.succeeded
  noDelete : ∀ ids reply, (.deleteDocuments ids, reply) ∉ s.log

section
variable {m : Meili} {key : String} {initial : Option Index} {done : List Value} {s : Server}

@[simp] theorem uploads_append (a b : Log) : uploads (a ++ b) = uploads a ++ uploads b :=
  List.flatMap_append

theorem Listed.mono {log : Log} {id : String} (h : Listed key log id) (more : Log) :
    Listed key (log ++ more) id := by
  obtain ⟨field, limit, offset, results, total, hm, hd⟩ := h
  exact ⟨field, limit, offset, results, total, List.mem_append_left _ hm, hd⟩

theorem uploads_of_noUpload {log : Log} (h : NoUpload log) : uploads log = [] := by
  unfold uploads
  rw [List.flatMap_eq_nil_iff]
  rintro ⟨r, reply⟩ he
  cases r with
  | addOrReplace documents => exact absurd he (h documents reply)
  | _ => rfl

theorem Uploading.growing (h : Uploading key initial done s) : Growing key initial s where
  kept := by
    obtain ⟨index, hi, -, hc⟩ := h.index
    intro id hid
    rw [hi]
    change id ∈ index.content.keys
    rw [hc]
    exact mem_keys_upsertAll.mpr (.inl hid)
  quiet := by
    intro hq
    obtain ⟨index, hi, -, hc⟩ := h.index
    have hd : done = [] := by rw [← h.uploaded, uploads_of_noUpload hq]
    rw [hi]
    change index.content = _
    rw [hc, hd]
    rfl
  refused := fun index hi hne => absurd (h.accepted index hi) hne
  noDelete := h.noDelete

/-- A task that is reported as done took its full effect. -/
theorem reply_succeeded {n : ℕ} {r : Request} {index : Option Index}
    (h : (m.reply n r index).succeeded) :
    (m.fate n).done = true ∧ (m.answer n r index).succeeded := by
  unfold Meili.reply at h
  cases he : (m.fate n).error with
  | some e => rw [he] at h; exact h.elim
  | none =>
    rw [he] at h
    refine ⟨?_, h⟩
    have ht : (m.fate n).task = .succeeded := by
      cases r <;> cases index <;>
        first
        | exact h
        | exact h.elim
        | cases h
    simp [Fate.done, he, ht]

theorem request_triple {α : Type} (r : Request) (decode : Reply → Except Failure α) (s : Server) :
    Triple (· = s) (request m r decode)
      (fun a t => t = (m.exchange r s).2 ∧ decode (m.exchange r s).1 = .ok a)
      (fun t => t = (m.exchange r s).2) := by
  intro t ht
  obtain rfl := ht
  rw [request, from_ofStep]
  cases h : decode (m.exchange r t).1 with
  | ok a => exact ⟨rfl, rfl⟩
  | error e => rfl

theorem asTask_eq_ok {reply : Reply} {p : ℕ × TaskEnd} :
    reply.asTask = .ok p ↔ reply = .task p.1 p.2 := by
  cases reply <;> simp [Reply.asTask, Prod.ext_iff]

theorem wait_eq_ok {stage : String} {uid : ℕ} {outcome : TaskEnd} {u : Unit} :
    wait stage uid outcome = .ok u ↔ outcome = .succeeded := by
  cases outcome <;> simp [wait]

theorem perform_triple (r : Request) (submitting stage : String) (s : Server) :
    Triple (· = s) (perform m r submitting stage)
      (fun _ t => t = (m.exchange r s).2 ∧ (m.exchange r s).1.succeeded)
      (fun t => t = (m.exchange r s).2) := by
  apply Triple.bind (request_triple r _ s)
  rintro ⟨uid, outcome⟩
  apply Triple.lift
  · rintro _ t hw ⟨ht, hr⟩
    rw [context_eq_ok, asTask_eq_ok] at hr
    rw [hr]
    exact ⟨ht, wait_eq_ok.mp hw⟩
  · rintro e t _ ⟨ht, _⟩
    exact ht

/-- Requests that neither store nor delete documents. -/
def Quiet : Request → Prop
  | .addOrReplace _ | .deleteDocuments _ => False
  | _ => True

@[simp] theorem apply_getIndex (fate : Fate) (index : Option Index) :
    fate.apply .getIndex index = index := by cases index <;> rfl

@[simp] theorem apply_getDocuments (fate : Fate) (field : String) (limit offset : ℕ)
    (index : Option Index) : fate.apply (.getDocuments field limit offset) index = index := by
  cases index <;> rfl

@[simp] theorem apply_getStats (fate : Fate) (index : Option Index) :
    fate.apply .getStats index = index := by cases index <;> rfl

theorem exchange_noDelete {r : Request} (h : ∀ ids reply, (.deleteDocuments ids, reply) ∉ s.log)
    (hr : ∀ ids, r ≠ .deleteDocuments ids) :
    ∀ ids reply, (.deleteDocuments ids, reply) ∉ (m.exchange r s).2.log := by
  intro ids reply hm
  rcases List.mem_append.mp hm with hm | hm
  · exact h ids reply hm
  · exact hr ids (Prod.mk.inj (List.mem_singleton.mp hm)).1.symm

theorem Quiet.ne_deleteDocuments {r : Request} (h : Quiet r) (ids : List String) :
    r ≠ .deleteDocuments ids := by
  rintro rfl
  exact h

theorem growing_start (key : String) (initial : Option Index) :
    Growing key initial ⟨initial, []⟩ where
  kept := fun _ h => h
  quiet := fun _ => rfl
  refused := fun _ h _ => h
  noDelete := by simp

/-- The only thing a quiet request can do to the documents is to create the empty index. -/
theorem Growing.quietly (h : Growing key initial s) {r : Request} (hr : Quiet r)
    (hs : ∀ settings, r ≠ .setSettings settings) : Growing key initial (m.exchange r s).2 := by
  have hl : NoUpload (m.exchange r s).2.log → NoUpload s.log :=
    fun hq documents reply hm => hq documents reply (List.mem_append_left _ hm)
  have hc : contentOf (m.exchange r s).2.index = contentOf s.index ∧
      ∀ index, s.index = some index → (m.exchange r s).2.index = some index := by
    rcases s with ⟨index, log⟩
    cases r with
    | setSettings settings => exact absurd rfl (hs settings)
    | addOrReplace documents => exact hr.elim
    | deleteDocuments ids => exact hr.elim
    | createIndex key =>
      cases index with
      | some index => exact ⟨rfl, fun _ h => h⟩
      | none =>
        refine ⟨?_, fun _ h => by cases h⟩
        simp only [Meili.exchange, Fate.apply]
        split <;> rfl
    | getIndex => simp [Meili.exchange]
    | getDocuments field limit offset => simp [Meili.exchange]
    | getStats => simp [Meili.exchange]
  exact ⟨fun id hid => by rw [hc.1]; exact h.kept id hid,
    fun hq => hc.1.trans (h.quiet (hl hq)),
    fun index hi hne => hc.2 index (h.refused index hi hne),
    exchange_noDelete h.noDelete hr.ne_deleteDocuments⟩

theorem Uploading.quietly (h : Uploading key initial done s) {r : Request} (hr : Quiet r) :
    Uploading key initial done (m.exchange r s).2 where
  index := by
    obtain ⟨index, hi, hk, hc⟩ := h.index
    rcases s with ⟨_, log⟩
    obtain rfl := hi
    cases r with
    | setSettings settings =>
      refine ⟨_, rfl, ?_, ?_⟩
      · split
        · exact hk
        · exact hk
      · split
        · exact hc
        · exact hc
    | addOrReplace documents => exact hr.elim
    | deleteDocuments ids => exact hr.elim
    | _ => exact ⟨index, rfl, hk, hc⟩
  accepted := h.accepted
  uploaded := by
    have hu : uploads [(r, m.reply s.log.length r s.index)] = [] := by
      cases r with
      | addOrReplace documents => exact hr.elim
      | _ => rfl
    change uploads (s.log ++ _) = done
    rw [uploads_append, h.uploaded, hu, List.append_nil]
  succeeded := by
    intro documents reply hm
    rcases List.mem_append.mp hm with hm | hm
    · exact h.succeeded documents reply hm
    · rw [← (Prod.mk.inj (List.mem_singleton.mp hm)).1] at hr
      exact hr.elim
  noDelete := exchange_noDelete h.noDelete hr.ne_deleteDocuments

theorem applySettings_triple (settings : Option Settings) :
    Triple (Uploading key initial done) (applySettings m settings)
      (fun _ => Uploading key initial done) (Growing key initial) := by
  cases settings with
  | none => exact Triple.pure fun _ h => h
  | some settings =>
    apply Triple.fixed
    intro s h
    have hu : Uploading key initial done (m.exchange (.setSettings settings) s).2 :=
      h.quietly trivial
    apply (perform_triple _ _ _ s).post
    · rintro _ t ⟨rfl, _⟩
      exact hu
    · rintro t rfl
      exact hu.growing

theorem reply_getIndex {n : ℕ} {index : Option Index} {found : Option (Option String)}
    (h : (m.reply n .getIndex index).asIndex = .ok found) :
    found = index.map (·.primaryKey) := by
  unfold Meili.reply at h
  cases he : (m.fate n).error with
  | some e => rw [he] at h; cases h
  | none =>
    rw [he] at h
    cases index with
    | none => exact (Except.ok.inj h).symm
    | some index => exact (Except.ok.inj h).symm

/-- The index was found with the right key, or has just been created. -/
theorem uploading_start {index : Index} (hi : s.index = some index)
    (hk : index.primaryKey = some key) (hc : index.content = contentOf initial)
    (ha : ∀ index, initial = some index → index.primaryKey = some key)
    (hq : ∀ e ∈ s.log, Quiet e.1) : Uploading key initial [] s where
  index := ⟨index, hi, hk, hc⟩
  accepted := ha
  uploaded := uploads_of_noUpload fun _ _ hm => (hq _ hm).elim
  succeeded := fun _ _ hm => (hq _ hm).elim
  noDelete := fun _ _ hm => hq _ hm

theorem targetIndex_triple :
    Triple (· = ⟨initial, []⟩) (targetIndex m key) (fun _ => Uploading key initial [])
      (Growing key initial) := by
  have hg : Growing key initial (m.exchange .getIndex ⟨initial, []⟩).2 :=
    (growing_start key initial).quietly trivial (by simp)
  apply Triple.bind ((request_triple _ _ _).onError _)
  · rintro (_ | found)
    · apply Triple.fixed
      rintro t ⟨rfl, hd⟩
      apply (perform_triple _ _ _ _).post
      · rintro _ t ⟨rfl, hs⟩
        obtain rfl : initial = none := by
          have hn := reply_getIndex (context_eq_ok.mp hd)
          cases initial with
          | none => rfl
          | some index => cases hn
        have hf := (reply_succeeded hs).1
        have hi : (m.exchange (.createIndex key) (m.exchange .getIndex ⟨none, []⟩).2).2.index =
            some (Index.empty key) := if_pos (by rw [hf]; rfl)
        apply uploading_start hi rfl rfl (fun _ h => by cases h)
        intro e hm
        rcases List.mem_pair.mp hm with rfl | rfl
        · trivial
        · trivial
      · rintro t rfl
        exact hg.quietly trivial (by simp)
    · apply Triple.lift
      · rintro _ t he ⟨rfl, hd⟩
        have hf := ensure_eq_ok.mp he
        have hn := reply_getIndex (context_eq_ok.mp hd)
        cases initial with
        | none => cases hn
        | some index =>
          have hk : index.primaryKey = some key := (Option.some.inj hn).symm.trans hf
          exact uploading_start rfl hk rfl (fun _ h => Option.some.inj h ▸ hk)
            (by rintro e hm; rw [List.mem_singleton.mp hm]; trivial)
      · rintro e t _ ⟨rfl, _⟩
        exact hg
  · rintro t rfl
    exact hg

/-- An upload that is not known to have succeeded may have stored any part of its batch. -/
theorem Uploading.failed_upload (h : Uploading key initial done s) (documents : List Value) :
    Growing key initial (m.exchange (.addOrReplace documents) s).2 where
  kept := by
    obtain ⟨index, hi, hk, hc⟩ := h.index
    rcases s with ⟨_, log⟩
    obtain rfl := hi
    intro id hid
    change id ∈ (index.addOrReplace _).content.keys
    rw [addOrReplace_content hk, mem_keys_upsertAll]
    exact .inl (h.growing.kept id hid)
  quiet := fun hq => absurd (List.mem_append_right _ (List.mem_singleton.mpr rfl)) (hq documents _)
  refused := fun index hi hne => absurd (h.accepted index hi) hne
  noDelete := exchange_noDelete h.noDelete fun _ => by simp

theorem Uploading.upload (h : Uploading key initial done s) {documents : List Value}
    (hs : (m.exchange (.addOrReplace documents) s).1.succeeded) :
    Uploading key initial (done ++ documents) (m.exchange (.addOrReplace documents) s).2 where
  index := by
    obtain ⟨index, hi, hk, hc⟩ := h.index
    have hf := (reply_succeeded hs).1
    rcases s with ⟨_, log⟩
    obtain rfl := hi
    refine ⟨index.addOrReplace documents, ?_, ?_, ?_⟩
    · simp [Meili.exchange, Fate.apply, hf]
    · rw [addOrReplace_primaryKey, hk]
    · rw [addOrReplace_content hk, hc, upsertAll_append]
  accepted := h.accepted
  uploaded := by
    change uploads (s.log ++ _) = _
    rw [uploads_append, h.uploaded]
    simp [uploads]
  succeeded := by
    intro documents' reply hm
    rcases List.mem_append.mp hm with hm | hm
    · exact h.succeeded documents' reply hm
    · rw [(Prod.mk.inj (List.mem_singleton.mp hm)).2]
      exact hs
  noDelete := exchange_noDelete h.noDelete fun _ => by simp

theorem upload_triple (batch : Batch) (number : ℕ) :
    Triple (Uploading key initial done) (upload m batch number)
      (fun _ => Uploading key initial (done ++ batch.values)) (Growing key initial) := by
  apply Triple.fixed
  intro s h
  apply (perform_triple _ _ _ s).post
  · rintro _ t ⟨rfl, hs⟩
    exact h.upload hs
  · rintro t rfl
    exact h.failed_upload batch.values

theorem uploadRest_triple (batch : Batch) (number : ℕ) :
    Triple (Uploading key initial done) (uploadRest m batch number)
      (fun _ => Uploading key initial (done ++ batch.values)) (Growing key initial) := by
  unfold uploadRest
  split
  · exact upload_triple batch (number + 1)
  · rename_i he
    rw [not_not.mp he, List.append_nil]
    exact Triple.pure fun _ h => h

/-- The loop has uploaded `done`, holds `batch` back and has read `next` ahead. -/
structure Looping (start : Documents) (initial : Option Index) (next : Option Document)
    (documents : Documents) (batch : Batch) (s : Server) : Prop where
  read : ∃ seen done, Consistent start (seen ++ next.toList) documents.rows documents ∧
    seen.map (·.value) = done ++ batch.values ∧ Uploading start.primaryKey initial done s
  ended : next = none → documents.rows = []

theorem Looping.growing {start documents : Documents} {next : Option Document} {batch : Batch}
    (h : Looping start initial next documents batch s) : Growing start.primaryKey initial s := by
  obtain ⟨seen, done, _, _, hu⟩ := h.read
  exact hu.growing

theorem makeRoom_triple {start documents : Documents} (document : Document) (batch : Batch)
    (number : ℕ) :
    Triple (Looping start initial (some document) documents batch)
      (makeRoom m document batch number)
      (fun r => Looping start initial (some document) documents r.1)
      (Growing start.primaryKey initial) := by
  unfold makeRoom
  split
  · apply Triple.fixed
    rintro s ⟨⟨seen, done, hc, hv, hu⟩, he⟩
    apply Triple.bind ((upload_triple batch (number + 1)).pre fun t ht => ht ▸ hu)
    intro ⟨⟩
    apply Triple.pure
    intro t ht
    exact ⟨⟨seen, done ++ batch.values, hc, by rw [hv, List.append_nil], ht⟩, he⟩
  · exact Triple.pure fun _ h => h

theorem Looping.push {start documents rest : Documents} {document : Document}
    {next : Option Document} {batch : Batch}
    (h : Looping start initial (some document) documents batch s)
    (hn : documents.next = .ok (next, rest)) :
    Looping start initial next rest (batch.push document) s := by
  obtain ⟨seen, done, hc, hv, hu⟩ := h.read
  refine ⟨⟨seen ++ [document], done, next_consistent hc hn, ?_, hu⟩, ?_⟩
  · simp [Batch.push, hv]
  · rintro rfl
    exact next_none hn

theorem uploadLoop_triple (start : Documents) (next : Option Document) (documents : Documents)
    (batch : Batch) (number : ℕ) :
    Triple (Looping start initial next documents batch) (uploadLoop m next documents batch number)
      (fun r => Looping start initial none r.1 r.2.1) (Growing start.primaryKey initial) := by
  fun_induction uploadLoop m next documents batch number with
  | case1 documents batch number => exact Triple.pure fun _ h => h
  | case2 documents batch number document ih =>
    apply Triple.bind (makeRoom_triple document batch number)
    rintro ⟨batch, number⟩
    dsimp only
    split
    · exact Triple.throw fun _ h => h.growing
    · rename_i next rest hn
      exact (ih batch number next rest hn).pre fun _ h => h.push hn

end

end MeiliRun
