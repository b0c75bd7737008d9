import Overthinkin.MeiliRun

/-! `remove_stale`: the enumeration lists the whole index, and what is then deleted is exactly
what was listed and not generated. -/
namespace MeiliCleanup

open EventTrace FiniteMap StatefulCall MeiliTransform MeiliSource MeiliIndex MeiliSync MeiliRun

/-- The order in which the server lists the index after the uploads. -/
def listing (m : Meili) (key : String) (initial : Option Index) (done : List Value) : List String :=
  (m.order (upsertAll key (contentOf initial) done)).val

section
variable {m : Meili} {key : String} {initial : Option Index} {done : List Value} {s : Server}
  {ids : Finset String}

theorem mem_listing {id : String} :
    id ∈ listing m key initial done ↔ id ∈ (upsertAll key (contentOf initial) done).keys :=
  (m.order _).property.2 id

theorem nodup_listing : (listing m key initial done).Nodup := (m.order _).property.1

theorem fields_cons {content : FMap String Value} {field id : String} {document : Value}
    (h : content.lookup id = some document) (rest : List String) :
    fields content field (id :: rest) = document.only field :: fields content field rest := by
  simp [fields, h]

/-- On documents that are stored under their ids, the ids read are the keys. -/
theorem classify_ok {content : FMap String Value} (hk : Keyed (some key) content)
    {page : List String} (hp : ∀ id ∈ page, id ∈ content.keys) {stale stale' : List String}
    {retained retained' : ℕ}
    (h : classify key ids (fields content key page) stale retained = .ok (stale', retained')) :
    stale' = stale ++ page.filter (· ∉ ids) ∧
      ∀ id ∈ page, ∃ document ∈ fields content key page, documentId document key = .ok id := by
  induction page generalizing stale retained with
  | nil =>
    cases h
    exact ⟨by simp, by simp⟩
  | cons id page ih =>
    obtain ⟨document, hl⟩ := mem_keys_iff.mp (hp id List.mem_cons_self)
    rw [fields_cons hl] at h ⊢
    simp only [classify, bind_eq_ok, context_eq_ok, documentId_only] at h
    obtain ⟨i, hi, h⟩ := h
    obtain rfl : i = id := hk key id document i rfl hl hi
    have hd : documentId (document.only key) key = .ok i := by rwa [documentId_only]
    have hr : ∀ id ∈ page, id ∈ content.keys := fun id hm => hp id (List.mem_cons_of_mem _ hm)
    have hf : ∀ {stale retained},
        classify key ids (fields content key page) stale retained = .ok (stale', retained') →
        ∀ id ∈ i :: page, ∃ v ∈ document.only key :: fields content key page,
          documentId v key = .ok id := by
      intro stale retained hc id hm
      rcases List.mem_cons.mp hm with rfl | hm
      · exact ⟨_, List.mem_cons_self, hd⟩
      · obtain ⟨v, hv, hi⟩ := (ih hr hc).2 id hm
        exact ⟨v, List.mem_cons_of_mem _ hv, hi⟩
    split at h
    · rename_i hin
      exact ⟨by rw [(ih hr h).1, List.filter_cons_of_neg (by simpa using hin)], hf h⟩
    · rename_i hin
      refine ⟨?_, hf h⟩
      rw [(ih hr h).1, List.filter_cons_of_pos (by simpa using hin), List.append_assoc]
      rfl

/-- The enumeration has reached position `n` of the listing. -/
structure Scanned (m : Meili) (key : String) (initial : Option Index) (done : List Value)
    (ids : Finset String) (n : ℕ) (stale : List String) (s : Server) : Prop where
  uploading : Uploading key initial done s
  stale : stale = ((listing m key initial done).take n).filter (· ∉ ids)
  listed : ∀ id ∈ (listing m key initial done).take n, Listed key s.log id

theorem take_length_take {α : Type} (k : ℕ) (xs : List α) :
    xs.take (xs.take k).length = xs.take k := by
  rw [List.length_take]
  rcases Nat.le_total k xs.length with h | h
  · rw [Nat.min_eq_left h]
  · rw [Nat.min_eq_right h, List.take_length, List.take_of_length_le h]

theorem length_fields {content : FMap String Value} {field : String} {page : List String}
    (hp : ∀ id ∈ page, id ∈ content.keys) : (fields content field page).length = page.length := by
  induction page with
  | nil => rfl
  | cons id page ih =>
    obtain ⟨document, hl⟩ := mem_keys_iff.mp (hp id List.mem_cons_self)
    rw [fields_cons hl, List.length_cons, List.length_cons,
      ih fun id hm => hp id (List.mem_cons_of_mem _ hm)]

/-- A page continues the listing where the last one stopped, and is empty only at its end. -/
structure PageRead (m : Meili) (key : String) (initial : Option Index) (done : List Value)
    (s : Server) (offset : ℕ) (results : List Value) (total : ℕ) (s' : Server)
    (page : List String) : Prop where
  cut : results = fields (upsertAll key (contentOf initial) done) key page
  stored : ∀ id ∈ page, id ∈ (upsertAll key (contentOf initial) done).keys
  next : (listing m key initial done).take (offset + results.length) =
    (listing m key initial done).take offset ++ page
  last : results = [] → (listing m key initial done).length ≤ offset
  size : total = (listing m key initial done).length
  logged : s'.log = s.log ++
    [(.getDocuments key maxBatchDocuments offset, .page results total)]
  uploading : Uploading key initial done s'

theorem getDocuments_page (h : Uploading key initial done s) {offset n : ℕ} {results : List Value}
    {s' : Server} (hg : (getDocuments m key offset).from s = (.ok (results, n), s')) :
    ∃ page, PageRead m key initial done s offset results n s' page := by
  obtain ⟨index, hi, hn, hr, hs⟩ := getDocuments_ok hg
  obtain ⟨index', hi', hk, hc⟩ := h.index
  obtain rfl : index = index' := Option.some.inj (hi.symm.trans hi')
  rw [hc] at hn hr
  have hp : ∀ id ∈ pageIds m (upsertAll key (contentOf initial) done)
      (m.fate s.log.length).pageSize maxBatchDocuments offset,
      id ∈ (upsertAll key (contentOf initial) done).keys :=
    fun id hm => mem_listing.mp (List.mem_of_mem_drop (List.mem_of_mem_take hm))
  have hl : results.length = _ := hr ▸ length_fields hp
  refine ⟨_, hr, hp, ?_, ?_, hn, by rw [hs], ?_⟩
  · rw [hl, List.take_add]
    exact congrArg _ (take_length_take _ _)
  · intro he
    rw [he, List.length_nil, pageIds, List.length_take, List.length_drop] at hl
    have hb : 0 < min (max (m.fate s.log.length).pageSize 1) maxBatchDocuments := by
      simp [maxBatchDocuments]
    unfold listing
    omega
  · obtain rfl : (m.exchange (.getDocuments key maxBatchDocuments offset) s).2 = s' :=
      congrArg Prod.snd hg
    exact h.quietly trivial

theorem Scanned.page {offset n retained retained' : ℕ} {stale stale' : List String}
    {results : List Value} {s' : Server} (h : Scanned m key initial done ids offset stale s)
    (hg : (getDocuments m key offset).from s = (.ok (results, n), s'))
    (hc : classify key ids results stale retained = .ok (stale', retained')) :
    Scanned m key initial done ids (offset + results.length) stale' s' := by
  obtain ⟨page, hp⟩ := getDocuments_page h.uploading hg
  obtain ⟨index, _, hk, hi⟩ := h.uploading.index
  have hkeyed : Keyed (some key) (upsertAll key (contentOf initial) done) := by
    rw [← hi, ← hk]
    exact index.keyed
  have hcf := hc
  rw [hp.cut] at hcf
  obtain ⟨hs, hf⟩ := classify_ok hkeyed hp.stored hcf
  refine ⟨hp.uploading, ?_, ?_⟩
  · rw [hs, h.stale, hp.next, List.filter_append]
  · intro id hid
    rw [hp.next] at hid
    rw [hp.logged]
    rcases List.mem_append.mp hid with hid | hid
    · exact (h.listed id hid).mono _
    · obtain ⟨document, hd, hi⟩ := hf id hid
      exact ⟨_, _, _, results, n, List.mem_append_right _ (List.mem_singleton.mpr rfl), document,
        by rw [hp.cut]; exact hd, hi⟩

theorem Scanned.end {n : ℕ} {stale : List String} (h : Scanned m key initial done ids n stale s)
    (hn : (listing m key initial done).length ≤ n) :
    Scanned m key initial done ids (listing m key initial done).length stale s := by
  have ht : (listing m key initial done).take n =
      (listing m key initial done).take (listing m key initial done).length := by
    rw [List.take_length, List.take_of_length_le hn]
  exact ⟨h.uploading, ht ▸ h.stale, ht ▸ h.listed⟩

/-- From any position the enumeration goes on to the end of the listing, unless it fails. -/
theorem enumerate_scanned {offset : ℕ} {stale : List String}
    (h : Scanned m key initial done ids offset stale s) (retained : ℕ) :
    match enumerate m key ids offset stale retained s with
    | (.ok r, s') =>
      Scanned m key initial done ids (listing m key initial done).length r.1 s'
    | (.error _, s') => Growing key initial s' := by
  fun_induction enumerate m key ids offset stale retained s with
  | case1 offset stale retained s e s' hg =>
    obtain rfl : (m.exchange (.getDocuments key maxBatchDocuments offset) s).2 = s' :=
      congrArg Prod.snd hg
    have hu : Uploading key initial done
        (m.exchange (.getDocuments key maxBatchDocuments offset) s).2 :=
      h.uploading.quietly trivial
    exact hu.growing
  | case2 offset stale retained s n s' hg =>
    obtain ⟨page, hp⟩ := getDocuments_page h.uploading hg
    have hc : classify key ids [] stale retained = .ok (stale, retained) := rfl
    exact (h.page hg hc).end (hp.last rfl)
  | case3 offset stale retained s results n s' hg _ e hc =>
    obtain ⟨page, hp⟩ := getDocuments_page h.uploading hg
    exact hp.uploading.growing
  | case4 offset stale retained s results n s' hg _ stale' retained' hc ho =>
    obtain ⟨page, hp⟩ := getDocuments_page h.uploading hg
    exact (h.page hg hc).end (hp.size ▸ ho)
  | case5 offset stale retained s results n s' hg _ stale' retained' hc _ ih =>
    exact ih (h.page hg hc)

end

/-- A deletion is justified by what precedes it. -/
def Allowed (start : Documents) (before : Log) (e : Request × Reply) : Prop :=
  ∀ ids, e.1 = .deleteDocuments ids → Justified start start.primaryKey before ids

/-- No document that the source generates has this id. -/
def NotGenerated (start : Documents) (id : String) : Prop :=
  ∀ v ∈ start.generated, documentId v start.primaryKey ≠ .ok id

/-- Every generated document was stored, `gone` was deleted, and the log so far justifies
deleting more of what the source does not generate. -/
structure Deleting (start : Documents) (initial : Option Index) (gone : List String) (s : Server) :
    Prop where
  index : ∃ index, s.index = some index ∧ index.primaryKey = some start.primaryKey ∧
    index.content =
      eraseAll (upsertAll start.primaryKey (contentOf initial) start.generated) gone
  accepted : ∀ index, initial = some index → index.primaryKey = some start.primaryKey
  stale : ∀ id ∈ gone, NotGenerated start id
  ready : Justified start start.primaryKey s.log []
  justified : Each (Allowed start) s.log

/-- What holds of the server wherever a run stops. -/
structure Safe (start : Documents) (initial : Option Index) (s : Server) : Prop where
  removed : ∀ id ∈ (contentOf initial).keys, id ∉ (contentOf s.index).keys →
    start.Complete ∧ NotGenerated start id
  justified : Each (Allowed start) s.log
  refused : ∀ index, initial = some index → index.primaryKey ≠ some start.primaryKey →
    s.index = some index
  incomplete : ¬ start.Complete → NoUpload s.log → contentOf s.index = contentOf initial

section
variable {m : Meili} {start : Documents} {initial : Option Index} {gone : List String} {s : Server}

theorem safe_of_growing (h : Growing start.primaryKey initial s) : Safe start initial s where
  removed := fun id hi hn => absurd (h.kept id hi) hn
  justified := each_of_forall fun e he _ ids hi => absurd (hi ▸ he) (h.noDelete ids e.2)
  refused := h.refused
  incomplete := fun _ => h.quiet

theorem Deleting.safe (h : Deleting start initial gone s) : Safe start initial s where
  removed := by
    intro id hi hn
    obtain ⟨index, hx, -, hc⟩ := h.index
    refine ⟨h.ready.complete, ?_⟩
    by_contra hg
    refine hn ?_
    rw [hx]
    change id ∈ index.content.keys
    rw [hc, mem_keys_eraseAll, mem_keys_upsertAll]
    exact ⟨fun hm => hg (h.stale id hm), .inl hi⟩
  justified := h.justified
  refused := fun index hi hne => absurd (h.accepted index hi) hne
  incomplete := fun hn => absurd h.ready.complete hn

theorem justified_snoc {key : String} {log : Log} (h : Justified start key log [])
    {e : Request × Reply} (he : ∀ documents, e.1 ≠ .addOrReplace documents) :
    Justified start key (log ++ [e]) [] where
  complete := h.complete
  uploaded := by
    rw [uploads_append, h.uploaded, uploads_of_noUpload, List.append_nil]
    intro documents reply hm
    exact he documents (congrArg Prod.fst (List.mem_singleton.mp hm)).symm
  succeeded := by
    intro documents reply hm
    rcases List.mem_append.mp hm with hm | hm
    · exact h.succeeded documents reply hm
    · exact absurd (congrArg Prod.fst (List.mem_singleton.mp hm)).symm (he documents)
  listed := fun v hv id hi => (h.listed v hv id hi).mono _
  stale := h.stale

theorem Deleting.getStats (h : Deleting start initial gone s) :
    Deleting start initial gone (m.exchange .getStats s).2 where
  index := by
    obtain ⟨index, hi, hk, hc⟩ := h.index
    exact ⟨index, by simpa [Meili.exchange] using hi, hk, hc⟩
  accepted := h.accepted
  stale := h.stale
  ready := justified_snoc h.ready (by simp)
  justified := h.justified.snoc fun ids he => by cases he

/-- A deletion that is not known to have succeeded may have removed any part of its batch. -/
theorem Deleting.request (h : Deleting start initial gone s) {ids : List String}
    (hs : ∀ id ∈ ids, NotGenerated start id) :
    ∃ part, ((m.exchange (.deleteDocuments ids) s).1.succeeded → part = ids) ∧
      Deleting start initial (gone ++ part) (m.exchange (.deleteDocuments ids) s).2 := by
  obtain ⟨index, hi, hk, hc⟩ := h.index
  rcases s with ⟨_, log⟩
  obtain rfl := hi
  refine ⟨ids.filter fun id => (m.fate log.length).done || (m.fate log.length).removed id, ?_,
    ⟨_, rfl, hk, ?_⟩, h.accepted, ?_, justified_snoc h.ready (by simp), ?_⟩
  · intro hd
    rw [(reply_succeeded hd).1]
    exact List.filter_true ids
  · rw [eraseAll_append, ← hc]
    rfl
  · intro id hm
    rcases List.mem_append.mp hm with hm | hm
    · exact h.stale id hm
    · exact hs id (List.mem_of_mem_filter hm)
  · apply h.justified.snoc
    intro ids' he
    obtain rfl := Request.deleteDocuments.inj he
    exact ⟨h.ready.complete, h.ready.uploaded, h.ready.succeeded, h.ready.listed, hs⟩

theorem deleteBatches_triple {batches : List (List String)}
    (hs : ∀ id ∈ batches.flatten, NotGenerated start id) (number : ℕ) :
    Triple (Deleting start initial gone) (deleteBatches m batches number)
      (fun _ => Deleting start initial (gone ++ batches.flatten)) (Safe start initial) := by
  induction batches generalizing gone number with
  | nil => exact Triple.pure fun _ h => by simpa using h
  | cons batch rest ih =>
    rw [List.flatten_cons] at hs ⊢
    apply Triple.bind (Q := fun _ => Deleting start initial (gone ++ batch))
    · apply Triple.fixed
      intro s h
      obtain ⟨part, hp, hd⟩ := h.request (m := m) fun id hm => hs id (List.mem_append_left _ hm)
      apply (perform_triple _ _ _ s).post
      · rintro _ t ⟨rfl, hok⟩
        exact hp hok ▸ hd
      · rintro t rfl
        exact hd.safe
    · intro ⟨⟩
      rw [← List.append_assoc]
      exact ih (fun id hm => hs id (List.mem_append_right _ hm)) (number + 1)

/-- After the enumeration everything is ready to delete what it found stale. -/
theorem Scanned.deleting {ids : Finset String} {stale : List String} {n : ℕ} (hc : start.Complete)
    (h : Scanned m start.primaryKey initial start.generated ids n stale s)
    (hn : n = (listing m start.primaryKey initial start.generated).length) :
    Deleting start initial [] s where
  index := h.uploading.index
  accepted := h.uploading.accepted
  stale := by simp
  ready := by
    refine ⟨hc, h.uploading.uploaded, h.uploading.succeeded, ?_, by simp⟩
    intro v hv id hi
    apply h.listed
    rw [hn, List.take_length, mem_listing, mem_keys_upsertAll]
    exact .inr ⟨v, hv, hi⟩
  justified := each_of_forall fun e he _ ids hi => absurd (hi ▸ he) (h.uploading.noDelete ids e.2)

theorem removeStale_triple {ids : Finset String} (hc : start.Complete)
    (hi : ∀ id, id ∈ ids ↔ ∃ v ∈ start.generated, documentId v start.primaryKey = .ok id) :
    Triple (Uploading start.primaryKey initial start.generated)
      (removeStale m start.primaryKey ids)
      (fun n s => ∃ stale, n = stale.length ∧
        stale = (listing m start.primaryKey initial start.generated).filter (· ∉ ids) ∧
        Deleting start initial stale s)
      (Safe start initial) := by
  apply Triple.bind (Q := fun r => Scanned m start.primaryKey initial start.generated ids
    (listing m start.primaryKey initial start.generated).length r.1)
  · intro s h
    have hs : Scanned m start.primaryKey initial start.generated ids 0 [] s :=
      ⟨h, by simp, by simp⟩
    rw [from_ofStep]
    rcases hr : enumerate m start.primaryKey ids 0 [] 0 s with ⟨r, s'⟩
    have he := enumerate_scanned hs 0
    rw [hr] at he
    cases r with
    | ok r => exact he
    | error e => exact safe_of_growing he
  · rintro ⟨stale, retained⟩
    apply Triple.bind (Q := fun _ => Scanned m start.primaryKey initial start.generated ids
      (listing m start.primaryKey initial start.generated).length stale)
    · apply Triple.lift
      · exact fun _ s _ h => h
      · exact fun _ s _ h => (h.deleting hc rfl).safe
    · intro ⟨⟩
      apply Triple.fixed
      intro s h
      have hstale : stale =
          (listing m start.primaryKey initial start.generated).filter (· ∉ ids) := by
        rw [h.stale, List.take_length]
      have hf : (chunks maxBatchDocuments stale).flatten = stale :=
        flatten_chunks (by decide) stale
      have hng : ∀ id ∈ (chunks maxBatchDocuments stale).flatten, NotGenerated start id := by
        intro id hm v hv hid
        rw [hf, hstale, List.mem_filter] at hm
        exact (of_decide_eq_true hm.2) ((hi id).mpr ⟨v, hv, hid⟩)
      apply Triple.bind ((deleteBatches_triple hng 0).pre fun t ht => ht ▸ h.deleting hc rfl)
      intro ⟨⟩
      apply Triple.pure
      intro t ht
      exact ⟨stale, rfl, hstale, by simpa [hf] using ht⟩

end

end MeiliCleanup
