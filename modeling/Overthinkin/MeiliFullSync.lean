import Overthinkin.MeiliCleanup
import Mathlib.Data.String.Basic

/-! Whole runs of `sync::run`: a run that succeeds leaves exactly the generated documents, and
no run deletes too early or deletes what the source generates. Every request can fail without
an effect, so these results cover the states inside a run as well. -/
namespace MeiliFullSync

open EventTrace FiniteMap StatefulCall MeiliTransform MeiliSource MeiliIndex MeiliSync MeiliRun
  MeiliCleanup

/-- What a run has achieved when it returns its report. -/
structure Synced (m : Meili) (start : Documents) (initial : Option Index) (report : Report)
    (s : Server) : Prop where
  deleting : Deleting start initial
    ((listing m start.primaryKey initial start.generated).filter (· ∉ start.generatedIds)) s
  deleted : report.deletedDocuments =
    ((listing m start.primaryKey initial start.generated).filter (· ∉ start.generatedIds)).length
  rows : report.counts.rowsRead = report.counts.rowsSkipped + report.counts.documents
  documents : report.counts.documents = start.generated.length
  indexed : report.counts.documents = report.indexedDocuments

section
variable {m : Meili} {cli : Cli} {start : Documents} {initial : Option Index} {s : Server}

theorem documents_consistent (h : cli.documents = .ok start) :
    start.primaryKey = cli.primaryKey ∧ Consistent start [] start.rows start := by
  simp only [Cli.documents, bind_eq_ok] at h
  obtain ⟨source, _, statement, _, h⟩ := h
  exact new_consistent h

/-- At the end of the loop only the last batch is missing. -/
theorem Looping.rest {documents : Documents} {batch : Batch}
    (h : Looping start initial none documents batch s) :
    start.Complete ∧ documents.ids = start.generatedIds ∧
      documents.counts.documents = start.generated.length ∧
      documents.counts.rowsRead = documents.counts.rowsSkipped + documents.counts.documents ∧
      ∃ done, start.generated = done ++ batch.values ∧
        Uploading start.primaryKey initial done s := by
  obtain ⟨seen, done, hc, hv, hu⟩ := h.read
  rw [h.ended rfl, Option.toList_none, List.append_nil] at hc
  obtain ⟨hcomplete, hg⟩ := hc.complete
  refine ⟨hcomplete, ?_, ?_, hc.rowsRead, done, hg.trans hv, hu⟩
  · ext id
    rw [hc.ids, mem_generatedIds, hg]
    simp
  · rw [hc.documents, hg, List.length_map]

theorem run_triple {opened : Opened} (hd : cli.documents = .ok start)
    (ho : cli.opened = .ok opened) (hn : start.next = .ok (opened.next, opened.documents)) :
    Triple (· = ⟨initial, []⟩) (run m cli) (Synced m start initial) (Safe start initial) := by
  obtain ⟨hk, hc⟩ := documents_consistent hd
  have hsafe : ∀ s, Growing start.primaryKey initial s → Safe start initial s :=
    fun s h => safe_of_growing h
  unfold run
  rw [← hk, ho]
  apply Triple.bind (Q := fun o t => o = opened ∧ t = ⟨initial, []⟩)
  · exact Triple.lift (fun o t h ht => ⟨(Except.ok.inj h).symm, ht⟩) fun e t h _ => by cases h
  intro o
  apply Triple.assuming
  rintro rfl
  apply Triple.bind (Q := fun _ t => t = ⟨initial, []⟩)
  · exact Triple.lift (fun _ t _ ht => ht) fun e t _ ht => by
      rw [ht]; exact hsafe _ (growing_start _ _)
  intro ⟨⟩
  apply Triple.bind (targetIndex_triple.onError hsafe)
  intro ⟨⟩
  apply Triple.bind ((applySettings_triple o.settings).onError hsafe)
  intro ⟨⟩
  have hstart : ∀ t, Uploading start.primaryKey initial [] t →
      Looping start initial o.next o.documents {} t := by
    intro t hu
    refine ⟨⟨[], [], next_consistent hc hn, rfl, hu⟩, ?_⟩
    intro he
    rw [he] at hn
    exact next_none hn
  apply Triple.bind ((uploadLoop_triple start o.next o.documents {} 0).mono hstart
    (fun _ _ h => h) hsafe)
  rintro ⟨documents, batch, number⟩
  apply Triple.fixed
  intro s hl
  obtain ⟨hcomplete, hids, hcount, hrows, done, hg, hu⟩ := Looping.rest hl
  apply Triple.bind ((uploadRest_triple batch number).mono (fun t ht => ht ▸ hu)
    (fun _ _ h => hg ▸ h) hsafe)
  intro ⟨⟩
  rw [hids]
  apply Triple.bind (removeStale_triple hcomplete fun id => mem_generatedIds)
  intro deleted
  apply Triple.fixed
  rintro s ⟨stale, rfl, rfl, hdel⟩
  have hafter : ∀ t, t = (m.exchange .getStats s).2 → Safe start initial t :=
    fun t ht => ht ▸ hdel.getStats.safe
  apply Triple.bind ((request_triple _ _ s).onError hafter)
  intro indexed
  apply Triple.bind (Q := fun _ t => indexed = documents.counts.documents ∧
    t = (m.exchange .getStats s).2)
  · exact Triple.lift (fun _ t h ht => ⟨ensure_eq_ok.mp h, ht.1⟩) fun _ t _ ht => hafter t ht.1
  intro ⟨⟩
  apply Triple.assuming
  rintro rfl
  apply Triple.bind (Q := fun _ t => t = (m.exchange .getStats s).2)
  · exact Triple.lift (fun _ t _ ht => ht) fun _ t _ ht => hafter t ht
  intro finishedAtUnix
  apply Triple.bind (Q := fun _ t => t = (m.exchange .getStats s).2)
  · exact Triple.lift (fun _ t _ ht => ht) fun _ t _ ht => hafter t ht
  intro ⟨⟩
  apply Triple.pure
  rintro t rfl
  exact ⟨hdel.getStats, rfl, hrows, hcount, rfl⟩

theorem mem_stale {id : String} :
    id ∈ (listing m start.primaryKey initial start.generated).filter (· ∉ start.generatedIds) ↔
      id ∈ (contentOf initial).keys ∧ id ∉ start.generatedIds := by
  rw [List.mem_filter, mem_listing, mem_keys_upsertAll, decide_eq_true_eq, mem_generatedIds]
  exact and_congr_left fun hn => or_iff_left hn

theorem length_stale :
    ((listing m start.primaryKey initial start.generated).filter (· ∉ start.generatedIds)).length =
      ((contentOf initial).keys \ start.generatedIds).card := by
  rw [← List.toFinset_card_of_nodup (nodup_listing.filter _)]
  congr 1
  ext id
  rw [List.mem_toFinset, mem_stale, Finset.mem_sdiff]

/-- What is left after the deletion is what was generated. -/
theorem lookup_synced (hd : start.generated.Pairwise fun v w =>
      documentId v start.primaryKey ≠ documentId w start.primaryKey) (id : String) (v : Value) :
    (eraseAll (upsertAll start.primaryKey (contentOf initial) start.generated)
        ((listing m start.primaryKey initial start.generated).filter
          (· ∉ start.generatedIds))).lookup id = some v ↔
      v ∈ start.generated ∧ documentId v start.primaryKey = .ok id := by
  rw [lookup_eraseAll, lookup_upsertAll hd, mem_stale, mem_generatedIds]
  constructor
  · rintro ⟨hn, hv | ⟨hw, hl⟩⟩
    · exact hv
    · exact absurd ⟨mem_keys_iff.mpr ⟨v, hl⟩, fun ⟨w, hm, hi⟩ => hw w hm hi⟩ hn
  · rintro ⟨hm, hi⟩
    exact ⟨fun hn => hn.2 ⟨v, hm, hi⟩, .inl ⟨hm, hi⟩⟩

/-- A run that fails before it has a first document sends no request. -/
theorem run_of_opened_error {e : Failure} (h : cli.opened = .error e) (s : Server) :
    (run m cli).from s = (.error e, s) := by
  unfold run
  rw [from_bind, from_lift, h]

/-- Every run either stops before its first request, or keeps to its source. -/
theorem run_cases (m : Meili) (cli : Cli) (initial : Option Index) :
    (∃ e, (run m cli).from ⟨initial, []⟩ = (.error e, ⟨initial, []⟩)) ∨
      ∃ (start : Documents) (opened : Opened), cli.documents = .ok start ∧
        start.primaryKey = cli.primaryKey ∧
        start.next = .ok (opened.next, opened.documents) ∧
        (opened.next.isSome ∨ cli.allowEmpty) ∧
        Triple (· = ⟨initial, []⟩) (run m cli) (Synced m start initial) (Safe start initial) := by
  cases ho : cli.opened with
  | error e => exact .inl ⟨e, run_of_opened_error ho _⟩
  | ok opened =>
    obtain ⟨start, hd, hn, he⟩ := opened_ok ho
    exact .inr ⟨start, opened, hd, (documents_consistent hd).1, hn, he, run_triple hd ho hn⟩

/-- When a run succeeds, the index is what the source generates, and the report says so. -/
theorem run_synchronises (m : Meili) (cli : Cli) (initial : Option Index) {report : Report}
    (h : ((run m cli).from ⟨initial, []⟩).1 = .ok report) :
    ∃ start index, cli.documents = .ok start ∧ start.Complete ∧
      ((run m cli).from ⟨initial, []⟩).2.index = some index ∧
      (∀ id v, index.content.lookup id = some v ↔
        v ∈ start.generated ∧ documentId v cli.primaryKey = .ok id) ∧
      report.deletedDocuments = ((contentOf initial).keys \ start.generatedIds).card ∧
      report.counts.rowsRead = report.counts.rowsSkipped + report.counts.documents ∧
      report.counts.documents = start.generated.length ∧
      report.counts.documents = report.indexedDocuments := by
  rcases run_cases m cli initial with ⟨e, he⟩ | ⟨start, opened, hd, hk, -, -, ht⟩
  · rw [he] at h
    cases h
  · have hs := ht.ok rfl h
    obtain ⟨index, hi, -, hc⟩ := hs.deleting.index
    have hcomplete := hs.deleting.ready.complete
    refine ⟨start, index, hd, hcomplete, hi, ?_, ?_, hs.rows, hs.documents, hs.indexed⟩
    · intro id v
      rw [hc, ← hk]
      exact lookup_synced hcomplete.distinct id v
    · rw [hs.deleted, length_stale]

end

/-- A server on which every request is answered and every task succeeds. -/
def workingServer : Meili where
  fate _ := ⟨none, .succeeded, false, fun _ => false, fun _ => false, 1⟩
  order content := ⟨increasing content.keys, nodup_increasing _, fun _ => mem_increasing⟩

/-- A query over one column `id` whose rows are uploaded unchanged. -/
def products (rows : List (Except Failure Row)) (settings : Option SettingsFile) : Cli where
  index := "products"
  primaryKey := "id"
  allowEmpty := false
  startedAtUnix := .ok 0
  source := .ok ⟨.ok ⟨true, ["id"], 0, .ok rows⟩, ⟨fun row => .ok (.map row), fun _ => ""⟩⟩
  sqlite := "data.sqlite"
  canonicalized := .ok "/data.sqlite"
  settings := settings
  report := none
  client := .ok ()
  finishedAtUnix := .ok 1
  stdout := .ok ()

def oldProducts : Index :=
  (Index.empty "id").addOrReplace [.object [("id", .string "1")], .object [("id", .number "7")]]

theorem run_synchronises_products :
    ((run workingServer (products [.ok [.integer 1], .ok [.integer 2]] none)).from
      ⟨some oldProducts, []⟩).1 =
      .ok ⟨"succeeded", "/data.sqlite", "products", "id", ⟨2, 0, 2⟩, 1, 2, 0, 1⟩ ∧
    ∃ start index, (products [.ok [.integer 1], .ok [.integer 2]] none).documents = .ok start ∧
      ((run workingServer (products [.ok [.integer 1], .ok [.integer 2]] none)).from
        ⟨some oldProducts, []⟩).2.index = some index ∧
      ∀ id v, index.content.lookup id = some v ↔
        v ∈ start.generated ∧ documentId v "id" = .ok id := by
  have h : ((run workingServer (products [.ok [.integer 1], .ok [.integer 2]] none)).from
      ⟨some oldProducts, []⟩).1 =
      .ok ⟨"succeeded", "/data.sqlite", "products", "id", ⟨2, 0, 2⟩, 1, 2, 0, 1⟩ := by
    decide +kernel
  obtain ⟨start, index, hd, _, hi, hl, _⟩ := run_synchronises workingServer _ _ h
  exact ⟨h, start, index, hd, hi, hl⟩

section
variable {m : Meili} {cli : Cli}

/-- The run never gets as far as the server with an index that it must not touch. -/
def Refused (cli : Cli) (index : Index) : Prop :=
  index.primaryKey ≠ some cli.primaryKey ∨
    ∀ start next rest, cli.documents = .ok start → start.next = .ok (next, rest) →
      next = none ∧ cli.allowEmpty = false

theorem refused_index {index : Index} (hr : Refused cli index) :
    ((run m cli).from ⟨some index, []⟩).2.index = some index := by
  rcases run_cases m cli (some index) with ⟨e, he⟩ | ⟨start, opened, hd, hk, hn, he, ht⟩
  · rw [he]
  · rcases hr with hp | hf
    · have hs : Safe start (some index) ((run m cli).from ⟨some index, []⟩).2 :=
        ht.always rfl (fun _ _ h => h.deleting.safe) fun _ h => h
      exact hs.refused index rfl (hk ▸ hp)
    · obtain ⟨hnone, hempty⟩ := hf start _ _ hd hn
      rw [hnone, hempty] at he
      simp at he

/-- Wherever a run stops: what it removed was not generated, and it asked for deletions only
after the whole source was stored and listed. -/
theorem deletion_safety (m : Meili) (cli : Cli) (initial : Option Index) :
    (∀ id ∈ (contentOf initial).keys,
      id ∉ (contentOf ((run m cli).from ⟨initial, []⟩).2.index).keys →
      ∃ start, cli.documents = .ok start ∧ start.Complete ∧ NotGenerated start id) ∧
    (∀ before ids reply after, ((run m cli).from ⟨initial, []⟩).2.log =
        before ++ (.deleteDocuments ids, reply) :: after →
      ∃ start, cli.documents = .ok start ∧ Justified start cli.primaryKey before ids) ∧
    (∀ index, initial = some index → Refused cli index →
      ((run m cli).from ⟨initial, []⟩).2.index = some index) ∧
    ((∀ start, cli.documents = .ok start → ¬ start.Complete) →
      NoUpload ((run m cli).from ⟨initial, []⟩).2.log →
      contentOf ((run m cli).from ⟨initial, []⟩).2.index = contentOf initial) := by
  have hrefused : ∀ index, initial = some index → Refused cli index →
      ((run m cli).from ⟨initial, []⟩).2.index = some index := by
    rintro index rfl hr
    exact refused_index hr
  rcases run_cases m cli initial with ⟨e, he⟩ | ⟨start, opened, hd, hk, -, -, ht⟩
  · refine ⟨?_, ?_, hrefused, ?_⟩
    · rw [he]
      exact fun id hi hn => absurd hi hn
    · rw [he]
      exact fun before ids reply after hl => by simp at hl
    · rw [he]
      exact fun _ _ => rfl
  · have hs : Safe start initial ((run m cli).from ⟨initial, []⟩).2 :=
      ht.always rfl (fun _ _ h => h.deleting.safe) fun _ h => h
    refine ⟨?_, ?_, hrefused, fun hc => hs.incomplete (hc start hd)⟩
    · exact fun id hi hn => ⟨start, hd, hs.removed id hi hn⟩
    · exact fun before ids reply after hl => ⟨start, hd, hk ▸ hs.justified _ _ _ hl ids rfl⟩

end

/-- The settings file `settings.json`, with one setting. -/
def searchable : SettingsFile where
  path := "settings.json"
  text := .ok "\x7b\"searchableAttributes\":[\"title\"]\x7d"
  parsed _ := .ok ((∅ : Settings).insert "searchableAttributes" (.array [.string "title"]), [])
  ends _ := .ok ()

def Request.isUpload : Request → Bool
  | .addOrReplace _ => true
  | _ => false

theorem noUpload_iff {log : Log} :
    NoUpload log ↔ log.all (fun e => !Request.isUpload e.1) = true := by
  rw [List.all_eq_true]
  constructor
  · rintro h ⟨r, reply⟩ he
    cases r with
    | addOrReplace documents => exact absurd he (h documents reply)
    | _ => rfl
  · intro h documents reply he
    cases h _ he

/-- Settings are applied between the first document and the first upload: a row that fails
then leaves the index with its documents but with other settings. -/
theorem late_failure_changes_settings :
    ∃ (m : Meili) (cli : Cli) (index after : Index),
      index.primaryKey = some cli.primaryKey ∧ cli.allowEmpty = false ∧
      ((run m cli).from ⟨some index, []⟩).1 = .error ["read SQL row 2", "disk I/O error"] ∧
      NoUpload ((run m cli).from ⟨some index, []⟩).2.log ∧
      ((run m cli).from ⟨some index, []⟩).2.index = some after ∧
      after.settings ≠ index.settings := by
  have hs : ∃ after, ((run workingServer (products [.ok [.integer 1], .error ["disk I/O error"]]
      (some searchable))).from ⟨some oldProducts, []⟩).2.index = some after ∧
      (after.settings.lookup "searchableAttributes").isSome = true := by
    apply (Option.any_eq_true _ _).mp
    decide +kernel
  obtain ⟨after, hi, ha⟩ := hs
  refine ⟨workingServer, products [.ok [.integer 1], .error ["disk I/O error"]] (some searchable),
    oldProducts, after, rfl, rfl, by decide +kernel, noUpload_iff.mpr (by decide +kernel), hi, ?_⟩
  intro he
  rw [he] at ha
  cases ha

end MeiliFullSync
