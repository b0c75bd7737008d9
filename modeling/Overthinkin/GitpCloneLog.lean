import Overthinkin.GitpClone
import Overthinkin.GitpFaithful
import Overthinkin.GitpSoundness

/-! What a clone reports. Whether it reports at all makes no difference to what it does, and the
reports of a clone that fails are the beginning of those of one that succeeds. -/
namespace GitpClone

open GoRuntime GoRuntime.Outcome GitpObject GitpPack GitpResolve GitpReceive GitpRefs GitpTree
  PosixFileSystem PosixCalls StatefulCall LoggedCall GitpCheckout GitpTransport

variable {progress : Bool}

/-! ### The deltas -/

/-- A turn of the loop, once it is known what its pass does. -/
theorem resolveLoop_from {rt : Runtime} {total count : ℕ} {s : ObjectStore} {c : Client}
    {r : (ObjectStore × List PendingDelta × Bool) × ℕ} {c' : Client}
    (h : (resolvePass rt progress total s s.deltas count).from c = (.ok r, c')) :
    (resolveLoop rt progress total s count).from c =
      if r.1.2.2 then
        (resolveLoop rt progress total { r.1.1 with deltas := r.1.2.1 } r.2).from c'
      else (checked (do
        failIf (∃ δ ∈ r.1.2.1, δ.deltaData.isSome) "unresolvable delta"
        ok { r.1.1 with deltas := r.1.2.1 })).from c' := by
  rw [resolveLoop, from_ofStep]
  split
  · rename_i heq
    cases heq.symm.trans h
    rfl
  · rename_i heq
    cases heq.symm.trans h
    rfl
  · rename_i heq
    cases heq.symm.trans h

theorem resolveLoop_stopped {rt : Runtime} {total count : ℕ} {s : ObjectStore} {c c' : Client}
    {e : Stop} (h : (resolvePass rt progress total s s.deltas count).from c = (.error e, c')) :
    (resolveLoop rt progress total s count).from c = (.error e, c') := by
  rw [resolveLoop, from_ofStep]
  split
  · rename_i heq
    cases heq.symm.trans h
  · rename_i heq
    cases heq.symm.trans h
  · rename_i heq
    cases heq.symm.trans h
    rfl

theorem resolveLoop_follows (rt : Runtime) (total passes : ℕ) (s : ObjectStore) (count : ℕ) :
    Follows progress (resolveLoop rt progress total s count)
      (checked (GitpResolve.resolveLoop rt passes s).2)
      (fun _ more => more = counting .resolveDeltas total count (pendingCount s.deltas))
      (fun more => more <+: counting .resolveDeltas total count (pendingCount s.deltas)) := by
  fun_induction GitpResolve.resolveLoop rt passes s generalizing count with
  | case1 passes s t ds h ih =>
    intro c log
    obtain ⟨more, hx, hmore⟩ := @resolvePass_follows progress rt total s s.deltas count
      c log
    rw [countedPass, h] at hx hmore
    obtain ⟨-, rfl⟩ := hmore
    set n := pendingCount s.deltas - pendingCount ds with hn
    have hsplit : pendingCount s.deltas = n + pendingCount ds := by
      have := (resolvePass_count h).2
      omega
    obtain ⟨rest, hrest, hend⟩ := ih (count + n) c
      (if progress then log ++ counting .resolveDeltas total count (count + n - count) else log)
    rw [resolveLoop_from hx]
    refine ⟨counting .resolveDeltas total count n ++ rest, ?_, ?_⟩
    · refine hrest.trans ?_
      rw [Nat.add_sub_cancel_left]
      cases progress <;> simp
    · rw [hsplit, ← counting_append]
      split at hend
      · rw [hend]
      · exact (List.prefix_append_right_inj _).mpr hend
  | case2 passes s t ds h =>
    intro c log
    obtain ⟨more, hx, hmore⟩ := @resolvePass_follows progress rt total s s.deltas count
      c log
    rw [countedPass, h] at hx hmore
    obtain ⟨-, rfl⟩ := hmore
    rw [resolveLoop_from hx, Nat.add_sub_cancel_left]
    refine ⟨counting .resolveDeltas total count (pendingCount s.deltas - pendingCount ds), ?_, ?_⟩
    · by_cases hleft : ∃ δ ∈ ds, δ.deltaData.isSome = true
      · rw [failIf, if_pos hleft]
        rfl
      · rw [failIf_of_not hleft]
        rfl
    · by_cases hleft : ∃ δ ∈ ds, δ.deltaData.isSome = true
      · rw [failIf, if_pos hleft]
        exact counting_isPrefix _ _ _ (Nat.sub_le _ _)
      · have hzero : pendingCount ds = 0 := List.countP_eq_zero.mpr fun δ hδ hs => hleft ⟨δ, hδ, hs⟩
        rw [failIf_of_not hleft, hzero]
        rfl
  | case3 passes s e h =>
    intro c log
    obtain ⟨more, hx, hmore⟩ := @resolvePass_follows progress rt total s s.deltas count
      c log
    rw [countedPass, h] at hx hmore
    exact ⟨more, resolveLoop_stopped hx, hmore⟩
  | case4 passes s h =>
    intro c log
    obtain ⟨more, hx, hmore⟩ := @resolvePass_follows progress rt total s s.deltas count
      c log
    rw [countedPass, h] at hx hmore
    exact ⟨more, resolveLoop_stopped hx, hmore⟩

/-- The reports on a pack with this many deltas. -/
def resolveReports (deltas : ℕ) : List Report :=
  if deltas > 0 then
    .stage (ascii "resolving deltas") :: .resolveDeltas 0 deltas ::
      counting .resolveDeltas deltas 0 deltas
  else []

theorem resolveDeltas_follows (rt : Runtime) {s : ObjectStore}
    (hs : ∀ δ ∈ s.deltas, δ.deltaData.isSome = true) :
    Follows progress (resolveDeltas rt progress s) (checked (GitpResolve.resolveDeltas rt s))
      (fun _ more => more = resolveReports s.deltas.length)
      (fun more => more <+: resolveReports s.deltas.length) := by
  have hall : pendingCount s.deltas = s.deltas.length := List.countP_eq_length.mpr hs
  have hloop := @resolveLoop_follows progress rt s.deltas.length 0 s 0
  rw [hall] at hloop
  unfold resolveDeltas resolveReports
  by_cases hpos : s.deltas.length > 0
  · simp only [if_pos hpos]
    refine Follows.record (Follows.record (hloop.mono ?_ ?_))
    · rintro _ more rfl
      rfl
    · exact fun more h => (List.prefix_cons_inj _).mpr ((List.prefix_cons_inj _).mpr h)
  · simp only [if_neg hpos]
    have hnil : counting .resolveDeltas s.deltas.length 0 s.deltas.length = [] := by
      rw [Nat.eq_zero_of_not_pos hpos]
      rfl
    rw [hnil] at hloop
    exact hloop

/-! ### The files -/

section
variable {store : ObjectStore} {fuel : ℕ}

theorem countLoop_le {data : List UInt8} {pos n c : ℕ}
    (h : countLoop store fuel data pos n = some (ok c)) : n ≤ c := by
  induction fuel generalizing pos n with
  | zero =>
    rw [countLoop] at h
    cases h
  | succ fuel ih =>
    rw [countLoop] at h
    split at h
    · cases h
    · cases h
    · cases h
      exact Nat.le_refl _
    · split_ifs at h
      · split at h
        · exact (Nat.le_add_right _ _).trans (ih h)
        · rename_i hno
          exact (hno _ h).elim
      · exact (Nat.le_succ _).trans (ih h)
      · exact ih h

theorem returned_log {α : Type} {log : List GitpProgress.Report} (a : α)
    {E : GitpProgress.Session → Prop} :
    Triple (fun s => s.2 = log) (silent (returned (ok a)))
      (fun d s => d = a ∧ s.2 = log) E :=
  fun _ hs => ⟨rfl, hs⟩

/-- The traversal reports one more file or link after each, and stops short of the count only when
it fails. -/
theorem materializeTree_log (faults : ℕ → Fault) (base : List GitpProgress.Report)
    (total fuel : ℕ) :
    (∀ treeOID dir written c, countMaterializedEntries store fuel treeOID = some (ok c) →
      Triple (fun s => s.2 = base ++ GitpProgress.reports progress total written)
        (GitpProgress.materializeTree faults progress store fuel treeOID dir total written)
        (fun w s => w = written + c ∧ s.2 = base ++ GitpProgress.reports progress total w)
        (fun s => ∃ k ≤ written + c, s.2 = base ++ GitpProgress.reports progress total k)) ∧
    (∀ data pos dir written n c, countLoop store fuel data pos n = some (ok c) →
      Triple (fun s => s.2 = base ++ GitpProgress.reports progress total written)
        (GitpProgress.materializeLoop faults progress store fuel data pos dir total written)
        (fun w s => w + n = written + c ∧ s.2 = base ++ GitpProgress.reports progress total w)
        (fun s => ∃ k, k + n ≤ written + c ∧
          s.2 = base ++ GitpProgress.reports progress total k)) := by
  have hself : ∀ (written n c : ℕ) (s : GitpProgress.Session), n ≤ c →
      s.2 = base ++ GitpProgress.reports progress total written →
      ∃ k, k + n ≤ written + c ∧ s.2 = base ++ GitpProgress.reports progress total k :=
    fun written n c s hn hs => ⟨written, by omega, hs⟩
  induction fuel with
  | zero =>
    constructor
    · intro treeOID dir written c hc
      rw [countMaterializedEntries] at hc
      cases hc
    · intro data pos dir written n c hc
      rw [countLoop] at hc
      cases hc
  | succ fuel ih =>
    obtain ⟨ihTree, ihLoop⟩ := ih
    constructor
    · intro treeOID dir written c hc
      rw [countMaterializedEntries] at hc
      rw [GitpProgress.materializeTree]
      cases hd : treeData store treeOID with
      | ok data =>
        rw [hd] at hc
        apply Triple.bind (returned_log data)
        intro d
        apply Triple.assuming
        rintro rfl
        exact (ihLoop d 0 dir written 0 c hc).post (fun w s h => h) fun s h => h
      | error => rw [hd] at hc; cases hc
      | panic => rw [hd] at hc; cases hc
    · intro data pos dir written n c hc
      have hle := countLoop_le hc
      rw [countLoop] at hc
      rw [GitpProgress.materializeLoop]
      cases hn : nextTreeEntry data pos store.algo with
      | error => rw [hn] at hc; cases hc
      | panic => rw [hn] at hc; cases hc
      | ok next =>
        rw [hn] at hc
        apply Triple.bind (returned_log next)
        intro d
        apply Triple.assuming
        rintro rfl
        rcases d with _ | ⟨entry, nextPos⟩
        · cases hc
          exact Triple.pure fun s hs => ⟨rfl, hs⟩
        dsimp only at hc ⊢
        split
        · exact Triple.throw fun s hs => hself written n c s hle hs
        split_ifs at hc ⊢ with hm hcount
        · apply Triple.bind ((silent_log _).onError fun s hs => hself written n c s hle hs)
          intro ⟨⟩
          cases hnested : countMaterializedEntries store fuel entry.oid with
          | none => rw [hnested] at hc; cases hc
          | some nested =>
            rw [hnested] at hc
            cases nested with
            | error => cases hc
            | panic => cases hc
            | ok nested =>
              dsimp only at hc
              have hnc := countLoop_le hc
              apply Triple.bind ((ihTree _ _ written nested hnested).post (fun _ _ h => h) ?_)
              · intro w
                apply Triple.assuming
                rintro rfl
                refine (ihLoop data nextPos dir _ _ c hc).post ?_ ?_
                · rintro w s ⟨hw, hs⟩
                  exact ⟨by omega, hs⟩
                · rintro s ⟨k, hk, hs⟩
                  exact ⟨k, by omega, hs⟩
              · rintro s ⟨k, hk, hs⟩
                exact ⟨k, by omega, hs⟩
        · have hnc := countLoop_le hc
          apply Triple.bind ((silent_log _).onError fun s hs => hself written n c s hle hs)
          intro one
          apply Triple.bind (GitpProgress.record_reports total written)
          intro ⟨⟩
          refine (ihLoop data nextPos dir _ _ c hc).post ?_ ?_
          · rintro w s ⟨hw, hs⟩
            exact ⟨by omega, hs⟩
          · rintro s ⟨k, hk, hs⟩
            exact ⟨k, by omega, hs⟩
        · exact (ihLoop data nextPos dir written n c hc).post (fun _ _ h => h) fun _ h => h

/-- What is reported before the first file. -/
def firstReports (progress : Bool) (total : ℕ) : List GitpProgress.Report :=
  if progress then [.stage (ascii "writing files"), .writing 0 total] else []

theorem reports_all (total : ℕ) :
    firstReports progress total ++ GitpProgress.reports progress total total =
      GitpFaithful.allReports progress total := by
  cases progress <;> simp [firstReports, GitpProgress.reports, GitpFaithful.allReports,
    List.range_succ_eq_map, Function.comp_def]

theorem reports_isPrefix (total : ℕ) {k : ℕ} (h : k ≤ total) :
    firstReports progress total ++ GitpProgress.reports progress total k <+:
      GitpFaithful.allReports progress total := by
  obtain ⟨d, rfl⟩ := Nat.exists_eq_add_of_le h
  rw [← reports_all, List.prefix_append_right_inj]
  cases progress with
  | false => exact List.prefix_rfl
  | true =>
    simp only [GitpProgress.reports, if_true, List.range_add, List.map_append]
    exact List.prefix_append _ _

/-- The log of a checkout, whether it comes to its end or not. -/
theorem checkout_log (faults : ℕ → Fault) (store : ObjectStore) (fuel : ℕ) (treeOID : OID)
    (outDir : Path) :
    Triple (fun s => s.2 = []) (GitpProgress.materialize faults progress store fuel treeOID outDir)
      (fun n s => s.2 = GitpFaithful.allReports progress n)
      (fun s => ∃ total, s.2 <+: GitpFaithful.allReports progress total) := by
  have hnil : ∀ s : GitpProgress.Session, s.2 = [] →
      ∃ total, s.2 <+: GitpFaithful.allReports progress total := by
    intro s hs
    rw [hs]
    exact ⟨0, List.nil_prefix⟩
  unfold GitpProgress.materialize
  cases hcount : countMaterializedEntries store fuel treeOID with
  | none => exact Triple.throw hnil
  | some counted =>
    cases counted with
    | error e => exact Triple.throw hnil
    | panic => exact Triple.throw hnil
    | ok total =>
      apply Triple.bind (returned_log total)
      intro total'
      apply Triple.assuming
      rintro rfl
      have hstart : firstReports progress total' ++ GitpProgress.reports progress total' 0 =
          firstReports progress total' := by
        cases progress <;> exact List.append_nil _
      apply Triple.bind (Q := fun _ s =>
        s.2 = if progress then [.stage (ascii "writing files")] else [])
      · intro s hs
        simp only [record, from_ofStep, hs, List.nil_append]
      intro ⟨⟩
      apply Triple.bind (Q := fun _ s => s.2 = firstReports progress total')
      · intro s hs
        simp only [record, from_ofStep, hs, firstReports]
        cases progress <;> rfl
      intro ⟨⟩
      apply Triple.bind ((silent_log _).onError fun s hs => ?_)
      · intro ⟨⟩
        apply Triple.bind (((materializeTree_log faults (firstReports progress total') total'
          fuel).1 treeOID outDir 0 total' hcount).mono (fun s hs => hs.trans hstart.symm)
          (fun _ _ h => h) ?_)
        · intro written
          apply Triple.assuming
          rintro rfl
          rw [Nat.zero_add]
          exact Triple.pure fun s hs => hs.trans (reports_all total')
        · rintro s ⟨k, hk, hs⟩
          exact ⟨total', hs ▸ reports_isPrefix total' (by omega)⟩
      · exact ⟨total', hs ▸ hstart ▸ reports_isPrefix total' (Nat.zero_le _)⟩

end

/-- The reports on a checkout of this many files and links. -/
def writeReports (files : ℕ) : List Report :=
  .stage (ascii "writing files") :: .writing 0 files :: counting .writing files 0 files

theorem writeReports_eq (files : ℕ) :
    (GitpFaithful.allReports true files).map writingReport = writeReports files := by
  simp [GitpFaithful.allReports, writeReports, counting, writingReport, List.range_succ_eq_map,
    List.range'_eq_map_range, Function.comp_def, Nat.add_comm]

theorem materialize_follows (host : Host) (store : ObjectStore) (fuel : ℕ) (treeOID : OID)
    (outDir : Path) :
    Follows progress (materialize host progress store fuel treeOID outDir)
      (onDisk (GitpCheckout.materialize host.faults store fuel treeOID outDir))
      (fun n more => more = writeReports n) (fun more => ∃ n, more <+: writeReports n) := by
  intro c log
  have hlog := @checkout_log progress host.faults store fuel treeOID outDir (c.world, []) rfl
  obtain ⟨logged, hx⟩ := (GitpProgress.materialize_follows host.faults progress store fuel treeOID
    outDir).exists_log c.world []
  rw [hx] at hlog
  rw [materialize, onDisk, from_ofStep, from_ofStep, hx]
  rcases hr : (GitpCheckout.materialize host.faults store fuel treeOID outDir).from c.world with
    ⟨r, w⟩
  rw [hr] at hlog
  cases progress with
  | false =>
    have hnil : logged = [] := by
      cases r with
      | ok n => exact hlog
      | error e =>
        obtain ⟨total, h⟩ := hlog
        exact List.prefix_nil.mp h
    subst hnil
    cases r with
    | ok n => exact ⟨writeReports n, by simp, rfl⟩
    | error e => exact ⟨[], by simp, 0, List.nil_prefix⟩
  | true =>
    refine ⟨logged.map writingReport, rfl, ?_⟩
    cases r with
    | ok n =>
      obtain rfl : logged = GitpFaithful.allReports true n := hlog
      exact writeReports_eq n
    | error e =>
      obtain ⟨total, h⟩ := hlog
      exact ⟨total, writeReports_eq total ▸ h.map writingReport⟩

/-! ### The whole clone -/

/-- All that is reported before the last line. -/
def phases (b : Body) (entries deltas files : ℕ) : List Report :=
  .stage (ascii "resolving refs") :: .stage (ascii "downloading pack") ::
    (b.reports ++ (parseReports entries ++ (resolveReports deltas ++ writeReports files)))

/-- What a clone that fails has reported: the beginning of what it would have. -/
def Interrupted (more : List Report) : Prop :=
  more ≠ [] ∧ ∃ b entries deltas files, more <+: phases b entries deltas files

/-- What a clone that succeeds has reported. -/
def Completed (more : List Report) : Prop :=
  ∃ b entries deltas files, more = phases b entries deltas files ++ [.finish files]

theorem pending_parsed {zlib : Zlib} {pack : List UInt8} {algo : HashAlgorithm} {s : ObjectStore}
    (h : GitpPack.parsePack zlib pack (newObjectStore algo) = ok s) :
    ∀ δ ∈ s.deltas, δ.deltaData.isSome = true := by
  obtain ⟨es, p, -, hparsed, -⟩ := GitpStoreInvariant.parsePack_parsed h
  exact (GitpSoundness.Parsed.ready hparsed).pending

theorem prefix_nil (l : List Report) : l ++ [] <+: l := by
  rw [List.append_nil]

section
variable {b : Body} {entries deltas : ℕ} {more : List Report}

/-- The first two lines. -/
def opening : List Report := [.stage (ascii "resolving refs"), .stage (ascii "downloading pack")]

theorem interrupted_opening (hne : more ≠ []) (h : more <+: opening) : Interrupted more := by
  refine ⟨hne, ⟨[], [], none⟩, 0, 0, 0, h.trans ?_⟩
  exact (List.prefix_cons_inj _).mpr ((List.prefix_cons_inj _).mpr List.nil_prefix)

theorem interrupted_download (h : more <+: b.reports) : Interrupted (opening ++ more) := by
  refine ⟨List.cons_ne_nil _ _, b, 0, 0, 0, ?_⟩
  exact (List.prefix_append_right_inj opening).mpr (h.trans (List.prefix_append _ _))

theorem interrupted_parse (h : more <+: parseReports entries) :
    Interrupted (opening ++ (b.reports ++ more)) := by
  refine ⟨List.cons_ne_nil _ _, b, entries, 0, 0, (List.prefix_append_right_inj opening).mpr ?_⟩
  exact (List.prefix_append_right_inj b.reports).mpr (h.trans (List.prefix_append _ _))

theorem interrupted_resolve (h : more <+: resolveReports deltas) :
    Interrupted (opening ++ (b.reports ++ (parseReports entries ++ more))) := by
  refine ⟨List.cons_ne_nil _ _, b, entries, deltas, 0, ?_⟩
  refine (List.prefix_append_right_inj opening).mpr ?_
  refine (List.prefix_append_right_inj b.reports).mpr ?_
  exact (List.prefix_append_right_inj _).mpr (h.trans (List.prefix_append _ _))

theorem interrupted_write {files : ℕ} (h : more <+: writeReports files) :
    Interrupted
      (opening ++ (b.reports ++ (parseReports entries ++ (resolveReports deltas ++ more)))) := by
  refine ⟨List.cons_ne_nil _ _, b, entries, deltas, files, ?_⟩
  refine (List.prefix_append_right_inj opening).mpr ?_
  refine (List.prefix_append_right_inj b.reports).mpr ?_
  exact (List.prefix_append_right_inj _).mpr ((List.prefix_append_right_inj _).mpr h)

end

/-- Reporting or not, a clone does what a clone without progress does. -/
theorem body_follows (host : Host) (opts : Options) (fuel : ℕ) :
    Follows opts.progress (body host opts fuel) (plainClone host opts fuel)
      (fun _ more => Completed more) Interrupted := by
  have hrefs : Interrupted [.stage (ascii "resolving refs")] :=
    interrupted_opening (List.cons_ne_nil _ _) ⟨[.stage (ascii "downloading pack")], rfl⟩
  unfold body plainClone fetch
  simp only [bind_assoc, pure_bind]
  refine Follows.record ?_
  refine ((exchange_silent opts.progress host.remote _).mono (fun _ _ h => h)
    fun _ h => h ▸ hrefs).bind ?_
  rintro refsBuf _ rfl
  refine follows_checked_bind hrefs fun selected _ => ?_
  refine follows_checked_bind hrefs fun req _ => ?_
  refine Follows.record ?_
  refine ((exchange_follows host.remote opts.progress _).mono (fun _ _ h => h)
    fun more h => ?_).bind ?_
  · obtain ⟨b, h⟩ := h
    exact interrupted_download h
  rintro response _ ⟨b, -, rfl⟩
  rw [receive, checked_bind, bind_assoc]
  refine follows_checked_bind ?_ fun pack _ => ?_
  · exact interrupted_download (prefix_nil _)
  rw [checked_bind, bind_assoc]
  refine ((Follows.known (parsePack_follows host.zlib pack _)).mono (fun _ _ h => h)
    fun more h => ?_).bind ?_
  · obtain ⟨entries, h⟩ := h
    exact interrupted_parse h
  rintro parsed _ ⟨hparse, entries, rfl⟩
  refine ((resolveDeltas_follows host.rt (pending_parsed hparse)).mono (fun _ _ h => h)
    fun more h => interrupted_resolve h).bind ?_
  rintro store _ rfl
  refine follows_checked_bind ?_ fun treeOID _ => ?_
  · exact interrupted_resolve (prefix_nil _)
  refine ((materialize_follows host store fuel treeOID opts.outDir).mono (fun _ _ h => h)
    fun more h => ?_).bind ?_
  · obtain ⟨files, h⟩ := h
    exact interrupted_write h
  rintro files _ rfl
  exact follows_record ⟨b, entries, parsed.deltas.length, files, by simp [phases]⟩

/-- What comes of a clone, and what is reported of it. -/
theorem clone_from (host : Host) (opts : Options) (fuel : ℕ) (c : Outside) (log : List Report) :
    ∃ more, (clone host opts fuel).from (c, log) =
      (((plainClone host opts fuel).from c).1, ((plainClone host opts fuel).from c).2,
        if opts.progress then log ++ more ++ [.close] else log) ∧
      (∀ u, ((plainClone host opts fuel).from c).1 = .ok u → Completed more) ∧
      ∀ e, ((plainClone host opts fuel).from c).1 = .error e → Interrupted more := by
  obtain ⟨more, hx, hmore⟩ := body_follows host opts fuel c log
  refine ⟨more, ?_, ?_, ?_⟩
  · rw [clone, closing, from_ofStep, hx]
    dsimp only
    cases opts.progress <;> rfl
  · intro u hu
    rw [hu] at hmore
    exact hmore
  · intro e he
    rw [he] at hmore
    exact hmore

/-- Progress is only watched: whether it is reported or not, a clone sends the same requests, leaves
the same files and ends the same way. What is reported takes the phases in order, counts in each of
them without a gap, is broken off where the clone fails, and always ends with one `Close`. -/
theorem clone_reports (host : Host) (opts : Options) (fuel : ℕ) (c : Outside) (log : List Report) :
    ∃ result outside more,
      (clone host { opts with progress := false } fuel).from (c, log) = (result, outside, log) ∧
      (clone host { opts with progress := true } fuel).from (c, log) =
        (result, outside, log ++ more ++ [.close]) ∧
      (∀ u, result = .ok u → Completed more) ∧ ∀ e, result = .error e → Interrupted more := by
  obtain ⟨_, hquiet, -⟩ := clone_from host { opts with progress := false } fuel c log
  obtain ⟨more, hloud, hok, herr⟩ := clone_from host { opts with progress := true } fuel c log
  exact ⟨_, _, more, hquiet, hloud, hok, herr⟩

end GitpClone
