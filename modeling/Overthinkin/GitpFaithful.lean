import Overthinkin.GitpStep
import Overthinkin.GitpProgress
import Mathlib.Data.Set.Card

/-! A checkout that succeeds in a new directory leaves exactly the files, links and directories
that its tree lists. -/
namespace GitpFaithful

open GoRuntime GoRuntime.Outcome GitpObject GitpTree PosixFileSystem PosixCalls StatefulCall
  GoFilepath GitpCheckout GitpContainment GitpEscape GitpPlan

/-- Whatever a directory contains, it is a directory. -/
def Shows : Kind → Node → Prop
  | .directory, .dir _ _ => True
  | .file data executable, .file data' mode => data' = data ∧ mode = fileMode executable
  | .symlink target, .symlink target' => target' = target
  | _, _ => False

theorem shows_reading : Reading Shows where
  made d kind := by
    cases kind with
    | directory => exact trivial
    | file => exact ⟨rfl, rfl⟩
    | symlink => exact rfl
  entries kind parent es es' h := by
    cases kind <;> exact h

section
variable {faults : ℕ → Fault} {outDir : Path} {root : Inode} {dirs : List (List Name)}
  {done : List Step} {w : World} {s : Step}

theorem performAll_settled {steps : List Step} (hr : Rooted dirs steps)
    (h : Built Shows outDir root dirs done w.fs) (written : ℕ) :
    Triple (· = w) (performAll faults outDir written steps)
      (fun total w' => total = written + weights steps ∧ Grows w.fs w'.fs ∧
        ∃ dirs', Built Shows outDir root dirs' (steps.foldl settle done) w'.fs)
      (fun _ => True) := by
  induction hr generalizing done w written with
  | nil =>
    apply Triple.pure
    rintro s rfl
    exact ⟨rfl, Grows.refl _, _, h⟩
  | @cons dirs s rest hs hn _ _ ih =>
    apply Triple.bind (perform_settled shows_reading h hs hn)
    intro one
    apply Triple.assuming
    rintro rfl
    apply Triple.fixed
    rintro w' ⟨hg, hw⟩
    apply (ih hw _).post _ fun _ h => h
    rintro total w'' ⟨rfl, hg', hb⟩
    exact ⟨by rw [weights_cons, Nat.add_assoc], hg.trans hg', hb⟩

end

/-! ### What a tree lists is what there is -/

/-- Under `root` is what the tree lists, and nothing else. -/
structure Faithful (store : ObjectStore) (treeOID : OID) (fs : FileSystem) (root : Inode) :
    Prop where
  complete : ∀ path kind, Listed store treeOID path kind →
    ∃ n, fs.nodeAt root path = some n ∧ Shows kind n
  nothingElse : ∀ path i, path ≠ [] → fs.descend root path = some i →
    ∃ kind, Listed store treeOID path kind

/-- The files and symbolic links under `root`. -/
def leaves (fs : FileSystem) (root : Inode) : Set (List Name) :=
  {path | ∃ n, fs.nodeAt root path = some n ∧ Leaf n}

/-- The steps have been taken in `root`, and nothing else has happened there. -/
structure Taken (steps : List Step) (fs : FileSystem) (root : Inode) : Prop where
  isDir : fs.isDir root = true
  shown : ∀ s ∈ steps, ∃ n, fs.nodeAt root s.path = some n ∧ Shows s.kind n
  only : ∀ path i, fs.descend root path = some i → path = [] ∨ path ∈ steps.map Step.path

theorem leaf_iff {kind : Kind} {n : Node} (h : Shows kind n) : Leaf n ↔ kind ≠ .directory := by
  cases kind <;> cases n <;> simp_all [Shows, Leaf]

section
variable {store : ObjectStore} {treeOID : OID} {fs : FileSystem} {root : Inode}
  {steps : List Step} {es : List TreeEntry}

theorem Taken.faithful (h : Taken steps fs root) (hc : Contents store treeOID es)
    (hd : Describes store [] es steps) : Faithful store treeOID fs root where
  complete := by
    rintro path kind ⟨es', hc', e, he, hl⟩
    obtain rfl := hc.unique hc'
    obtain ⟨s, hs, hp, hk⟩ := hd.listed e he path kind hl
    rw [List.nil_append] at hp
    rw [← hp, ← hk]
    exact h.shown s hs
  nothingElse := by
    intro path i hne hi
    rcases h.only path i hi with hp | hp
    · exact (hne hp).elim
    · obtain ⟨s, hs, rfl⟩ := List.mem_map.mp hp
      obtain ⟨e, he, path, hp, hl⟩ := hd.only s hs
      rw [hp]
      exact ⟨s.kind, es, hc, e, he, hl⟩

theorem weights_eq_length (steps : List Step) :
    weights steps = (steps.filter fun s => s.kind ≠ .directory).length := by
  induction steps with
  | nil => rfl
  | cons s rest ih =>
    rw [weights_cons, ih]
    cases hk : s.kind <;> simp [hk, Kind.weight, Nat.add_comm]

theorem Taken.leaves_eq (h : Taken steps fs root) :
    leaves fs root =
      ((steps.filter fun s => s.kind ≠ .directory).map Step.path).toFinset := by
  ext path
  rw [Finset.mem_coe, List.mem_toFinset]
  constructor
  · rintro ⟨n, hn, hleaf⟩
    obtain ⟨i, hi, hni⟩ := Option.bind_eq_some_iff.mp hn
    rcases h.only path i hi with rfl | hp
    · cases hi
      obtain ⟨parent, entries, hr⟩ := isDir_iff.mp h.isDir
      exact (hleaf parent entries (Option.some.inj (hni.symm.trans hr))).elim
    · obtain ⟨s, hs, rfl⟩ := List.mem_map.mp hp
      obtain ⟨n', hn', hshow⟩ := h.shown s hs
      obtain rfl := Option.some.inj (hn.symm.trans hn')
      exact List.mem_map_of_mem (List.mem_filter.mpr
        ⟨hs, decide_eq_true ((leaf_iff hshow).mp hleaf)⟩)
  · intro hp
    obtain ⟨s, hs, rfl⟩ := List.mem_map.mp hp
    obtain ⟨hs, hk⟩ := List.mem_filter.mp hs
    obtain ⟨n, hn, hshow⟩ := h.shown s hs
    exact ⟨n, hn, (leaf_iff hshow).mpr (of_decide_eq_true hk)⟩

theorem Taken.weights (h : Taken steps fs root) (hd : (steps.map Step.path).Nodup) :
    weights steps = (leaves fs root).ncard := by
  have hsub : ((steps.filter fun s => s.kind ≠ .directory).map Step.path).Nodup :=
    hd.sublist (List.filter_sublist.map _)
  rw [h.leaves_eq, Set.ncard_coe_finset, List.toFinset_card_of_nodup hsub, List.length_map,
    weights_eq_length]

end

/-! ### The whole checkout -/

section
variable {faults : ℕ → Fault} {store : ObjectStore} {treeOID : OID} {outDir path : Path} {w : World}
  {root : Inode} {steps : List Step}

theorem create_nowhere (hl : w.fs.locate path = none) (hc : components path ≠ []) (kind : Kind) :
    Triple (· = w) (create faults path kind) (fun _ _ => False) (fun _ => True) := by
  cases kind with
  | directory => exact (ensureDir_nowhere hl hc).onError fun _ _ => trivial
  | file data executable =>
    have ho : ∀ mode, w.fs.openNoFollow path mode = .error .other := by
      intro mode
      rw [FileSystem.openNoFollow, hl]
    rw [create, writeBlob, if_neg (not_not.mpr rfl)]
    exact Triple.bind ((syscall_fails (ho _)).orElse _) fun _ _ h => h.elim
  | symlink target =>
    rw [create, writeSymlink, if_neg (not_not.mpr rfl)]
    split
    · exact Triple.throw fun _ _ => trivial
    · have hs : w.fs.symlink target path = .error (if path ≠ [] ∧ components path = [] then
          .alreadyExists else .other) := by
        rw [FileSystem.symlink, hl]
      exact (syscall_fails hs).orElse _

/-- Where the joined names lead nowhere, only the empty plan succeeds. -/
theorem performAll_nowhere (hne : outDir ≠ []) (hh : home w.fs outDir = none)
    (hr : Rooted [[]] steps) (written : ℕ) :
    Triple (· = w) (performAll faults outDir written steps)
      (fun total w' => steps = [] ∧ total = written ∧ w' = w) (fun _ => True) := by
  cases hr with
  | nil => exact Triple.pure fun s hs => ⟨rfl, rfl, hs⟩
  | @cons _ s rest hs hn _ _ =>
    have hplace : place outDir s.above = outDir := by
      rw [List.mem_singleton.mp hs]
      rfl
    have hl : w.fs.locate (join [place outDir s.above, s.name]) = none := by
      rw [hplace]
      exact locate_nowhere hne hn hh
    have hc : components (join [place outDir s.above, s.name]) ≠ [] := by
      rw [hplace, components_join hne hn]
      simp
    apply Triple.bind (Q := fun _ _ => False)
    · exact Triple.bind (create_nowhere hl hc s.kind) fun _ _ h => h.elim
    · exact fun _ _ h => h.elim

theorem performAll_taken (hne : outDir ≠ []) {parent : Inode}
    (hroot : w.fs.nodes root = some (.dir parent []))
    (hh : ∀ d, home w.fs outDir = some d → d = root) (hr : Rooted [[]] steps) :
    Triple (· = w) (performAll faults outDir 0 steps)
      (fun total w' => total = weights steps ∧ Grows w.fs w'.fs ∧ Taken (settled steps) w'.fs root)
      (fun _ => True) := by
  have htidy := tidy_empty hroot
  cases hhome : home w.fs outDir with
  | none =>
    apply (performAll_nowhere hne hhome hr 0).post _ fun _ h => h
    rintro total w' ⟨rfl, rfl, rfl⟩
    refine ⟨rfl, Grows.refl _, htidy.isDir, ?_, fun path i hi => .inl (descend_empty hroot hi)⟩
    exact List.forall_mem_nil _
  | some d =>
    obtain rfl := hh d hhome
    have hbuilt : Built Shows outDir d [[]] [] w.fs := by
      refine ⟨htidy, ?_, by simp, fun path i hi => .inl (descend_empty hroot hi)⟩
      intro p hp
      rw [List.mem_singleton.mp hp]
      exact ⟨hne, d, rfl, hhome, htidy.isDir⟩
    apply (performAll_settled hr hbuilt 0).post _ fun _ h => h
    rintro total w' ⟨rfl, hg, dirs', hb⟩
    exact ⟨Nat.zero_add _, hg, hb.tidy.isDir, hb.shown, hb.only⟩

/-- A new output directory is empty. -/
theorem made_fresh (hnew : w.fs.lstat path = none) (hd : IsDirectory (made w.fs path) path) :
    ∃ d name, w.fs.locate path = some (d, name) ∧ w.fs.entry d name = none ∧
      made w.fs path = w.fs.link d name (.dir d []) ∧
      (made w.fs path).lstat path = some w.fs.next := by
  cases hm : w.fs.mkdir path with
  | error e =>
    obtain ⟨i, hi, -⟩ := hd
    rw [made, hm] at hi
    cases hnew.symm.trans hi
  | ok e =>
    have hl := (mkdir_lstat hm).1
    obtain ⟨d, name, hloc, he, rfl⟩ := mkdir_eq_ok.mp hm
    have hmade : made w.fs path = w.fs.link d name (.dir d []) := by rw [made, hm]
    exact ⟨d, name, hloc, he, hmade, hmade ▸ hl⟩

theorem Sound.contents {es : List TreeEntry} (h : Sound store treeOID)
    (hc : Contents store treeOID es) : (es.map TreeEntry.name).Nodup ∧
      ∀ e ∈ es, e.mode = modeTree → Sound store e.oid := by
  obtain ⟨hc', hn, -, hs⟩ := h
  obtain rfl := hc.unique hc'
  exact ⟨hn, hs⟩

/-- The traversal of a sound tree comes to no path twice. -/
theorem Sound.plan (h : Sound store treeOID) {fuel : ℕ}
    (hstop : (planTree store fuel treeOID []).stop = none) :
    ∃ es, Contents store treeOID es ∧
      Describes store [] es (planTree store fuel treeOID []).steps ∧
      ((planTree store fuel treeOID []).steps.map Step.path).Nodup := by
  obtain ⟨es, hc, hdesc⟩ := (plan_describes store fuel).1 treeOID [] hstop
  obtain ⟨hnames, hsub⟩ := Sound.contents h hc
  exact ⟨es, hc, hdesc, hdesc.distinct hnames hsub⟩

theorem Taken.of_sound {fuel : ℕ} {fs : FileSystem} (hs : Sound store treeOID)
    (hstop : (planTree store fuel treeOID []).stop = none)
    (ht : Taken (settled (planTree store fuel treeOID []).steps) fs root) :
    Faithful store treeOID fs root ∧
      GitpPlan.weights (planTree store fuel treeOID []).steps = (leaves fs root).ncard := by
  obtain ⟨es, hc, hdesc, hnodup⟩ := Sound.plan hs hstop
  rw [settled_of_nodup hnodup] at ht
  exact ⟨ht.faithful hc hdesc, ht.weights hnodup⟩

/-- A traversal that comes to its end has taken the steps of its plan in the directory `root`. -/
theorem materializeTree_taken (hne : outDir ≠ []) {parent : Inode}
    (hroot : w.fs.nodes root = some (.dir parent []))
    (hh : ∀ d, home w.fs outDir = some d → d = root) (fuel : ℕ) :
    Triple (· = w) (materializeTree faults store fuel treeOID outDir 0)
      (fun _ w' => Grows w.fs w'.fs ∧ (planTree store fuel treeOID []).stop = none ∧
        Taken (settled (planTree store fuel treeOID []).steps) w'.fs root) (fun _ => True) := by
  have hrooted := (plan_rooted store fuel).1 treeOID [] [[]] List.mem_cons_self
  have hplan := materializeTree_run faults store fuel treeOID outDir
  rw [hplan, Plan.run]
  apply Triple.bind (performAll_taken hne hroot hh hrooted)
  intro written
  cases hstop : (planTree store fuel treeOID []).stop with
  | some stop => exact Triple.throw fun _ _ => trivial
  | none =>
    apply Triple.pure
    rintro w' ⟨-, hg, ht⟩
    exact ⟨hg, rfl, ht⟩

theorem materialize_taken (faults : ℕ → Fault) (store : ObjectStore)
    (hnew : w.fs.lstat outDir = none) (ha : Aligned w.fs outDir) (fuel : ℕ) (treeOID : OID) :
    Triple (· = w) (materialize faults store fuel treeOID outDir)
      (fun n w' => countMaterializedEntries store fuel treeOID = some (ok n) ∧
        (planTree store fuel treeOID []).stop = none ∧
        ∃ root, w'.fs.lstat outDir = some root ∧
          Taken (settled (planTree store fuel treeOID []).steps) w'.fs root)
      (fun _ => True) := by
  unfold materialize
  cases hcount : countMaterializedEntries store fuel treeOID with
  | none => exact Triple.throw fun _ _ => trivial
  | some total =>
    dsimp only
    rw [returned_bind]
    cases total with
    | error => exact Triple.throw fun _ _ => trivial
    | panic => exact Triple.throw fun _ _ => trivial
    | ok total =>
      apply Triple.bind ((ensureDir_triple w).onError fun _ _ => trivial)
      intro ⟨⟩
      apply Triple.fixed
      rintro s ⟨hfs, hdir, -⟩
      rw [hfs] at hdir
      obtain ⟨d, name, hl, he, hmade, hlstat⟩ := made_fresh hnew hdir
      have hroot : s.fs.nodes w.fs.next = some (.dir d []) := by
        rw [hfs, hmade, nodes_link_next]
      have hne : outDir ≠ [] := by
        rintro rfl
        simp [FileSystem.locate, components] at hl
      have hhome : ∀ x, home s.fs outDir = some x → x = w.fs.next := by
        intro x hx
        rw [hfs] at hx hroot
        exact below_empty hroot (ha _ x hlstat (tidy_empty hroot).isDir hx)
      apply Triple.bind (materializeTree_taken hne hroot hhome fuel)
      intro written
      apply Triple.pure
      rintro w' ⟨hg, hstop, ht⟩
      rw [← hfs] at hlstat
      exact ⟨rfl, hstop, w.fs.next, hg.lstat hlstat, ht⟩

/-- Where no name is there twice, what the tree lists is left in the new directory. -/
theorem materialize_faithful (faults : ℕ → Fault)
    (hnew : w.fs.lstat outDir = none) (ha : Aligned w.fs outDir)
    (hs : Sound store treeOID) (fuel : ℕ) :
    Triple (· = w) (materialize faults store fuel treeOID outDir)
      (fun n w' => ∃ root, w'.fs.lstat outDir = some root ∧ Faithful store treeOID w'.fs root ∧
        n = (leaves w'.fs root).ncard) (fun _ => True) := by
  apply (materialize_taken faults store hnew ha fuel treeOID).post _ fun _ h => h
  rintro n w' ⟨hcount, hstop, root, hlstat, ht⟩
  obtain ⟨hfaith, hleaves⟩ := ht.of_sound hs hstop
  exact ⟨root, hlstat, hfaith, ((count_plan store fuel).1 treeOID [] n hcount hstop).trans hleaves⟩

end

/-! ### With the progress -/

/-- The reports of a checkout of `n` files and links. -/
def allReports (progress : Bool) (n : ℕ) : List GitpProgress.Report :=
  if progress then
    .stage (ascii "writing files") :: (List.range (n + 1)).map fun k => .writing k n
  else []

/-- Every checkout into `outDir` that succeeds is faithful, and has reported every step. -/
def AllFaithful (fs : FileSystem) (outDir : Path) : Prop :=
  ∀ faults progress store fuel treeOID n w log, Sound store treeOID →
    (GitpProgress.materialize faults progress store fuel treeOID outDir).from (⟨fs, [], 0⟩, []) =
      (.ok n, (w, log)) →
    (∃ root, w.fs.lstat outDir = some root ∧ Faithful store treeOID w.fs root ∧
      n = (leaves w.fs root).ncard) ∧ log = allReports progress n

section
variable {faults : ℕ → Fault} {progress : Bool} {store : ObjectStore} {treeOID : OID}
  {fuel total : ℕ}

theorem performAll_weights {outDir : Path} (steps : List Step) (written : ℕ) :
    Triple (fun _ => True) (performAll faults outDir written steps)
      (fun n _ => n = written + weights steps) (fun _ => True) := by
  induction steps generalizing written with
  | nil => exact Triple.pure fun _ _ => rfl
  | cons s rest ih =>
    apply Triple.bind (Q := fun one _ => one = s.kind.weight)
    · exact Triple.bind (Q := fun _ _ => True) (fun _ _ => by split <;> trivial)
        fun _ => Triple.pure fun _ _ => rfl
    · intro one
      apply Triple.fixed
      rintro w rfl
      apply ((ih (written + s.kind.weight)).pre fun _ _ => trivial).post _ fun _ h => h
      rintro n - rfl
      rw [weights_cons, Nat.add_assoc]

/-- The traversal writes as many files and links as have been counted. -/
theorem materializeTree_total (faults : ℕ → Fault)
    (hcount : countMaterializedEntries store fuel treeOID = some (ok total)) (outDir : Path) :
    Triple (fun _ => True) (materializeTree faults store fuel treeOID outDir 0)
      (fun n _ => n = total) (fun _ => True) := by
  have hplan := materializeTree_run faults store fuel treeOID outDir
  rw [hplan, Plan.run]
  apply Triple.bind (performAll_weights _ 0)
  intro written
  cases hstop : (planTree store fuel treeOID []).stop with
  | some stop => exact Triple.throw fun _ _ => trivial
  | none =>
    apply Triple.pure
    rintro _ rfl
    rw [Nat.zero_add, (count_plan store fuel).1 treeOID [] total hcount hstop]

theorem materialize_reports (faults : ℕ → Fault) (progress : Bool) (store : ObjectStore) (fuel : ℕ)
    (treeOID : OID) (outDir : Path) :
    Triple (fun s => s.2 = [])
      (GitpProgress.materialize faults progress store fuel treeOID outDir)
      (fun n s => s.2 = allReports progress n) (fun _ => True) := by
  unfold GitpProgress.materialize
  cases hcount : countMaterializedEntries store fuel treeOID with
  | none => exact Triple.throw fun _ _ => trivial
  | some counted =>
    cases counted with
    | error => exact Triple.throw fun _ _ => trivial
    | panic => exact Triple.throw fun _ _ => trivial
    | ok total =>
      set base : List GitpProgress.Report :=
        if progress then [.stage (ascii "writing files"), .writing 0 total] else [] with hbase
      have hstart : base ++ GitpProgress.reports progress total 0 = base := by
        cases progress <;> simp [hbase, GitpProgress.reports]
      have hend : base ++ GitpProgress.reports progress total total =
          allReports progress total := by
        cases progress <;>
          simp [hbase, GitpProgress.reports, allReports, List.range_succ_eq_map, Function.comp_def]
      apply Triple.bind (Q := fun n s => n = total ∧ s.2 = [])
      · intro s hs
        exact ⟨rfl, hs⟩
      intro n
      apply Triple.assuming
      rintro rfl
      apply Triple.bind (Q := fun _ s => s.2 =
        if progress then [.stage (ascii "writing files")] else [])
      · intro s hs
        simp only [LoggedCall.record, from_ofStep, hs, List.nil_append]
      intro ⟨⟩
      apply Triple.bind (Q := fun _ s => s.2 = base)
      · intro s hs
        simp only [LoggedCall.record, from_ofStep, hs, hbase]
        cases progress <;> rfl
      intro ⟨⟩
      apply Triple.bind ((LoggedCall.silent_log _).onError fun _ _ => trivial)
      intro ⟨⟩
      apply Triple.bind (Q := fun written s => written = n ∧
        s.2 = base ++ GitpProgress.reports progress n written)
      · intro s hs
        have hlog := (GitpProgress.materializeTree_reports faults base store fuel n).1
          treeOID outDir 0 s (hs.trans hstart.symm)
        obtain ⟨log', hf⟩ := ((GitpProgress.materializeTree_follows store fuel n).1 treeOID
          outDir 0).exists_log s.1 s.2
        have htotal := materializeTree_total faults hcount outDir s.1 trivial
        rw [show (s.1, s.2) = s from rfl] at hf
        rw [hf] at hlog ⊢
        rcases hr : (materializeTree faults store fuel treeOID outDir 0).from s.1 with ⟨r, w⟩
        rw [hr] at hlog htotal
        cases r with
        | error => exact trivial
        | ok written => exact ⟨htotal, hlog⟩
      · intro written
        apply Triple.assuming
        rintro rfl
        exact Triple.pure fun s hs => hs.trans hend

end

theorem linkStore_contents {name : Name} (hn : Ordinary name) (h0 : 0 ∉ name) :
    Contents (linkStore name) (oidOf 1) [⟨name, modeSymlink, oidOf 0⟩] :=
  ⟨linkTree name, linkStore_tree name,
    .cons (nextTreeEntry_linkTree hn h0) (.nil (nextTreeEntry_end _ _))⟩

theorem linkStore_sound {name : Name} (hn : Ordinary name) (h0 : 0 ∉ name) :
    Sound (linkStore name) (oidOf 1) := by
  refine .intro (linkStore_contents hn h0) (List.nodup_singleton _) ?_ ?_
  · intro e he
    rw [List.mem_singleton.mp he]
    exact valid_of_ordinary hn
  · intro e he hm
    rw [List.mem_singleton.mp he] at hm
    have hne : modeSymlink ≠ modeTree := by decide
    exact (hne hm).elim

theorem linkStore_listed {name : Name} (hn : Ordinary name) (h0 : 0 ∉ name) :
    Listed (linkStore name) (oidOf 1) [name] (.symlink [97]) := by
  have hl : ListedBy (linkStore name) ⟨name, modeSymlink, oidOf 0⟩ [name] (.symlink [97]) :=
    .symlink (e := ⟨name, modeSymlink, oidOf 0⟩) rfl (linkStore_blob name)
  exact ⟨_, linkStore_contents hn h0, _, List.mem_cons_self, hl⟩

/-- A link made outside the new directory is missing from it. -/
theorem unfaithful {fs : FileSystem} {outDir : Path} {root d : Inode} {name : Name}
    (hnew : fs.lstat outDir = none) (hl : (made fs outDir).lstat outDir = some root)
    (hr : (made fs outDir).isDir root = true) (hh : home (made fs outDir) outDir = some d)
    (hb : ¬ Below (made fs outDir) root d) (hn : Ordinary name) (h0 : 0 ∉ name)
    (he : (made fs outDir).entry d name = none) :
    ∃ n w log, (GitpProgress.materialize quiet true (linkStore name) 3 (oidOf 1) outDir).from
        (⟨fs, [], 0⟩, []) = (.ok n, (w, log)) ∧
      ¬ ∃ root, w.fs.lstat outDir = some root ∧ Faithful (linkStore name) (oidOf 1) w.fs root := by
  obtain ⟨log, hf⟩ := (GitpProgress.materialize_follows quiet true
    (linkStore name) 3 (oidOf 1) outDir).exists_log ⟨fs, [], 0⟩ []
  have hm := materialize_link (w := ⟨fs, [], 0⟩) ⟨root, hl, hr⟩ hh hn h0 he _ rfl
  rcases hx : (materialize quiet (linkStore name) 3 (oidOf 1) outDir).from ⟨fs, [], 0⟩ with ⟨r, w⟩
  rw [hx] at hf hm
  cases r with
  | error => exact hm.elim
  | ok n =>
    refine ⟨n, w, log, hf, ?_⟩
    rintro ⟨root', hl', hfaith⟩
    obtain ⟨d', name', hloc, he', hmade, hlstat⟩ :=
      made_fresh (w := ⟨fs, [], 0⟩) hnew ⟨root, hl, hr⟩
    have hroot : (made fs outDir).nodes root = some (.dir d' []) := by
      rw [Option.some.inj (hl.symm.trans hlstat), hmade, nodes_link_next]
    have hsame : root' = root := by
      rw [hm.fs, (grows_link he _).lstat hl] at hl'
      exact (Option.some.inj hl').symm
    obtain ⟨node, hnode, -⟩ := hfaith.complete _ _ (linkStore_listed hn h0)
    obtain ⟨i, hi, -⟩ := Option.bind_eq_some_iff.mp hnode
    have hne : root ≠ d := fun h => hb (h ▸ .refl)
    rw [hsame, hm.fs, ← List.nil_append [name], descend_snoc] at hi
    change FileSystem.child _ root name = some i at hi
    rw [child_link (walk_isDir hh) (by simp [Bare]), if_neg fun h => hne h.1] at hi
    rw [FileSystem.child, hroot] at hi
    cases hi

/-- Every checkout that succeeds in a new directory is faithful exactly when the two texts of the
directory agree on it. -/
theorem faithful_iff (fs : FileSystem) (outDir : Path) (hnew : fs.lstat outDir = none) :
    AllFaithful fs outDir ↔ Aligned fs outDir := by
  constructor
  · intro h root d hl hr hh
    by_contra hb
    obtain ⟨name, hn, h0, he⟩ := exists_free_name (walk_isDir hh)
    obtain ⟨n, w, log, hrun, hnot⟩ := unfaithful hnew hl hr hh hb hn h0 he
    obtain ⟨⟨root', hl', hf, -⟩, -⟩ := h _ _ _ _ _ _ _ _ (linkStore_sound hn h0) hrun
    exact hnot ⟨root', hl', hf⟩
  · intro ha faults progress store fuel treeOID n w log hs hrun
    obtain ⟨log', hf⟩ := (GitpProgress.materialize_follows faults progress
      store fuel treeOID outDir).exists_log ⟨fs, [], 0⟩ []
    have hfaith := materialize_faithful (w := ⟨fs, [], 0⟩) faults hnew ha hs fuel _ rfl
    have hlog := materialize_reports faults progress store fuel treeOID outDir (⟨fs, [], 0⟩, []) rfl
    rw [hrun] at hlog hf
    obtain ⟨hv, hw⟩ := Prod.mk.inj hf
    rcases hx : (materialize faults store fuel treeOID outDir).from ⟨fs, [], 0⟩ with ⟨r, w'⟩
    rw [hx] at hfaith hv hw
    obtain rfl := (Prod.mk.inj hw).1
    dsimp only at hv
    subst hv
    exact ⟨hfaith, hlog⟩

theorem faithful_iff_vacant : vacant.lstat [111] = none ∧ AllFaithful vacant [111] := by
  have hl : vacant.locate [111] = some (0, [111]) := by
    refine locate_eq_some.mpr ⟨[], by decide, ?_⟩
    rw [FileSystem.walk]
    rfl
  have hnew : vacant.lstat [111] = none := by
    rw [FileSystem.lstat, hl]
    rfl
  exact ⟨hnew, (faithful_iff vacant [111] hnew).mpr (aligned_of_no_dotDot vacant (by decide))⟩

/-- The checkout that goes astray: it succeeds, and its link is not in the directory it made. -/
theorem detour_unfaithful :
    detour.lstat detourDir = none ∧ Sound (linkStore [102]) (oidOf 1) ∧
      ∃ n w log, (GitpProgress.materialize quiet true (linkStore [102]) 3 (oidOf 1) detourDir).from
          (⟨detour, [], 0⟩, []) = (.ok n, (w, log)) ∧
        ¬ ∃ root, w.fs.lstat detourDir = some root ∧
          Faithful (linkStore [102]) (oidOf 1) w.fs root := by
  have hn : Ordinary [102] := ⟨by decide, by decide, by decide, by decide⟩
  exact ⟨detour_lstat, linkStore_sound hn (by decide),
    unfaithful detour_lstat detour_made_lstat detour_made_isDir detour_home detour_apart hn
      (by decide) detour_free⟩

end GitpFaithful
