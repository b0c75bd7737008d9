import Overthinkin.GitpDotGit

/-! Which entries a checkout leaves out. Both traversals pass over every mode that is none of the
four they know, and not only over those of submodules. -/
namespace GitpSkipped

open GoRuntime GoRuntime.Outcome GitpObject GitpTree PosixFileSystem PosixCalls StatefulCall
  GoFilepath GitpCheckout GitpContainment GitpEscape GitpPlan GitpDotGit

/-- An entry that trees lead to, and the names on the way. -/
inductive EntryAt (store : ObjectStore) : OID → List Name → TreeEntry → Prop where
  | here {treeOID es e} : Contents store treeOID es → e ∈ es → EntryAt store treeOID [e.name] e
  | inside {treeOID es e path e'} : Contents store treeOID es → e ∈ es → e.mode = modeTree →
      EntryAt store e.oid path e' → EntryAt store treeOID (e.name :: path) e'

/-- The bits of a mode that say what kind of object it is. -/
def fileType (mode : UInt32) : UInt32 := mode &&& 0o170000

def typeRegular : UInt32 := 0o100000
def typeGitlink : UInt32 := 0o160000

def IsFile (fs : FileSystem) (path : Path) : Prop :=
  ∃ i data mode, fs.lstat path = some i ∧ fs.nodes i = some (.file data mode)

def IsSymlink (fs : FileSystem) (path : Path) : Prop :=
  ∃ i target, fs.lstat path = some i ∧ fs.nodes i = some (.symlink target)

/-- What an entry is owed: a file for a regular file, a link for a link, and only a submodule is
left out. -/
structure Kept (fs : FileSystem) (path : Path) (mode : UInt32) : Prop where
  file : fileType mode = typeRegular → IsFile fs path
  symlink : mode = modeSymlink → IsSymlink fs path
  leftOut : fs.lstat path = none → fileType mode = typeGitlink

/-- Whatever succeeds has given every entry what it is owed. -/
def NothingDropped (store : ObjectStore) (treeOID : OID) : Prop :=
  ∀ faults fuel outDir fs n w,
    (materialize faults store fuel treeOID outDir).from ⟨fs, [], 0⟩ = (.ok n, w) →
      ∀ path e, EntryAt store treeOID path e → Kept w.fs (place outDir path) e.mode

/-- There is a checkout of the tree that succeeds. -/
def Materializes (store : ObjectStore) (treeOID : OID) : Prop :=
  ∃ faults fuel outDir fs n w,
    (materialize faults store fuel treeOID outDir).from ⟨fs, [], 0⟩ = (.ok n, w)

/-- The modes that something is made of. -/
def Written (mode : UInt32) : Prop :=
  mode = modeTree ∨ mode = modeFile ∨ mode = modeExecutable ∨ mode = modeSymlink

/-- No entry but a submodule's has a mode that is passed over, unless another entry of the same
path is written. -/
def Complete (store : ObjectStore) (treeOID : OID) : Prop :=
  ∀ path e, EntryAt store treeOID path e →
    (fileType e.mode = typeRegular → ∃ e', EntryAt store treeOID path e' ∧
      (e'.mode = modeFile ∨ e'.mode = modeExecutable)) ∧
    (fileType e.mode ≠ typeGitlink → ∃ e', EntryAt store treeOID path e' ∧ Written e'.mode)

/-! ### The plan visits every entry -/

/-- What a step makes of an entry of this mode. -/
def Fits (mode : UInt32) : Kind → Prop
  | .directory => mode = modeTree
  | .file _ _ => mode = modeFile ∨ mode = modeExecutable
  | .symlink _ => mode = modeSymlink

theorem Fits.written {mode : UInt32} {kind : Kind} (h : Fits mode kind) : Written mode := by
  cases kind with
  | directory => exact Or.inl h
  | file => exact Or.inr (h.imp_right Or.inl)
  | symlink => exact Or.inr (Or.inr (Or.inr h))

theorem Fits.file {mode : UInt32} {kind : Kind} (h : Fits mode kind)
    (hm : mode = modeFile ∨ mode = modeExecutable) {n : Node} (ha : Alike kind n) :
    ∃ data mode, n = .file data mode := by
  have htree : ¬ (modeTree = modeFile ∨ modeTree = modeExecutable) := by decide
  have hlink : ¬ (modeSymlink = modeFile ∨ modeSymlink = modeExecutable) := by decide
  cases kind with
  | directory => exact absurd (h ▸ hm) htree
  | symlink => exact absurd (h ▸ hm) hlink
  | file =>
    cases n with
    | file data mode => exact ⟨data, mode, rfl⟩
    | dir => exact ha.elim
    | symlink => exact ha.elim

theorem Fits.symlink {kind : Kind} (h : Fits modeSymlink kind) {n : Node} (ha : Alike kind n) :
    ∃ target, n = .symlink target := by
  have htree : modeSymlink ≠ modeTree := by decide
  have hfile : ¬ (modeSymlink = modeFile ∨ modeSymlink = modeExecutable) := by decide
  cases kind with
  | directory => exact absurd h htree
  | file => exact absurd h hfile
  | symlink =>
    cases n with
    | symlink target => exact ⟨target, rfl⟩
    | dir => exact ha.elim
    | file => exact ha.elim

variable {store : ObjectStore} {treeOID : OID} {above path : List Name} {e : TreeEntry}
  {es : List TreeEntry} {fuel : ℕ}

theorem leafPlan_fits (hm : e.mode ≠ modeTree) (h : (leafPlan store e above).stop = none)
    (hw : Written e.mode) :
    ∃ kind, ⟨above, e.name, kind⟩ ∈ (leafPlan store e above).steps ∧ Fits e.mode kind := by
  unfold leafPlan at h ⊢
  cases hk : leafKind store e with
  | error stop =>
    rw [hk] at h
    cases h
  | ok kind =>
    cases leafKind_asksFor hk with
    | file hf => exact ⟨_, List.mem_cons_self, hf⟩
    | symlink hs => exact ⟨_, List.mem_cons_self, hs⟩
    | nothing hf hs =>
      rcases hw with hw | hw | hw | hw
      · exact (hm hw).elim
      · exact (hf (.inl hw)).elim
      · exact (hf (.inr hw)).elim
      · exact (hs hw).elim

/-- How a plan that comes to its end treats one of the entries. -/
inductive Visited (store : ObjectStore) (above : List Name) (e : TreeEntry) (steps : List Step) :
    Prop where
  | tree (fuel : ℕ) : e.mode = modeTree → ⟨above, e.name, .directory⟩ ∈ steps →
      (planTree store fuel e.oid (above ++ [e.name])).stop = none →
      (planTree store fuel e.oid (above ++ [e.name])).steps ⊆ steps → Visited store above e steps
  | leaf : e.mode ≠ modeTree → (leafPlan store e above).stop = none →
      (leafPlan store e above).steps ⊆ steps → Visited store above e steps

theorem Visited.mono {steps more : List Step} (h : Visited store above e steps)
    (hsub : steps ⊆ more) : Visited store above e more := by
  cases h with
  | tree fuel hm hmem hstop hsteps =>
    exact .tree fuel hm (hsub hmem) hstop (List.Subset.trans hsteps hsub)
  | leaf hm hstop hsteps => exact .leaf hm hstop (List.Subset.trans hsteps hsub)

theorem planLoop_visits {data : List UInt8} {pos : ℕ} (hes : Entries data store.algo pos es)
    (hstop : (planLoop store fuel data pos above).stop = none) (he : e ∈ es) :
    Ordinary e.name ∧ Visited store above e (planLoop store fuel data pos above).steps := by
  induction hes generalizing fuel with
  | nil => cases he
  | @cons pos entry nextPos es hn _ ih =>
    cases fuel with
    | zero =>
      rw [planLoop] at hstop
      cases hstop
    | succ fuel =>
      rw [planLoop, hn] at hstop ⊢
      dsimp only at hstop ⊢
      by_cases hv : validEntryName entry.name = false
      · rw [if_pos hv] at hstop
        cases hstop
      rw [if_neg hv] at hstop ⊢
      have hname : Ordinary entry.name := ordinary_of_valid (by simpa using hv)
      by_cases hm : entry.mode = modeTree
      · rw [if_pos hm] at hstop ⊢
        obtain ⟨-, hstop, h₁⟩ := Plan.then_stop hstop
        obtain ⟨hsub, hrest, h₂⟩ := Plan.then_stop hstop
        rw [h₁, h₂]
        rcases List.mem_cons.mp he with rfl | he
        · refine ⟨hname, .tree fuel hm (List.mem_append_left _ List.mem_cons_self) hsub ?_⟩
          exact fun s hs => List.mem_append_right _ (List.mem_append_left _ hs)
        · obtain ⟨hord, hvisit⟩ := ih hrest he
          exact ⟨hord, hvisit.mono fun s hs =>
            List.mem_append_right _ (List.mem_append_right _ hs)⟩
      · rw [if_neg hm] at hstop ⊢
        obtain ⟨hleaf, hrest, h₁⟩ := Plan.then_stop hstop
        rw [h₁]
        rcases List.mem_cons.mp he with rfl | he
        · exact ⟨hname, .leaf hm hleaf (List.subset_append_left _ _)⟩
        · obtain ⟨hord, hvisit⟩ := ih hrest he
          exact ⟨hord, hvisit.mono (List.subset_append_right _ _)⟩

theorem planTree_visits (hc : Contents store treeOID es)
    (hstop : (planTree store fuel treeOID above).stop = none) (he : e ∈ es) :
    Ordinary e.name ∧ Visited store above e (planTree store fuel treeOID above).steps := by
  obtain ⟨data, hd, hes⟩ := hc
  cases fuel with
  | zero =>
    rw [planTree] at hstop
    cases hstop
  | succ fuel =>
    rw [planTree, hd] at hstop ⊢
    exact planLoop_visits hes hstop he

/-- Every entry that trees lead to is under a directory of the plan, and is a step of it if its
mode is one of the four. -/
theorem entryAt_planned (h : EntryAt store treeOID path e)
    (hstop : (planTree store fuel treeOID above).stop = none) :
    (∃ front, path = front ++ [e.name] ∧ Ordinary e.name ∧ (front = [] ∨
      ∃ s ∈ (planTree store fuel treeOID above).steps, s.path = above ++ front ∧
        s.kind = .directory)) ∧
    (Written e.mode → ∃ s ∈ (planTree store fuel treeOID above).steps, s.path = above ++ path ∧
      Fits e.mode s.kind) := by
  induction h generalizing fuel above with
  | @here treeOID es e hc he =>
    obtain ⟨hord, hvisit⟩ := planTree_visits hc hstop he
    refine ⟨⟨[], rfl, hord, Or.inl rfl⟩, fun hw => ?_⟩
    cases hvisit with
    | tree fuel' hm hmem => exact ⟨_, hmem, rfl, hm⟩
    | leaf hm hleaf hsteps =>
      obtain ⟨kind, hmem, hfits⟩ := leafPlan_fits hm hleaf hw
      exact ⟨_, hsteps hmem, rfl, hfits⟩
  | @inside treeOID es e path e' hc he hm _ ih =>
    obtain ⟨-, hvisit⟩ := planTree_visits hc hstop he
    cases hvisit with
    | leaf hm' => exact absurd hm hm'
    | tree fuel' _ hmem hsub hsteps =>
      obtain ⟨⟨front, rfl, hord, hfront⟩, hstep⟩ := ih hsub
      have happ (rest : List Name) : above ++ [e.name] ++ rest = above ++ e.name :: rest := by
        rw [List.append_assoc, List.singleton_append]
      constructor
      · refine ⟨e.name :: front, rfl, hord, Or.inr ?_⟩
        rcases hfront with rfl | ⟨s, hs, hpath, hkind⟩
        · exact ⟨_, hmem, rfl, rfl⟩
        · exact ⟨s, hsteps hs, hpath.trans (happ front), hkind⟩
      · intro hw
        obtain ⟨s, hs, hpath, hfits⟩ := hstep hw
        exact ⟨s, hsteps hs, hpath.trans (happ _), hfits⟩

/-- The first tree on the way to an entry. -/
theorem EntryAt.first (h : EntryAt store treeOID path e) :
    ∃ es e', Contents store treeOID es ∧ e' ∈ es ∧ (e = e' ∨ e'.mode = modeTree) := by
  cases h with
  | here hc he => exact ⟨_, e, hc, he, Or.inl rfl⟩
  | inside hc he hm _ => exact ⟨_, _, hc, he, Or.inr hm⟩

theorem listedBy_entryAt {kind : Kind} (h : ListedBy store e path kind)
    (hc : Contents store treeOID es) (he : e ∈ es) :
    ∃ e', EntryAt store treeOID path e' ∧ Fits e'.mode kind := by
  induction h generalizing treeOID es with
  | directory hm => exact ⟨_, .here hc he, hm⟩
  | file hm _ => exact ⟨_, .here hc he, hm⟩
  | symlink hm _ => exact ⟨_, .here hc he, hm⟩
  | inside hm hc' he' _ ih =>
    obtain ⟨e', hat, hfits⟩ := ih hc' he'
    exact ⟨e', .inside hc he hm hat, hfits⟩

/-- Every step is taken for an entry of one of the four modes. -/
theorem step_entryAt (hstop : (planTree store fuel treeOID []).stop = none) {s : Step}
    (hs : s ∈ (planTree store fuel treeOID []).steps) :
    ∃ e, EntryAt store treeOID s.path e ∧ Fits e.mode s.kind := by
  obtain ⟨es, hc, hdesc⟩ := (plan_describes store fuel).1 treeOID [] hstop
  obtain ⟨e, he, path, hpath, hlisted⟩ := hdesc.only s hs
  rw [List.nil_append] at hpath
  rw [hpath]
  exact listedBy_entryAt hlisted hc he

/-! ### What a checkout that succeeds leaves -/

variable {faults : ℕ → Fault} {outDir : Path} {w : World} {done steps : List Step}
  {dirs : List (List Name)}

theorem performAll_stands (hr : Rooted dirs steps) (hd : ∀ p ∈ dirs, place outDir p ≠ [])
    (hs : Standing outDir done w.fs) (written : ℕ) :
    Triple (· = w) (performAll faults outDir written steps)
      (fun _ w' => feasible done steps = steps ∧ Standing outDir (done ++ steps) w'.fs)
      (fun _ => True) := by
  induction hr generalizing done w written with
  | nil =>
    apply Triple.pure
    rintro s rfl
    rw [List.append_nil]
    exact ⟨rfl, hs⟩
  | @cons dirs s rest ha hn _ _ ih =>
    have hne := hd _ ha
    by_cases hb : blocked done s = true
    · apply Triple.bind ((perform_blocked hne hn hs hb).onError fun _ _ => trivial)
      exact fun _ _ h => h.elim
    · have hstep : Triple (· = w) (perform faults outDir s)
          (fun _ w' => Persists w.fs w'.fs ∧ Holds w'.fs (target outDir s) s.name s.kind)
          (fun _ => True) :=
        Triple.bind (create_stands hne hn s.kind) fun _ => Triple.pure fun _ h => h
      apply Triple.bind hstep
      intro one
      apply Triple.fixed
      rintro w' ⟨hp, hholds⟩
      apply (ih (place_opened hne hn hd) (hs.take hp hholds) _).post _ fun _ h => h
      rintro total w'' ⟨hall, hstand⟩
      rw [feasible, if_neg hb, hall]
      rw [List.append_assoc, List.singleton_append] at hstand
      exact ⟨rfl, hstand⟩

/-- What a checkout that succeeds says of its tree, and what it leaves in any file system. -/
structure Succeeded (store : ObjectStore) (fuel : ℕ) (treeOID : OID) (outDir : Path)
    (fs : FileSystem) : Prop where
  counted : ∃ total, countMaterializedEntries store fuel treeOID = some (ok total)
  ended : (planTree store fuel treeOID []).stop = none
  allFeasible : feasible [] (planTree store fuel treeOID []).steps =
    (planTree store fuel treeOID []).steps
  standing : Standing outDir (planTree store fuel treeOID []).steps fs
  placed : outDir ≠ []

theorem materialize_succeeded (faults : ℕ → Fault) (store : ObjectStore) (fuel : ℕ) (treeOID : OID)
    (outDir : Path) (w : World) :
    Triple (· = w) (materialize faults store fuel treeOID outDir)
      (fun _ w' => Succeeded store fuel treeOID outDir w'.fs) (fun _ => True) := by
  rw [materialize]
  cases hcount : countMaterializedEntries store fuel treeOID with
  | none => exact Triple.throw fun _ _ => trivial
  | some total =>
    dsimp only
    rw [returned_bind]
    cases total with
    | error => exact Triple.throw fun _ _ => trivial
    | panic => exact Triple.throw fun _ _ => trivial
    | ok total =>
      apply Triple.bind ((ensureDir_triple w).onError fun _ _ => trivial)
      intro ⟨⟩
      apply Triple.fixed
      rintro s ⟨-, ⟨i, hi, -⟩, -⟩
      have hne : outDir ≠ [] := by
        rintro rfl
        cases hi
      have hd : ∀ p ∈ [([] : List Name)], place outDir p ≠ [] := by
        intro p hp
        rw [List.mem_singleton.mp hp]
        exact hne
      have hplan := materializeTree_run faults store fuel treeOID outDir
      have hrooted := (plan_rooted store fuel).1 treeOID [] [[]] List.mem_cons_self
      have hstanding : Standing outDir [] s.fs := by simp [Standing]
      rw [hplan, Plan.run, bind_assoc]
      apply Triple.bind (performAll_stands hrooted hd hstanding 0)
      intro written
      cases hstop : (planTree store fuel treeOID []).stop with
      | some stop => exact Triple.bind (Triple.throw fun _ _ => trivial) fun _ _ h => h
      | none =>
        apply Triple.bind (Q := fun _ w' => Succeeded store fuel treeOID outDir w'.fs)
        · apply Triple.pure
          rintro w' ⟨hall, hstand⟩
          exact ⟨⟨total, hcount⟩, hstop, hall, hstand, hne⟩
        · exact fun _ => Triple.pure fun _ h => h

/-- The node that a step has left, looked up by the path of the step. -/
theorem standing_lstat {fs : FileSystem} {s : Step} (h : Standing outDir done fs)
    (hs : s ∈ done) (hne : place outDir s.above ≠ []) (hn : Ordinary s.name) :
    ∃ i n, fs.lstat (place outDir s.path) = some i ∧ fs.nodes i = some n ∧ Alike s.kind n := by
  obtain ⟨d, i, n, hl, he, hnode, ha⟩ := h s hs
  have hh : home fs (place outDir s.above) = some d := by
    rw [target, locate_join hne hn] at hl
    obtain ⟨d', hd', hp⟩ := Option.map_eq_some_iff.mp hl
    rw [hd', (Prod.mk.inj hp).1]
  refine ⟨i, n, ?_, hnode, ha⟩
  rw [Step.path, place_snoc, lstat_join hne hn hh, he]

theorem rooted_ordinary (hr : Rooted dirs steps) (hd : ∀ p ∈ dirs, place outDir p ≠ []) {s : Step}
    (hs : s ∈ steps) : place outDir s.above ≠ [] ∧ Ordinary s.name := by
  induction hr with
  | nil => cases hs
  | cons ha hn _ _ ih =>
    rcases List.mem_cons.mp hs with rfl | hs
    · exact ⟨hd _ ha, hn⟩
    · exact ih (place_opened (hd _ ha) hn hd) hs

theorem Succeeded.kept {fs : FileSystem} (h : Succeeded store fuel treeOID outDir fs)
    (hcomplete : Complete store treeOID) (hat : EntryAt store treeOID path e) :
    Kept fs (place outDir path) e.mode := by
  have hd : ∀ p ∈ [([] : List Name)], place outDir p ≠ [] := by
    intro p hp
    rw [List.mem_singleton.mp hp]
    exact h.placed
  have hrooted := (plan_rooted store fuel).1 treeOID [] [[]] List.mem_cons_self
  -- an entry of one of the four modes is found where it belongs
  have hwritten {e' : TreeEntry} (hat' : EntryAt store treeOID path e') (hw : Written e'.mode) :
      ∃ i n kind, fs.lstat (place outDir path) = some i ∧ fs.nodes i = some n ∧ Alike kind n ∧
        Fits e'.mode kind := by
    obtain ⟨s, hs, hpath, hfits⟩ := (entryAt_planned hat' h.ended).2 hw
    obtain ⟨hne, hn⟩ := rooted_ordinary hrooted hd hs
    obtain ⟨i, n, hl, hnode, ha⟩ := standing_lstat h.standing hs hne hn
    rw [hpath] at hl
    exact ⟨i, n, s.kind, hl, hnode, ha, hfits⟩
  obtain ⟨hregular, hother⟩ := hcomplete path e hat
  refine ⟨?_, ?_, ?_⟩
  · intro htype
    obtain ⟨e', hat', hmode⟩ := hregular htype
    obtain ⟨i, n, kind, hl, hnode, ha, hfits⟩ := hwritten hat' (Or.inr (hmode.imp_right Or.inl))
    obtain ⟨data, mode, rfl⟩ := hfits.file hmode ha
    exact ⟨i, data, mode, hl, hnode⟩
  · intro hmode
    obtain ⟨i, n, kind, hl, hnode, ha, hfits⟩ := hwritten hat (Or.inr (Or.inr (Or.inr hmode)))
    rw [hmode] at hfits
    obtain ⟨target, rfl⟩ := hfits.symlink ha
    exact ⟨i, target, hl, hnode⟩
  · intro hnone
    by_contra htype
    obtain ⟨e', hat', hw⟩ := hother htype
    obtain ⟨i, n, kind, hl, -⟩ := hwritten hat' hw
    rw [hnone] at hl
    cases hl

/-! ### A checkout of its own -/

theorem performAll_built_all {root : Inode} (hr : Rooted dirs steps)
    (h : Built Alike outDir root dirs done w.fs) (hall : feasible done steps = steps)
    (written : ℕ) :
    Triple (· = w) (performAll quiet outDir written steps)
      (fun _ w' => ∃ dirs', dirs ⊆ dirs' ∧ (∀ s ∈ steps, s.opened ⊆ dirs') ∧
        Built Alike outDir root dirs' (done ++ steps) w'.fs) (fun _ => False) := by
  induction hr generalizing done w written with
  | nil =>
    apply Triple.pure
    rintro s rfl
    rw [List.append_nil]
    exact ⟨_, List.Subset.refl _, by simp, h⟩
  | @cons dirs s rest hs hn hv _ ih =>
    rw [feasible] at hall
    by_cases hb : blocked done s = true
    · rw [if_pos hb] at hall
      cases hall
    · rw [if_neg hb] at hall
      apply Triple.bind (perform_unblocked h hs hn hv hb)
      intro one
      apply Triple.fixed
      intro w' hw
      apply (ih hw (List.cons.inj hall).2 _).post _ fun _ hf => hf
      rintro total w'' ⟨dirs', hsub, hopened, hbuilt⟩
      rw [List.append_assoc, List.singleton_append] at hbuilt
      refine ⟨dirs', List.Subset.trans (List.subset_append_right _ _) hsub, ?_, hbuilt⟩
      intro t ht
      rcases List.mem_cons.mp ht with rfl | ht
      · exact List.Subset.trans (List.subset_append_left _ _) hsub
      · exact hopened t ht

/-- A tree that can be checked out at all can be checked out in an otherwise empty file system, and
then nothing is there that is not a step. -/
theorem materialize_vacant (hcount : ∃ total,
      countMaterializedEntries store fuel treeOID = some (ok total))
    (hstop : (planTree store fuel treeOID []).stop = none)
    (hall : feasible [] (planTree store fuel treeOID []).steps =
      (planTree store fuel treeOID []).steps) :
    ∃ n w, (materialize quiet store fuel treeOID [111]).from ⟨vacant, [], 0⟩ = (.ok n, w) ∧
      ∃ dirs, [] ∈ dirs ∧ (∀ s ∈ (planTree store fuel treeOID []).steps, s.opened ⊆ dirs) ∧
        Built Alike [111] 1 dirs (planTree store fuel treeOID []).steps w.fs := by
  obtain ⟨total, hcount⟩ := hcount
  have hplan := materializeTree_run quiet store fuel treeOID [111]
  have hrun : Triple (· = (⟨vacant, [], 0⟩ : World))
      (materialize quiet store fuel treeOID [111])
      (fun _ w' => ∃ dirs, [] ∈ dirs ∧
        (∀ s ∈ (planTree store fuel treeOID []).steps, s.opened ⊆ dirs) ∧
        Built Alike [111] 1 dirs (planTree store fuel treeOID []).steps w'.fs)
      (fun _ => False) := by
    rw [materialize, hcount]
    dsimp only
    rw [returned_ok, pure_bind]
    apply Triple.bind (ensureDir_quiet (w := ⟨vacant, [], 0⟩) vacant_isDirectory)
    intro ⟨⟩
    apply Triple.fixed
    intro s hs
    rw [hplan, Plan.run, hstop, bind_assoc]
    apply Triple.bind (performAll_built_all ((plan_rooted store fuel).1 treeOID [] [[]]
      List.mem_cons_self) (hs ▸ vacant_built) hall 0)
    intro written
    refine Triple.bind (Triple.pure ?_) fun _ => Triple.pure fun _ h => h
    rintro w' ⟨dirs, hsub, hopened, hbuilt⟩
    exact ⟨dirs, hsub List.mem_cons_self, hopened, hbuilt⟩
  have hend := hrun _ rfl
  rcases hx : (materialize quiet store fuel treeOID [111]).from ⟨vacant, [], 0⟩ with ⟨r, w⟩
  rw [hx] at hend
  cases r with
  | error stop => exact hend.elim
  | ok n => exact ⟨n, w, rfl, hend⟩

/-- Under a directory of the checkout the joined path and the names lead to the same node. -/
theorem built_lstat {fs : FileSystem} {root : Inode} {front : List Name} {name : Name}
    (h : Built Alike outDir root dirs done fs) (hfront : front ∈ dirs) (hn : Ordinary name) :
    fs.lstat (place outDir (front ++ [name])) = fs.descend root (front ++ [name]) := by
  obtain ⟨hne, d, hd, hh, -⟩ := h.dirs front hfront
  rw [place_snoc, lstat_join hne hn hh, descend_snoc, hd,
    entry_eq_child hn.ne_dot hn.ne_dotDot d]
  rfl

/-- What is found where an entry belongs is there for an entry of one of the four modes. -/
theorem built_entryAt {fs : FileSystem} {root i : Inode}
    (hstop : (planTree store fuel treeOID []).stop = none) (hroot : [] ∈ dirs)
    (hopened : ∀ s ∈ (planTree store fuel treeOID []).steps, s.opened ⊆ dirs)
    (h : Built Alike outDir root dirs (planTree store fuel treeOID []).steps fs)
    (hat : EntryAt store treeOID path e) (hl : fs.lstat (place outDir path) = some i) :
    ∃ e' kind n, EntryAt store treeOID path e' ∧ Fits e'.mode kind ∧ fs.nodes i = some n ∧
      Alike kind n := by
  obtain ⟨⟨front, rfl, hord, hfront⟩, -⟩ := entryAt_planned hat hstop
  have hmem : front ∈ dirs := by
    rcases hfront with rfl | ⟨s, hs, hpath, hkind⟩
    · exact hroot
    · rw [List.nil_append] at hpath
      have hself : s.path ∈ s.opened := by rw [Step.opened, hkind]; exact List.mem_cons_self
      exact hpath ▸ hopened s hs hself
  rw [built_lstat h hmem hord] at hl
  rcases h.only _ i hl with hnil | hstep
  · simp at hnil
  · obtain ⟨s, hs, hpath⟩ := List.mem_map.mp hstep
    obtain ⟨e', hat', hfits⟩ := step_entryAt hstop hs
    obtain ⟨n', hn', ha⟩ := h.shown s hs
    rw [hpath, FileSystem.nodeAt, hl] at hn'
    exact ⟨e', s.kind, n', hpath ▸ hat', hfits, hn', ha⟩

theorem Fits.of_file {mode : UInt32} {kind : Kind} {data : List UInt8} {bits : ℕ}
    (h : Fits mode kind) (ha : Alike kind (.file data bits)) :
    mode = modeFile ∨ mode = modeExecutable := by
  cases kind with
  | directory => exact ha.elim
  | file => exact h
  | symlink => exact ha.elim

theorem complete_of_nothing_dropped (hm : Materializes store treeOID)
    (h : NothingDropped store treeOID) : Complete store treeOID := by
  obtain ⟨faults, fuel, outDir, fs, n, w, hrun⟩ := hm
  have hsucc := materialize_succeeded faults store fuel treeOID outDir ⟨fs, [], 0⟩ _ rfl
  rw [hrun] at hsucc
  obtain ⟨hcount, hstop, hall, -, -⟩ := hsucc
  obtain ⟨n', w', hrun', dirs, hroot, hopened, hbuilt⟩ := materialize_vacant hcount hstop hall
  intro path e hat
  obtain ⟨hfile, -, hleft⟩ := h _ _ _ _ _ _ hrun' path e hat
  constructor
  · intro htype
    obtain ⟨i, data, bits, hl, hnode⟩ := hfile htype
    obtain ⟨e', kind, n, hat', hfits, hn, ha⟩ := built_entryAt hstop hroot hopened hbuilt hat hl
    rw [Option.some.inj (hn.symm.trans hnode)] at ha
    exact ⟨e', hat', hfits.of_file ha⟩
  · intro htype
    cases hl : w'.fs.lstat (place [111] path) with
    | none => exact absurd (hleft hl) htype
    | some i =>
      obtain ⟨e', _, _, hat', hfits, -⟩ := built_entryAt hstop hroot hopened hbuilt hat hl
      exact ⟨e', hat', hfits.written⟩

/-- For every tree that can be checked out: whatever succeeds has given every entry its file or its
link and has left out submodules only, if and only if no other mode is passed over. -/
theorem nothing_dropped_iff (store : ObjectStore) (treeOID : OID)
    (hm : Materializes store treeOID) :
    NothingDropped store treeOID ↔ Complete store treeOID := by
  constructor
  · exact complete_of_nothing_dropped hm
  · intro hcomplete faults fuel outDir fs n w hrun path e hat
    have hsucc := materialize_succeeded faults store fuel treeOID outDir ⟨fs, [], 0⟩ _ rfl
    rw [hrun] at hsucc
    exact hsucc.kept hcomplete hat

/-! ### A group-writable file -/

def modeGroupWritable : UInt32 := 0o100664

/-- A tree with one entry, the file `f` of mode 100664. -/
def legacyTree : List UInt8 := ascii "100664 f" ++ 0 :: List.replicate 20 0

def legacyEntry : TreeEntry := ⟨[102], modeGroupWritable, oidOf 0⟩

def legacyStore : ObjectStore :=
  ((newObjectStore sha1).record ⟨ObjBlob, oidOf 0, [97], 12⟩).record
    ⟨ObjTree, oidOf 1, legacyTree, 40⟩

theorem legacyStore_tree : treeData legacyStore (oidOf 1) = ok legacyTree := by
  have hg : legacyStore.get (oidOf 1) = some ⟨ObjTree, oidOf 1, legacyTree, 40⟩ := by
    simp [legacyStore, ObjectStore.get, ObjectStore.record]
  rw [treeData, hg]
  rfl

theorem nextTreeEntry_legacyTree :
    nextTreeEntry legacyTree 0 sha1 = ok (some (legacyEntry, 29)) := rfl

theorem nextTreeEntry_legacyTree_end : nextTreeEntry legacyTree 29 sha1 = ok none := rfl

theorem legacyStore_contents : Contents legacyStore (oidOf 1) [legacyEntry] :=
  ⟨legacyTree, legacyStore_tree, .cons nextTreeEntry_legacyTree (.nil nextTreeEntry_legacyTree_end)⟩

theorem legacyStore_plan : planTree legacyStore 3 (oidOf 1) [] = ⟨[], none⟩ := by
  have hvalid : ¬ validEntryName legacyEntry.name = false := by decide
  have htree : ¬ legacyEntry.mode = modeTree := by decide
  have hleaf : leafPlan legacyStore legacyEntry [] = .done := rfl
  rw [planTree, legacyStore_tree]
  dsimp only
  rw [planLoop, show legacyStore.algo = sha1 from rfl, nextTreeEntry_legacyTree]
  dsimp only
  rw [if_neg hvalid, if_neg htree, hleaf, planLoop, show legacyStore.algo = sha1 from rfl,
    nextTreeEntry_legacyTree_end]
  rfl

theorem legacyStore_materializes : Materializes legacyStore (oidOf 1) := by
  have hcount : countMaterializedEntries legacyStore 3 (oidOf 1) = some (ok 0) := by
    have htree : ¬ legacyEntry.mode = modeTree := by decide
    have hleaf : ¬ (legacyEntry.mode = modeFile ∨ legacyEntry.mode = modeExecutable ∨
      legacyEntry.mode = modeSymlink) := by decide
    rw [countMaterializedEntries, legacyStore_tree]
    dsimp only
    rw [countLoop, show legacyStore.algo = sha1 from rfl, nextTreeEntry_legacyTree]
    dsimp only
    rw [if_neg htree, if_neg hleaf, countLoop, show legacyStore.algo = sha1 from rfl,
      nextTreeEntry_legacyTree_end]
  obtain ⟨n, w, hrun, -⟩ := materialize_vacant ⟨0, hcount⟩ (by rw [legacyStore_plan])
    (by rw [legacyStore_plan]; rfl)
  exact ⟨_, _, _, _, n, w, hrun⟩

theorem nothing_dropped_iff_legacy :
    NothingDropped legacyStore (oidOf 1) ↔ Complete legacyStore (oidOf 1) :=
  nothing_dropped_iff _ _ legacyStore_materializes

/-- The checkout succeeds and says nothing of the file. -/
theorem legacy_file_dropped :
    Materializes legacyStore (oidOf 1) ∧ EntryAt legacyStore (oidOf 1) [[102]] legacyEntry ∧
      fileType legacyEntry.mode = typeRegular ∧ ¬ NothingDropped legacyStore (oidOf 1) := by
  have hat : EntryAt legacyStore (oidOf 1) [[102]] legacyEntry :=
    .here legacyStore_contents List.mem_cons_self
  refine ⟨legacyStore_materializes, hat, by decide, fun h => ?_⟩
  obtain ⟨e', hat', hmode⟩ :=
    (complete_of_nothing_dropped legacyStore_materializes h _ _ hat).1 (by decide)
  have hother : ¬ (modeGroupWritable = modeFile ∨ modeGroupWritable = modeExecutable) := by decide
  obtain ⟨es, e, hc, he, rfl | hm⟩ := hat'.first
  · obtain rfl := legacyStore_contents.unique hc
    rw [List.mem_singleton.mp he] at hmode
    exact hother hmode
  · obtain rfl := legacyStore_contents.unique hc
    rw [List.mem_singleton.mp he] at hm
    exact absurd hm (by decide)

end GitpSkipped
