import Overthinkin.GitpStep

/-! When a checkout creates an entry named `.git`. The names that `validEntryName` lets through
include it, so a tree decides: the traversal comes to such an entry before one that cannot be
written, or it does not. -/
namespace GitpDotGit

open GoRuntime GoRuntime.Outcome GitpObject GitpTree PosixFileSystem PosixCalls StatefulCall
  GoFilepath GitpCheckout GitpContainment GitpEscape GitpPlan

def dotGit : Name := [46, 103, 105, 116]

/-- Whether both can be taken at one path, one after the other. -/
def merges : Kind → Kind → Bool
  | .directory, .directory | .file _ _, .file _ _ => true
  | _, _ => false

/-- An earlier step has taken the path for something else. -/
def blocked (done : List Step) (s : Step) : Bool :=
  done.any fun p => decide (p.path = s.path) && !merges p.kind s.kind

/-- The steps before the first that is blocked. -/
def feasible (done : List Step) : List Step → List Step
  | [] => []
  | s :: rest => if blocked done s then [] else s :: feasible (done ++ [s]) rest

/-- The node is of the kind. -/
def Alike : Kind → Node → Prop
  | .directory, .dir _ _ | .file _ _, .file _ _ | .symlink _, .symlink _ => True
  | _, _ => False

theorem alike_reading : Reading Alike where
  made d kind := by cases kind <;> exact trivial
  entries kind parent es es' h := by cases kind <;> exact h

/-! ### Whatever the file system -/

/-- Nodes stay of their kind. -/
structure Persists (fs fs' : FileSystem) : Prop where
  grows : Grows fs fs'
  files : ∀ i data mode, fs.nodes i = some (.file data mode) →
    ∃ data' mode', fs'.nodes i = some (.file data' mode')

section
variable {fs fs' fs'' : FileSystem} {d i : Inode} {name : Name} {kind : Kind} {n : Node}

theorem Persists.refl (fs : FileSystem) : Persists fs fs :=
  ⟨Grows.refl _, fun _ data mode h => ⟨data, mode, h⟩⟩

theorem Persists.trans (h : Persists fs fs') (k : Persists fs' fs'') : Persists fs fs'' where
  grows := h.grows.trans k.grows
  files := by
    intro i data mode hi
    obtain ⟨data', mode', hi'⟩ := h.files i data mode hi
    exact k.files i data' mode' hi'

theorem persists_link (he : fs.entry d name = none) (n : Node) :
    Persists fs (fs.link d name n) where
  grows := grows_link he n
  files := by
    intro i data mode hi
    obtain ⟨other, ho, rfl | ⟨_, _, _, hd, -⟩⟩ := nodes_link d name n hi
    · exact ⟨data, mode, ho⟩
    · cases hd

theorem persists_setFile (i : Inode) {change : List UInt8 → ℕ → Node}
    (hc : ∀ data mode, ∃ data' mode', change data mode = .file data' mode') :
    Persists fs (fs.setFile i change) where
  grows := grows_setFile i change
  files := by
    intro j data mode hj
    simp only [FileSystem.setFile, hj]
    split_ifs
    · obtain ⟨data', mode', h⟩ := hc data mode
      exact ⟨data', mode', by rw [h]⟩
    · exact ⟨data, mode, rfl⟩

theorem Persists.alike (h : Persists fs fs') (hn : fs.nodes i = some n) (ha : Alike kind n) :
    ∃ n', fs'.nodes i = some n' ∧ Alike kind n' := by
  cases n with
  | dir parent entries =>
    obtain ⟨entries', hn', -⟩ := h.grows.dirs i parent entries hn
    exact ⟨_, hn', alike_reading.entries kind parent entries entries' ha⟩
  | file data mode =>
    obtain ⟨data', mode', hn'⟩ := h.files i data mode hn
    refine ⟨_, hn', ?_⟩
    cases kind <;> exact ha
  | symlink target => exact ⟨_, h.grows.links i target hn, ha⟩

theorem persists_filled (e : Effect Handle) (data : List UInt8) (executable : Bool) :
    Persists e.fs (filled e data executable) :=
  (persists_setFile _ fun _ _ => ⟨_, _, rfl⟩).trans (persists_setFile _ fun _ _ => ⟨_, _, rfl⟩)

end

/-- Where a step goes. -/
def target (outDir : Path) (s : Step) : Path := join [place outDir s.above, s.name]

/-- The path names a node of the kind. -/
def Holds (fs : FileSystem) (path : Path) (name : Name) (kind : Kind) : Prop :=
  ∃ d i n, fs.locate path = some (d, name) ∧ fs.entry d name = some i ∧ fs.nodes i = some n ∧
    Alike kind n

theorem Holds.persists {fs fs' : FileSystem} {path : Path} {name : Name} {kind : Kind}
    (h : Holds fs path name kind) (hp : Persists fs fs') : Holds fs' path name kind := by
  obtain ⟨d, i, n, hl, he, hn, ha⟩ := h
  obtain ⟨n', hn', ha'⟩ := hp.alike hn ha
  exact ⟨d, i, n', hp.grows.locate hl, hp.grows.entry he, hn', ha'⟩

/-- The call that matters cannot succeed. -/
def Refuses (fs : FileSystem) (path : Path) : Kind → Prop
  | .directory => (∃ e, fs.mkdir path = .error e) ∧ ¬ IsDirectory fs path
  | .file _ executable => ∀ e, fs.openNoFollow path (fileMode executable) ≠ .ok e
  | .symlink target => ∀ e, fs.symlink target path ≠ .ok e

/-- Whatever is touched between `w` and `w'` has the name. -/
def Named (name : Name) (w w' : World) : Prop :=
  ∃ more, w'.touched = w.touched ++ more ∧ ∀ t ∈ more, t.name = name

section
variable {faults : ℕ → Fault} {w w' : World} {d : Inode} {name : Name} {dir path : Path}
  {kind : Kind}

theorem Untouched.named (h : Untouched w w') (name : Name) : Named name w w' :=
  ⟨[], by rw [h.touched, List.append_nil], by simp⟩

theorem refuses_nowhere (hl : w.fs.locate path = none) (hc : components path ≠ []) (kind : Kind) :
    Refuses w.fs path kind := by
  cases kind with
  | directory =>
    refine ⟨⟨_, by rw [FileSystem.mkdir, hl]⟩, ?_⟩
    rintro ⟨i, hi, -⟩
    rw [FileSystem.lstat, hl] at hi
    dsimp only at hi
    rw [if_neg hc] at hi
    cases hi
  | file data executable =>
    intro e he
    rw [FileSystem.openNoFollow, hl] at he
    cases he
  | symlink target =>
    intro e he
    rw [FileSystem.symlink, hl] at he
    cases he

/-- A name that stands for something else is no help. -/
theorem refuses_other {fs : FileSystem} (hd : dir ≠ []) (hn : Ordinary name) {other : Kind}
    (h : Holds fs (join [dir, name]) name other) (hm : merges other kind = false) :
    Refuses fs (join [dir, name]) kind := by
  obtain ⟨d, i, n, hl, he, hi, ha⟩ := h
  cases kind with
  | directory =>
    refine ⟨⟨_, mkdir_taken hl he⟩, ?_⟩
    rintro ⟨j, hj, hdir⟩
    obtain ⟨parent, entries, hp⟩ := isDir_iff.mp hdir
    have hh : home fs dir = some d := by
      rw [locate_join hd hn] at hl
      obtain ⟨d', hd', hp⟩ := Option.map_eq_some_iff.mp hl
      rw [hd', (Prod.mk.inj hp).1]
    rw [lstat_join hd hn hh, he] at hj
    rw [← Option.some.inj hj, hi] at hp
    rw [Option.some.inj hp] at ha
    cases other with
    | directory => cases hm
    | file => exact ha
    | symlink => exact ha
  | file data executable =>
    intro e hopen
    obtain ⟨-, ⟨old, mode, hfile⟩, -⟩ := (openNoFollow_taken hl he).mp hopen
    rw [Option.some.inj (hi.symm.trans hfile)] at ha
    cases other with
    | file => cases hm
    | directory => exact ha
    | symlink => exact ha
  | symlink target =>
    intro e hlink
    rw [symlink_taken hl he] at hlink
    cases hlink

theorem ensureDir_refused (h : Refuses w.fs path .directory) :
    Triple (· = w) (ensureDir faults path) (fun _ _ => False) (Untouched w) := by
  obtain ⟨⟨e, hm⟩, hdir⟩ := h
  have hfails : Triple (· = w) (mkdir faults path) (fun _ _ => False) (Untouched w) :=
    (syscall_untouched hm).pre fun s hs => hs ▸ ⟨rfl, rfl⟩
  apply Triple.bind (Triple.attempt hfails)
  rintro (e | _)
  · cases e with
    | other => exact Triple.throw fun _ h => h
    | alreadyExists =>
      apply Triple.bind (Q := fun r w' => (∀ parent entries, r ≠ .ok (.dir parent entries)) ∧
        Untouched w w')
      · intro s hs
        obtain ⟨hf, ht, hd⟩ := lstat_result faults path s
        rw [from_attempt]
        refine ⟨fun parent entries hr => hdir (hs.fs ▸ hd parent entries hr), hf.trans hs.fs,
          ht.trans hs.touched⟩
      · intro r
        apply Triple.assuming
        intro hr
        split
        · exact (hr _ _ rfl).elim
        · exact Triple.throw fun _ h => h
  · exact fun _ h => h.elim

/-- A step whose call cannot succeed has no effect. -/
theorem create_refused (h : Refuses w.fs path kind) :
    Triple (· = w) (create faults path kind) (fun _ _ => False) (Untouched w) := by
  have hself : ∀ s, s = w → Untouched w s := by
    rintro s rfl
    exact ⟨rfl, rfl⟩
  have herror : ∀ {α : Type} {x : Except Errno (Effect α)}, (∀ e, x ≠ .ok e) →
      ∃ e, x = .error e := by
    intro α x hx
    cases x with
    | ok e => exact (hx e rfl).elim
    | error e => exact ⟨e, rfl⟩
  cases kind with
  | directory => exact ensureDir_refused h
  | file data executable =>
    obtain ⟨e, ho⟩ := herror h
    rw [create, writeBlob, if_neg (not_not.mpr rfl)]
    exact Triple.bind (((syscall_untouched ho).pre hself).orElse _) fun _ _ hf => hf.elim
  | symlink target =>
    obtain ⟨e, ho⟩ := herror h
    rw [create, writeSymlink, if_neg (not_not.mpr rfl)]
    split
    · exact Triple.throw hself
    · exact ((syscall_untouched ho).pre hself).orElse _

theorem create_confined (hl : w.fs.locate path = some (d, name)) (kind : Kind) :
    Triple (· = w) (create faults path kind) (fun _ => Confined d name w) (Confined d name w) := by
  have hself : ∀ s, s = w → Confined d name w s := by
    rintro s rfl
    exact Confined.refl d name _
  cases kind with
  | directory =>
    have hc : ∀ w', Created path w w' → Confined d name w w' := by
      rintro w' ⟨hg, more, hm, ht⟩
      refine ⟨hg, more, hm, fun t hmem => ?_⟩
      have := (ht t hmem).2.symm.trans hl
      exact Prod.mk.inj (Option.some.inj this)
    exact (ensureDir_triple w).post (fun _ w' h => hc w' h.2.2) hc
  | file data executable =>
    rw [create]
    exact (writeBlob_confined hl _ executable).pre hself
  | symlink target =>
    rw [create]
    exact (writeSymlink_confined hl _).pre hself

/-- However a step ends, what it has touched has its name. -/
theorem create_named (hd : dir ≠ []) (hn : Ordinary name) (kind : Kind) :
    Triple (· = w) (create faults (join [dir, name]) kind)
      (fun _ => Named name w) (Named name w) := by
  cases hl : w.fs.locate (join [dir, name]) with
  | none =>
    have hc : components (join [dir, name]) ≠ [] := by
      rw [components_join hd hn]
      simp
    exact (create_refused (refuses_nowhere hl hc kind)).post (fun _ _ h => h.elim)
      fun _ h => Untouched.named h name
  | some p =>
    obtain ⟨d, name'⟩ := p
    have hname : name' = name := by
      rw [locate_join hd hn] at hl
      obtain ⟨d', -, hp⟩ := Option.map_eq_some_iff.mp hl
      exact (Prod.mk.inj hp).2.symm
    subst hname
    have hc : ∀ w', Confined d name' w w' → Named name' w w' := by
      rintro w' ⟨-, more, hm, ht⟩
      exact ⟨more, hm, fun t hmem => (ht t hmem).2⟩
    exact (create_confined hl kind).post (fun _ => hc) hc

section
variable {i : Inode} (hl : w.fs.locate path = some (d, name)) (he : w.fs.entry d name = some i)
include hl he

theorem made_taken : made w.fs path = w.fs := by rw [made, mkdir_taken hl he]

/-- A file that is there is written over, and nothing else changes. -/
theorem create_refill (ht : trailing path = false) (data : List UInt8) (executable : Bool) :
    Triple (· = w) (create faults path (.file data executable))
      (fun _ w' => (∃ old mode, w.fs.nodes i = some (.file old mode)) ∧ Persists w.fs w'.fs ∧
        ∀ root path, w'.fs.descend root path = w.fs.descend root path)
      (fun _ => faults = quiet → ∀ old mode, w.fs.nodes i ≠ some (.file old mode)) := by
  rw [create]
  apply (writeBlob_spec rfl executable).post
  · rintro ⟨⟩ w' ⟨e, ho, hw, -⟩
    obtain ⟨-, hfile, rfl⟩ := (openNoFollow_taken hl he).mp ho
    have hopen : Persists w.fs (w.fs.setFile i fun _ mode => .file [] mode) :=
      persists_setFile i fun _ mode => ⟨[], mode, rfl⟩
    refine ⟨hfile, ?_, fun root path => ?_⟩
    · rw [hw]
      exact hopen.trans (persists_filled ⟨⟨i, d, name⟩, _, _⟩ data executable)
    · rw [hw, filled, descend_setFile fun _ _ => ⟨_, _, rfl⟩,
        descend_setFile fun _ _ => ⟨_, _, rfl⟩]
      exact descend_setFile (fun _ mode => ⟨[], mode, rfl⟩) i root path
  · intro w' hno hq old mode hn
    exact hno hq _ ((openNoFollow_taken hl he).mpr ⟨ht, ⟨old, mode, hn⟩, rfl⟩)

end

/-- A step that succeeds leaves its path to a node of its kind. -/
theorem create_stands (hd : dir ≠ []) (hn : Ordinary name) (kind : Kind) :
    Triple (· = w) (create faults (join [dir, name]) kind)
      (fun _ w' => Persists w.fs w'.fs ∧ Holds w'.fs (join [dir, name]) name kind)
      (fun _ => True) := by
  cases hh : home w.fs dir with
  | none =>
    have hl := locate_nowhere hd hn hh
    have hc : components (join [dir, name]) ≠ [] := by
      rw [components_join hd hn]
      simp
    exact (create_refused (refuses_nowhere hl hc kind)).post (fun _ _ h => h.elim)
      fun _ _ => trivial
  | some d =>
    have hl : w.fs.locate (join [dir, name]) = some (d, name) := locate_home hd hn hh
    cases he : w.fs.entry d name with
    | none =>
      apply (create_new hl he (trailing_join hd hn) kind).post _ fun _ _ => trivial
      rintro ⟨⟩ w' ⟨hw, -⟩
      rw [hw]
      have hp := persists_link he (node d kind)
      exact ⟨hp, d, _, _, hp.grows.locate hl, entry_link (isDir_of_locate hl) he _,
        nodes_link_next d name _, alike_reading.made d kind⟩
    | some i =>
      cases kind with
      | directory =>
        apply (ensureDir_triple w).post _ fun _ _ => trivial
        rintro ⟨⟩ w' ⟨hw, ⟨j, hj, hdir⟩, -⟩
        rw [hw, made_taken hl he] at hj hdir ⊢
        rw [lstat_join hd hn hh] at hj
        obtain ⟨parent, entries, hnode⟩ := isDir_iff.mp hdir
        exact ⟨Persists.refl _, d, j, _, hl, hj, hnode, trivial⟩
      | file data executable =>
        apply (create_refill hl he (trailing_join hd hn) data executable).post _ fun _ _ => trivial
        rintro ⟨⟩ w' ⟨⟨old, mode, hnode⟩, hp, -⟩
        obtain ⟨n', hn', ha⟩ := hp.alike hnode
          (show Alike (.file data executable) (.file old mode) from trivial)
        exact ⟨hp, d, i, n', hp.grows.locate hl, hp.grows.entry he, hn', ha⟩
      | symlink target =>
        by_cases hv : target = [] ∨ 0 ∈ target
        · rw [create, writeSymlink, if_neg (not_not.mpr rfl), if_pos hv]
          exact Triple.throw fun _ _ => trivial
        · rw [create]
          apply (writeSymlink_spec rfl hv).post _ fun _ _ => trivial
          rintro ⟨⟩ w' ⟨e, ho, -⟩
          rw [symlink_taken hl he] at ho
          cases ho

end

/-- What the steps in `done` have left behind, in any file system. -/
def Standing (outDir : Path) (done : List Step) (fs : FileSystem) : Prop :=
  ∀ p ∈ done, Holds fs (target outDir p) p.name p.kind

/-- Whatever is touched between `w` and `w'` has a name from the list. -/
def AllNamed (names : List Name) (w w' : World) : Prop :=
  ∃ more, w'.touched = w.touched ++ more ∧ ∀ t ∈ more, t.name ∈ names

section
variable {faults : ℕ → Fault} {outDir : Path} {done steps : List Step} {w : World}
  {dirs : List (List Name)}

theorem opened_eq {s : Step} {p : List Name} (h : p ∈ s.opened) :
    p = s.path ∧ s.kind = .directory := by
  unfold Step.opened at h
  split at h
  · rename_i hk
    exact ⟨List.mem_singleton.mp h, hk⟩
  · cases h
  · cases h

theorem blocked_iff {s : Step} : blocked done s = true ↔
    ∃ p ∈ done, p.path = s.path ∧ merges p.kind s.kind = false := by
  simp [blocked, List.any_eq_true]

theorem Standing.take {fs fs' : FileSystem} {s : Step} (h : Standing outDir done fs)
    (hp : Persists fs fs') (hs : Holds fs' (target outDir s) s.name s.kind) :
    Standing outDir (done ++ [s]) fs' := by
  intro p hmem
  rcases List.mem_append.mp hmem with hmem | hmem
  · exact (h p hmem).persists hp
  · rw [List.mem_singleton.mp hmem]
    exact hs

theorem place_opened {s : Step} (hne : place outDir s.above ≠ []) (hn : Ordinary s.name)
    (hd : ∀ p ∈ dirs, place outDir p ≠ []) : ∀ p ∈ s.opened ++ dirs, place outDir p ≠ [] := by
  intro p hmem
  rcases List.mem_append.mp hmem with hmem | hmem
  · rw [(opened_eq hmem).1, Step.path, place_snoc]
    exact join_ne_nil hne hn
  · exact hd p hmem

/-- A step that is blocked fails, and touches nothing. -/
theorem perform_blocked {s : Step} (hne : place outDir s.above ≠ []) (hn : Ordinary s.name)
    (hs : Standing outDir done w.fs) (hb : blocked done s = true) :
    Triple (· = w) (perform faults outDir s) (fun _ _ => False) (Untouched w) := by
  obtain ⟨p, hp, hpath, hm⟩ := blocked_iff.mp hb
  obtain ⟨hab, hname⟩ := List.append_singleton_inj.mp hpath
  have hholds := hs p hp
  rw [target, hab, hname] at hholds
  apply Triple.bind (create_refused (refuses_other hne hn hholds hm))
  exact fun _ _ h => h.elim

/-- Of the steps only the feasible ones touch anything. -/
theorem performAll_feasible (hr : Rooted dirs steps) (hd : ∀ p ∈ dirs, place outDir p ≠ [])
    (hs : Standing outDir done w.fs) (written : ℕ) :
    Triple (· = w) (performAll faults outDir written steps)
      (fun _ => AllNamed ((feasible done steps).map Step.name) w)
      (AllNamed ((feasible done steps).map Step.name) w) := by
  induction hr generalizing done w written with
  | nil =>
    apply Triple.pure
    rintro s rfl
    exact ⟨[], by simp, by simp⟩
  | @cons dirs s rest ha hn _ _ ih =>
    have hne := hd _ ha
    rw [feasible]
    split_ifs with hb
    · apply Triple.bind ((perform_blocked hne hn hs hb).onError
        fun w' hu => ⟨[], by rw [hu.touched]; simp, by simp⟩)
      exact fun _ _ h => h.elim
    · apply Triple.bind (Q := fun _ w' => Named s.name w w' ∧ Persists w.fs w'.fs ∧
        Holds w'.fs (target outDir s) s.name s.kind)
      · apply Triple.bind
          (((create_named hne hn s.kind).and (create_stands hne hn s.kind)).onError _)
        · exact fun _ => Triple.pure fun _ h => h
        · rintro w' ⟨⟨more, hm, ht⟩, -⟩
          exact ⟨more, hm, fun t hmem => by simp [ht t hmem]⟩
      intro one
      apply Triple.fixed
      rintro w' ⟨⟨more, hm, ht⟩, hp, hholds⟩
      have hrest : ∀ w'', AllNamed ((feasible (done ++ [s]) rest).map Step.name) w' w'' →
          AllNamed (((s :: feasible (done ++ [s]) rest)).map Step.name) w w'' := by
        rintro w'' ⟨more', hm', ht'⟩
        refine ⟨more ++ more', by rw [hm', hm, List.append_assoc], fun t hmem => ?_⟩
        rcases List.mem_append.mp hmem with hmem | hmem
        · rw [ht t hmem]
          exact List.mem_cons_self
        · exact List.mem_cons_of_mem _ (ht' t hmem)
      exact (ih (place_opened hne hn hd) (hs.take hp hholds) _).post (fun _ => hrest) hrest

/-- Only the steps that are feasible give a name to what a checkout touches. -/
theorem materialize_feasible (faults : ℕ → Fault) (outDir : Path) (hw : w.touched = [])
    (store : ObjectStore) (fuel : ℕ) (treeOID : OID)
    {total : ℕ} (hcount : countMaterializedEntries store fuel treeOID = some (ok total)) :
    Triple (· = w) (materialize faults store fuel treeOID outDir)
      (fun _ w' => ∀ t ∈ w'.touched, IsItself w.fs outDir t ∨
        t.name ∈ (feasible [] (planTree store fuel treeOID []).steps).map Step.name)
      (fun w' => ∀ t ∈ w'.touched, IsItself w.fs outDir t ∨
        t.name ∈ (feasible [] (planTree store fuel treeOID []).steps).map Step.name) := by
  have hself : ∀ s, s = w → ∀ t ∈ s.touched, IsItself w.fs outDir t ∨
      t.name ∈ (feasible [] (planTree store fuel treeOID []).steps).map Step.name := by
    rintro s rfl t ht
    rw [hw] at ht
    cases ht
  have hcreated : ∀ w', Created outDir w w' → ∀ t ∈ w'.touched, IsItself w.fs outDir t := by
    rintro w' ⟨-, more, hm, ht⟩ t hmem
    rw [hm, hw] at hmem
    exact ht t hmem
  rw [materialize, hcount]
  dsimp only
  rw [returned_ok, pure_bind]
  apply Triple.bind ((ensureDir_triple w).onError fun w' h t ht => .inl (hcreated w' h t ht))
  intro ⟨⟩
  apply Triple.fixed
  rintro s ⟨-, ⟨i, hi, -⟩, hc⟩
  have hne : outDir ≠ [] := by
    rintro rfl
    cases hi
  have hd : ∀ p ∈ [([] : List Name)], place outDir p ≠ [] := by
    intro p hp
    rw [List.mem_singleton.mp hp]
    exact hne
  have hplan := materializeTree_run faults store fuel treeOID outDir
  have hrooted := (plan_rooted store fuel).1 treeOID [] [[]] List.mem_cons_self
  have hstanding : Standing outDir [] s.fs := by simp [Standing]
  have hall : ∀ w',
      AllNamed ((feasible [] (planTree store fuel treeOID []).steps).map Step.name) s w' →
      ∀ t ∈ w'.touched, IsItself w.fs outDir t ∨
        t.name ∈ (feasible [] (planTree store fuel treeOID []).steps).map Step.name := by
    rintro w' ⟨more, hm, ht⟩ t hmem
    rw [hm] at hmem
    rcases List.mem_append.mp hmem with hmem | hmem
    · exact .inl (hcreated s hc t hmem)
    · exact .inr (ht t hmem)
  rw [hplan, Plan.run, bind_assoc]
  apply Triple.bind ((performAll_feasible hrooted hd hstanding 0).post (fun _ => hall) hall)
  intro written
  split
  · exact Triple.bind (Triple.pure fun _ h => h) fun _ => Triple.pure fun _ h => h
  · exact Triple.bind (Triple.throw fun _ h => h) fun _ => Triple.pure fun _ h => h

end

/-! ### In an empty directory -/

section
variable {outDir : Path} {root : Inode} {dirs : List (List Name)} {done steps : List Step}
  {fs : FileSystem} {s : Step} {w : World}

theorem built_persists {fs' : FileSystem} (h : Built Alike outDir root dirs done fs)
    (hp : Persists fs fs') (hd : ∀ path, fs'.descend root path = fs.descend root path) :
    Built Alike outDir root dirs done fs' where
  tidy := by
    refine ⟨hp.grows.isDir h.tidy.isDir, ?_, ?_⟩
    · intro p q i hpi hqi
      rw [hd] at hpi hqi
      exact h.tidy.unique p q i hpi hqi
    · intro p i hpi
      rw [hd] at hpi
      obtain ⟨n, hn⟩ := Option.isSome_iff_exists.mp (h.tidy.live p i hpi)
      cases n with
      | dir parent entries =>
        obtain ⟨entries', hn', -⟩ := hp.grows.dirs i parent entries hn
        rw [hn']
        rfl
      | file data mode =>
        obtain ⟨data', mode', hn'⟩ := hp.files i data mode hn
        rw [hn']
        rfl
      | symlink target =>
        rw [hp.grows.links i target hn]
        rfl
  dirs := by
    intro p hmem
    obtain ⟨hne, d, hdesc, hh, hdir⟩ := h.dirs p hmem
    exact ⟨hne, d, (hd p).trans hdesc, home_grows hp.grows hh, hp.grows.isDir hdir⟩
  shown := by
    intro t ht
    obtain ⟨n, hn, ha⟩ := h.shown t ht
    obtain ⟨i, hi, hni⟩ := Option.bind_eq_some_iff.mp hn
    obtain ⟨n', hn', ha'⟩ := hp.alike hni ha
    exact ⟨n', Option.bind_eq_some_iff.mpr ⟨i, (hd _).trans hi, hn'⟩, ha'⟩
  only := by
    intro path i hi
    rw [hd] at hi
    exact h.only path i hi

/-- A step at a path that already has a node of its kind. -/
theorem built_again (h : Built Alike outDir root dirs done fs) (hs : s.above ∈ dirs)
    (hn : Ordinary s.name) {i : Inode} {n : Node} (hi : fs.descend root s.path = some i)
    (hnode : fs.nodes i = some n) (ha : Alike s.kind n) :
    Built Alike outDir root (s.opened ++ dirs) (done ++ [s]) fs where
  tidy := h.tidy
  dirs := by
    intro p hmem
    rcases List.mem_append.mp hmem with hmem | hmem
    · obtain ⟨rfl, hk⟩ := opened_eq hmem
      obtain ⟨hne, d, hdesc, hh, -⟩ := h.dirs _ hs
      have hchild : fs.child d s.name = some i := by
        rw [Step.path, descend_snoc, hdesc] at hi
        exact hi
      have hdir : fs.isDir i = true := by
        rw [hk] at ha
        cases n with
        | dir parent entries => exact isDir_iff.mpr ⟨parent, entries, hnode⟩
        | file => exact ha.elim
        | symlink => exact ha.elim
      have hentry : fs.entry d s.name = some i :=
        (entry_eq_child hn.ne_dot hn.ne_dotDot d).trans hchild
      refine ⟨?_, i, hi, ?_, hdir⟩
      · rw [Step.path, place_snoc]
        exact join_ne_nil hne hn
      · rw [Step.path, place_snoc]
        exact home_join hne hn hh hentry hdir
    · exact h.dirs p hmem
  shown := by
    intro t ht
    rcases List.mem_append.mp ht with ht | ht
    · exact h.shown t ht
    · rw [List.mem_singleton.mp ht]
      exact ⟨n, Option.bind_eq_some_iff.mpr ⟨i, hi, hnode⟩, ha⟩
  only := by
    intro path j hj
    rw [List.map_append, List.mem_append]
    exact (h.only path j hj).imp_right .inl

theorem alike_merges {k k' : Kind} {n : Node} (ha : Alike k n) (hm : merges k k' = true) :
    Alike k' n := by
  cases k with
  | directory =>
    cases k' with
    | directory => exact ha
    | file => cases hm
    | symlink => cases hm
  | file =>
    cases k' with
    | directory => cases hm
    | file => cases n <;> exact ha
    | symlink => cases hm
  | symlink => cases hm

/-- Without faults a step that is not blocked succeeds. -/
theorem perform_again (h : Built Alike outDir root dirs done w.fs) (hs : s.above ∈ dirs)
    (hn : Ordinary s.name) (hold : s.path ∈ done.map Step.path) (hb : ¬ blocked done s = true) :
    Triple (· = w) (perform quiet outDir s)
      (fun _ w' => Built Alike outDir root (s.opened ++ dirs) (done ++ [s]) w'.fs)
      (fun _ => False) := by
  obtain ⟨p, hp, hpath⟩ := List.mem_map.mp hold
  have hm : merges p.kind s.kind = true := by
    by_contra hf
    exact hb (blocked_iff.mpr ⟨p, hp, hpath, Bool.eq_false_iff.mpr hf⟩)
  obtain ⟨n, hnode, ha⟩ := h.shown p hp
  rw [hpath] at hnode
  obtain ⟨i, hi, hni⟩ := Option.bind_eq_some_iff.mp hnode
  obtain ⟨hne, d, hdesc, hh, hdir⟩ := h.dirs _ hs
  have hentry : w.fs.entry d s.name = some i := by
    rw [Step.path, descend_snoc, hdesc] at hi
    exact (entry_eq_child hn.ne_dot hn.ne_dotDot d).trans hi
  have hl := locate_home hne hn hh
  have ha' := alike_merges ha hm
  apply Triple.bind (Q := fun _ w' =>
    Built Alike outDir root (s.opened ++ dirs) (done ++ [s]) w'.fs)
  · cases hk : s.kind with
    | directory =>
      rw [hk] at ha'
      have hmade : made w.fs (join [place outDir s.above, s.name]) = w.fs :=
        made_taken hl hentry
      have hdir' : w.fs.isDir i = true := by
        cases n with
        | dir parent entries => exact isDir_iff.mpr ⟨parent, entries, hni⟩
        | file => exact ha'.elim
        | symlink => exact ha'.elim
      have hreal : IsDirectory (made w.fs (join [place outDir s.above, s.name]))
          (join [place outDir s.above, s.name]) := by
        rw [hmade]
        exact ⟨i, (lstat_join hne hn hh).trans hentry, hdir'⟩
      apply (ensureDir_quiet hreal).post _ fun _ h => h
      intro ⟨⟩ w' hw
      rw [hw, hmade]
      exact built_again h hs hn hi hni (by rw [hk]; exact ha')
    | file data executable =>
      rw [hk] at ha'
      cases n with
      | dir => exact ha'.elim
      | symlink => exact ha'.elim
      | file old mode =>
        apply (create_refill hl hentry (trailing_join hne hn) data executable).post _
          fun _ hno => hno rfl old mode hni
        rintro ⟨⟩ w' ⟨-, hp, hsame⟩
        have hkind : Alike s.kind (.file old mode) := by
          rw [hk]
          exact trivial
        obtain ⟨n', hn', ha''⟩ := hp.alike hni hkind
        exact built_again (built_persists h hp (hsame root)) hs hn ((hsame root _).trans hi) hn'
          ha''
    | symlink target =>
      rw [hk] at hm
      cases hpk : p.kind <;> rw [hpk] at hm <;> cases hm
  · intro _
    exact Triple.pure fun _ h => h

/-- Without faults every step that is not blocked succeeds. -/
theorem perform_unblocked (h : Built Alike outDir root dirs done w.fs) (hs : s.above ∈ dirs)
    (hn : Ordinary s.name) (hv : s.kind.Valid) (hb : ¬ blocked done s = true) :
    Triple (· = w) (perform quiet outDir s)
      (fun _ w' => Built Alike outDir root (s.opened ++ dirs) (done ++ [s]) w'.fs)
      (fun _ => False) := by
  by_cases hold : s.path ∈ done.map Step.path
  · exact perform_again h hs hn hold hb
  · exact (perform_built alike_reading h hs hn hold).post (fun _ _ hq => hq.2.2.1)
      fun _ hno => hno rfl hv

/-- A step that is feasible is reached, and one named `.git` leaves its mark. -/
theorem performAll_reaches (hr : Rooted dirs steps) (h : Built Alike outDir root dirs done w.fs)
    (hnone : ∀ p ∈ done, p.name ≠ dotGit) {g : Step} (hg : g ∈ feasible done steps)
    (hname : g.name = dotGit) (written : ℕ) :
    Triple (· = w) (performAll quiet outDir written steps)
      (fun _ w' => ∃ t ∈ w'.touched, t.name = dotGit)
      (fun w' => ∃ t ∈ w'.touched, t.name = dotGit) := by
  induction hr generalizing done w written with
  | nil => cases hg
  | @cons dirs s rest hs hn hv hrest ih =>
    rw [feasible] at hg
    split_ifs at hg with hb
    · cases hg
    by_cases hsg : s.name = dotGit
    · -- no earlier step can have taken the path
      have hnew : s.path ∉ done.map Step.path := by
        intro hold
        obtain ⟨p, hp, hpath⟩ := List.mem_map.mp hold
        exact hnone p hp ((List.append_singleton_inj.mp hpath).2.trans hsg)
      apply Triple.bind ((perform_built alike_reading h hs hn hnew).onError
        fun _ hno => (hno rfl hv).elim)
      intro one
      apply Triple.fixed
      rintro w' ⟨-, -, hb', t, ht, htname⟩
      have hmark : ∀ w'', AllNamed ((feasible [] rest).map Step.name) w' w'' →
          ∃ t ∈ w''.touched, t.name = dotGit := by
        rintro w'' ⟨more, hm, -⟩
        exact ⟨t, hm ▸ List.mem_append_left _ ht, htname.trans hsg⟩
      exact (performAll_feasible hrest (fun p hp => (hb'.dirs p hp).1) (by simp [Standing]) _).post
        (fun _ => hmark) hmark
    · have hrest' : g ∈ feasible (done ++ [s]) rest := by
        rcases List.mem_cons.mp hg with rfl | hg
        · exact (hsg hname).elim
        · exact hg
      have hnone' : ∀ p ∈ done ++ [s], p.name ≠ dotGit := by
        intro p hp
        rcases List.mem_append.mp hp with hp | hp
        · exact hnone p hp
        · rw [List.mem_singleton.mp hp]
          exact hsg
      apply Triple.bind ((perform_unblocked h hs hn hv hb).onError fun _ hf => hf.elim)
      intro one
      apply Triple.fixed
      intro w' hw
      exact ih hw hnone' hrest' _

end

/-! ### Which trees keep `.git` away -/

/-- No checkout creates an entry named `.git`, other than the output directory itself. -/
def NeverDotGit (store : ObjectStore) (treeOID : OID) : Prop :=
  ∀ faults fuel outDir fs, ∀ t ∈ (checkout faults store fuel treeOID outDir fs).touched,
    t.name = dotGit → fs.entry t.dir t.name = none → IsItself fs outDir t

/-- The traversal comes to no entry named `.git` before one that cannot be written. -/
def Clean (store : ObjectStore) (treeOID : OID) : Prop :=
  ∀ fuel total, countMaterializedEntries store fuel treeOID = some (ok total) →
    ∀ s ∈ feasible [] (planTree store fuel treeOID []).steps, s.name ≠ dotGit

theorem checkout_untouched {store : ObjectStore} {fuel : ℕ} {treeOID : OID}
    (h : ∀ total, countMaterializedEntries store fuel treeOID ≠ some (ok total))
    (faults : ℕ → Fault) (outDir : Path) (fs : FileSystem) :
    (checkout faults store fuel treeOID outDir fs).touched = [] := by
  unfold checkout materialize
  cases hc : countMaterializedEntries store fuel treeOID with
  | none => rfl
  | some total =>
    cases total with
    | error => rfl
    | panic => rfl
    | ok total => exact (h total hc).elim

theorem vacant_entry {d : Inode} {name : Name} (hn : Ordinary name) : vacant.entry d name = none :=
  (entry_eq_child hn.ne_dot hn.ne_dotDot d).trans (vacant_child d name)

theorem vacant_locate : vacant.locate [111] = some (0, [111]) := by
  refine locate_eq_some.mpr ⟨[], by decide, ?_⟩
  rw [FileSystem.walk]
  rfl

theorem vacant_mkdir : vacant.mkdir [111] = .ok ⟨(), vacant.link 0 [111] (.dir 0 []),
    [⟨.directory, 0, [111]⟩]⟩ :=
  mkdir_eq_ok.mpr ⟨0, [111], vacant_locate, rfl, rfl⟩

theorem made_vacant : made vacant [111] = vacant.link 0 [111] (.dir 0 []) := by
  rw [made, vacant_mkdir]

theorem vacant_isDirectory : IsDirectory (made vacant [111]) [111] := by
  rw [made_vacant]
  exact ⟨1, mkdir_lstat vacant_mkdir⟩

/-- The output directory in an otherwise empty file system. -/
theorem vacant_built : Built Alike [111] 1 [[]] [] (made vacant [111]) := by
  obtain ⟨hlstat, hdir⟩ := mkdir_lstat vacant_mkdir
  have hroot : (made vacant [111]).nodes 1 = some (.dir 0 []) := by
    rw [made_vacant]
    rfl
  have htidy := tidy_empty hroot
  refine ⟨htidy, ?_, by simp, fun path i hi => .inl (descend_empty hroot hi)⟩
  intro p hp
  rw [List.mem_singleton.mp hp]
  refine ⟨List.cons_ne_nil _ _, 1, rfl, ?_, htidy.isDir⟩
  rw [made_vacant]
  exact (home_eq_walk (by decide)).trans (walk_of_lstat hlstat hdir)

/-- In an otherwise empty file system the step named `.git` is taken. -/
theorem checkout_vacant {store : ObjectStore} {fuel total : ℕ} {treeOID : OID} {g : Step}
    (hcount : countMaterializedEntries store fuel treeOID = some (ok total))
    (hg : g ∈ feasible [] (planTree store fuel treeOID []).steps) (hname : g.name = dotGit) :
    ∃ t ∈ (checkout quiet store fuel treeOID [111] vacant).touched, t.name = dotGit := by
  have hplan := materializeTree_run quiet store fuel treeOID [111]
  have hrun : Triple (· = (⟨vacant, [], 0⟩ : World))
      (materialize quiet store fuel treeOID [111])
      (fun _ w' => ∃ t ∈ w'.touched, t.name = dotGit)
      (fun w' => ∃ t ∈ w'.touched, t.name = dotGit) := by
    rw [materialize, hcount]
    dsimp only
    rw [returned_ok, pure_bind]
    apply Triple.bind ((ensureDir_quiet (w := ⟨vacant, [], 0⟩) vacant_isDirectory).onError
      fun _ hf => hf.elim)
    intro ⟨⟩
    apply Triple.fixed
    intro s hs
    rw [hplan, Plan.run, bind_assoc]
    apply Triple.bind (performAll_reaches ((plan_rooted store fuel).1 treeOID [] [[]]
      List.mem_cons_self) (hs ▸ vacant_built) (by simp) hg hname 0)
    intro written
    split
    · exact Triple.bind (Triple.pure fun _ h => h) fun _ => Triple.pure fun _ h => h
    · exact Triple.bind (Triple.throw fun _ h => h) fun _ => Triple.pure fun _ h => h
  exact hrun.always rfl (fun _ _ h => h) fun _ h => h

/-- A tree never leads to an entry named `.git` exactly when the traversal comes to none. -/
theorem never_dotGit_iff (store : ObjectStore) (treeOID : OID) :
    NeverDotGit store treeOID ↔ Clean store treeOID := by
  constructor
  · intro h fuel total hcount s hs hname
    obtain ⟨t, ht, htname⟩ := checkout_vacant hcount hs hname
    have hgit : Ordinary dotGit := ⟨by decide, by decide, by decide, by decide⟩
    obtain ⟨-, hl⟩ := h quiet fuel [111] vacant t ht htname (htname ▸ vacant_entry hgit)
    rw [vacant_locate, htname] at hl
    exact absurd (Prod.mk.inj (Option.some.inj hl)).2 (by decide)
  · intro h faults fuel outDir fs t ht hname _
    by_cases hcount : ∃ total, countMaterializedEntries store fuel treeOID = some (ok total)
    · obtain ⟨total, hcount⟩ := hcount
      have hall := (materialize_feasible (w := ⟨fs, [], 0⟩) faults outDir rfl store fuel treeOID
        hcount).always rfl (fun _ _ h => h) (fun _ h => h) t ht
      rcases hall with hself | hmem
      · exact hself
      · obtain ⟨s, hs, hsname⟩ := List.mem_map.mp hmem
        exact (h fuel total hcount s hs (hsname.trans hname)).elim
    · rw [checkout_untouched fun total hc => hcount ⟨total, hc⟩] at ht
      cases ht

theorem plan_linkTree {name : Name} (hn : Ordinary name) (h0 : 0 ∉ name) :
    (planTree (linkStore name) 3 (oidOf 1) []).steps = [⟨[], name, .symlink [97]⟩] := by
  have ht : nextTreeEntry (linkTree name) 0 (linkStore name).algo = _ :=
    nextTreeEntry_linkTree hn h0
  have hv : ¬ validEntryName name = false := by simp [valid_of_ordinary hn]
  have hk : leafKind (linkStore name) ⟨name, modeSymlink, oidOf 0⟩ =
      .ok (some (.symlink [97])) := by
    have hm : ¬ (modeSymlink = modeFile ∨ modeSymlink = modeExecutable) := by decide
    rw [leafKind, if_neg hm, if_pos rfl, linkStore_blob]
    rfl
  have hleaf : leafPlan (linkStore name) ⟨name, modeSymlink, oidOf 0⟩ [] =
      .one ⟨[], name, .symlink [97]⟩ := by rw [leafPlan, hk]
  have hend : planLoop (linkStore name) 1 (linkTree name) (linkTree name).length [] = .done := by
    rw [planLoop, nextTreeEntry_end]
  rw [planTree, linkStore_tree]
  dsimp only
  rw [planLoop, ht]
  dsimp only
  rw [if_neg hv, if_neg (by decide), hleaf, hend]
  rfl

/-- A tree with one symbolic link named `.git`. -/
theorem dotGit_created :
    ∃ t ∈ (checkout quiet (linkStore dotGit) 3 (oidOf 1) [111] vacant).touched,
      t.name = dotGit ∧ vacant.entry t.dir t.name = none ∧ ¬ IsItself vacant [111] t := by
  have hn : Ordinary dotGit := ⟨by decide, by decide, by decide, by decide⟩
  have hg : (⟨[], dotGit, .symlink [97]⟩ : Step) ∈
      feasible [] (planTree (linkStore dotGit) 3 (oidOf 1) []).steps := by
    rw [plan_linkTree hn (by decide)]
    decide
  obtain ⟨t, ht, hname⟩ := checkout_vacant (count_linkTree hn (by decide)) hg rfl
  refine ⟨t, ht, hname, hname ▸ vacant_entry hn, ?_⟩
  rintro ⟨-, hl⟩
  rw [vacant_locate, hname] at hl
  exact absurd (Prod.mk.inj (Option.some.inj hl)).2 (by decide)

end GitpDotGit
