import Overthinkin.GitpCheckout

/-! Where a checkout writes. Entries below the output directory are reached by names that the
checkout joins to it, and each directory on the way was seen to be a real one; only the output
directory itself is named once by the kernel's rules and then by `filepath.Join`. -/
namespace GitpContainment

open GoRuntime GoRuntime.Outcome GitpObject GitpTree PosixFileSystem PosixCalls StatefulCall
  GoFilepath GitpCheckout

/-- The directory where entries joined to `dir` go. -/
def home (fs : FileSystem) (dir : Path) : Option Inode :=
  fs.walk fs.maxLinks (fs.start dir) (cleaned dir)

/-- The file system in which `path` has been made, if it could be. -/
def made (fs : FileSystem) (path : Path) : FileSystem :=
  match fs.mkdir path with
  | .ok e => e.fs
  | .error _ => fs

section
variable {fs fs' : FileSystem} {dir : Path} {name : Name} {d i : Inode}

theorem ordinary_of_valid (h : validEntryName name = true) : Ordinary name := by
  simp only [validEntryName, Bool.and_eq_true, Bool.not_eq_true', Bool.or_eq_false_iff,
    decide_eq_false_iff_not, List.contains_eq_mem] at h
  exact ⟨h.1.1.1, h.2, h.1.1.2, h.1.2⟩

theorem start_join (hd : dir ≠ []) (hn : Ordinary name) :
    fs.start (join [dir, name]) = fs.start dir := by
  unfold FileSystem.start
  rw [isAbs_join hd hn]

theorem locate_join (hd : dir ≠ []) (hn : Ordinary name) :
    fs.locate (join [dir, name]) = (home fs dir).map fun d => (d, name) := by
  rw [FileSystem.locate, components_join hd hn, List.getLast?_concat, List.dropLast_concat,
    start_join hd hn]
  rfl

theorem locate_home (hd : dir ≠ []) (hn : Ordinary name) (hh : home fs dir = some d) :
    fs.locate (join [dir, name]) = some (d, name) := by
  rw [locate_join hd hn, hh]
  rfl

theorem home_join (hd : dir ≠ []) (hn : Ordinary name) (hh : home fs dir = some d)
    (he : fs.entry d name = some i) (hi : fs.isDir i = true) :
    home fs (join [dir, name]) = some i := by
  rw [home, cleaned_join hd hn, start_join hd hn]
  exact walk_snoc hh he hi

theorem lstat_join (hd : dir ≠ []) (hn : Ordinary name) (hh : home fs dir = some d) :
    fs.lstat (join [dir, name]) = fs.entry d name := by
  rw [FileSystem.lstat, locate_home hd hn hh]
  exact if_neg (by simp [trailing_join hd hn, hn.ne_dot, hn.ne_dotDot])

theorem home_grows (hg : Grows fs fs') (hh : home fs dir = some d) : home fs' dir = some d := by
  rw [home, hg.maxLinks, hg.start]
  exact hg.walk hh

end

/-- Whatever was touched between `w` and `w'` is a directory that `path` itself stands for. -/
structure Created (path : Path) (w w' : World) : Prop where
  grows : Grows w.fs w'.fs
  touched : ∃ more, w'.touched = w.touched ++ more ∧
    ∀ t ∈ more, t.change = .directory ∧ w.fs.locate path = some (t.dir, t.name)

/-- `path` names a real directory. -/
def IsDirectory (fs : FileSystem) (path : Path) : Prop :=
  ∃ i, fs.lstat path = some i ∧ fs.isDir i = true

section
variable {faults : ℕ → Fault} {path : Path} {w w' : World}

theorem created_of_unmoved (hf : w'.fs = w.fs) (ht : w'.touched = w.touched) :
    Created path w w' :=
  ⟨hf ▸ Grows.refl _, [], by simp [ht], by simp⟩

theorem created_after {e : Effect Unit} (h : w.fs.mkdir path = .ok e) :
    Created path w (w.after e) := by
  obtain ⟨d, name, hl, he, rfl⟩ := mkdir_eq_ok.mp h
  exact ⟨grows_link he _, _, rfl, by simp [hl]⟩

/-- What `os.Mkdir` leaves behind for each way it can end. -/
def MkdirResult (path : Path) (w : World) (r : Except Errno Unit) (w' : World) : Prop :=
  match r with
  | .ok _ => w'.fs = made w.fs path ∧ IsDirectory w'.fs path ∧ Created path w w'
  | .error .alreadyExists =>
    w'.fs = made w.fs path ∧ w'.fs = w.fs ∧ w'.touched = w.touched
  | .error .other => Created path w w'

theorem mkdir_result (w : World) :
    MkdirResult path w ((mkdir faults path).from w).1 ((mkdir faults path).from w).2 := by
  rw [mkdir, syscall, from_ofStep]
  have hu : Created path w w.unchanged := created_of_unmoved rfl rfl
  cases ho : w.fs.mkdir path with
  | ok e =>
    cases faults w.calls with
    | none =>
      have hm : made w.fs path = e.fs := by rw [made, ho]
      exact ⟨hm.symm, ⟨_, mkdir_lstat ho⟩, created_after ho⟩
    | refused => exact hu
    | late => exact created_after ho
  | error e =>
    have hm : made w.fs path = w.fs := by rw [made, ho]
    cases faults w.calls with
    | refused => exact hu
    | none =>
      cases e with
      | alreadyExists => exact ⟨hm.symm, rfl, rfl⟩
      | other => exact hu
    | late =>
      cases e with
      | alreadyExists => exact ⟨hm.symm, rfl, rfl⟩
      | other => exact hu

theorem lstat_result (faults : ℕ → Fault) (path : Path) (w : World) :
    ((lstat faults path).from w).2.fs = w.fs ∧ ((lstat faults path).from w).2.touched = w.touched ∧
      ∀ parent entries, ((lstat faults path).from w).1 = .ok (.dir parent entries) →
        IsDirectory w.fs path := by
  rw [lstat, syscall, from_ofStep]
  cases hn : (w.fs.lstat path).bind w.fs.nodes with
  | none => cases faults w.calls <;> exact ⟨rfl, rfl, fun _ _ h => by cases h⟩
  | some node =>
    obtain ⟨i, hl, hi⟩ := Option.bind_eq_some_iff.mp hn
    cases faults w.calls with
    | none =>
      refine ⟨rfl, List.append_nil _, fun parent entries h => ?_⟩
      cases h
      exact ⟨i, hl, isDir_iff.mpr ⟨parent, entries, hi⟩⟩
    | refused => exact ⟨rfl, rfl, fun _ _ h => by cases h⟩
    | late => exact ⟨rfl, List.append_nil _, fun _ _ h => by cases h⟩

/-- A directory is made or found; otherwise nothing but this directory can have been made. -/
theorem ensureDir_triple (w : World) :
    Triple (· = w) (ensureDir faults path)
      (fun _ w' => w'.fs = made w.fs path ∧ IsDirectory w'.fs path ∧ Created path w w')
      (Created path w) := by
  apply Triple.bind (Q := fun r w' => MkdirResult path w r w')
  · intro s hs
    obtain rfl := hs
    rw [from_attempt]
    exact mkdir_result s
  · rintro (e | _)
    · cases e with
      | other => exact Triple.throw fun _ h => h
      | alreadyExists =>
        apply Triple.bind (Q := fun r w' => Created path w w' ∧ w'.fs = made w.fs path ∧
          ∀ parent entries, r = .ok (.dir parent entries) → IsDirectory w'.fs path)
        · rintro s ⟨hm, hf, ht⟩
          obtain ⟨hlf, hlt, hd⟩ := lstat_result faults path s
          rw [from_attempt]
          exact ⟨created_of_unmoved (hlf.trans hf) (hlt.trans ht), hlf.trans hm,
            fun parent entries h => hlf ▸ hd parent entries h⟩
        · intro r
          split
          · exact Triple.pure fun _ h => ⟨h.2.1, h.2.2 _ _ rfl, h.1⟩
          · exact Triple.throw fun _ h => h.1
    · exact Triple.pure fun _ h => h

end

section
variable {faults : ℕ → Fault} {d : Inode} {name : Name} {path : Path} {w : World}

theorem attempt_confined {α ε : Type} {x : Call World ε α}
    (h : Triple (Confined d name w) x (fun _ => Confined d name w) (Confined d name w)) :
    Triple (Confined d name w) (attempt x : Call World Stop (Except ε α))
      (fun _ => Confined d name w) (Confined d name w) := by
  apply (Triple.attempt h).post _ fun _ h => h
  intro r s hs
  cases r with
  | ok a => exact hs
  | error e => exact hs

theorem close_confined (fd : Handle) :
    Triple (Confined d name w) (close faults fd) (fun _ => Confined d name w)
      (Confined d name w) :=
  syscall_kept fun _ => ⟨Grows.refl _, by simp⟩

theorem closing_confined {α : Type} {x : Call World Errno α}
    (h : Triple (Confined d name w) x (fun _ => Confined d name w) (Confined d name w))
    (fd : Handle) (message : GoString) :
    Triple (Confined d name w) (closing faults fd x message) (fun _ => Confined d name w)
      (Confined d name w) := by
  apply Triple.bind (attempt_confined h)
  rintro (e | a)
  · apply Triple.bind (attempt_confined (close_confined fd))
    intro r
    exact Triple.throw fun _ h => h
  · exact Triple.pure fun _ h => h

theorem writeBlob_confined (hl : w.fs.locate path = some (d, name)) (blob : Option Object)
    (executable : Bool) :
    Triple (Confined d name w) (writeBlob faults blob path executable)
      (fun _ => Confined d name w) (Confined d name w) := by
  unfold writeBlob
  cases blob with
  | none => exact Triple.throw fun _ h => h
  | some blob =>
    dsimp only
    split
    · exact Triple.throw fun _ h => h
    apply Triple.bind (Q := fun fd s => (fd.dir = d ∧ fd.name = name) ∧ Confined d name w s)
    · apply Triple.orElse
      apply (syscall_confined fun s hs e he =>
        (openNoFollow_stays (hs.grows.locate hl) he).1).post _ fun _ h => h
      rintro fd s ⟨hs, s', hs', e, he, rfl⟩
      exact ⟨(openNoFollow_stays (hs'.grows.locate hl) he).2, hs⟩
    intro fd
    apply Triple.assuming
    rintro ⟨rfl, rfl⟩
    have hw : Triple (Confined fd.dir fd.name w) (write faults fd blob.data)
        (fun _ => Confined fd.dir fd.name w) (Confined fd.dir fd.name w) :=
      (syscall_confined fun s _ e he => by cases he; exact write_stays s.fs fd blob.data).mono
        (fun _ h => h) (fun _ _ h => h.1) fun _ h => h
    have hm : ∀ mode, Triple (Confined fd.dir fd.name w) (fchmod faults fd mode)
        (fun _ => Confined fd.dir fd.name w) (Confined fd.dir fd.name w) := fun mode =>
      (syscall_confined fun s _ e he => by cases he; exact fchmod_stays s.fs fd mode).mono
        (fun _ h => h) (fun _ _ h => h.1) fun _ h => h
    apply Triple.bind (closing_confined hw fd _)
    intro ⟨⟩
    apply Triple.bind (closing_confined (hm _) fd _)
    intro ⟨⟩
    exact (close_confined fd).orElse _

theorem writeSymlink_confined (hl : w.fs.locate path = some (d, name)) (blob : Option Object) :
    Triple (Confined d name w) (writeSymlink faults blob path) (fun _ => Confined d name w)
      (Confined d name w) := by
  unfold writeSymlink
  cases blob with
  | none => exact Triple.throw fun _ h => h
  | some blob =>
    dsimp only
    split
    · exact Triple.throw fun _ h => h
    split
    · exact Triple.throw fun _ h => h
    apply Triple.orElse
    exact (syscall_confined fun s hs e he => symlink_stays (hs.grows.locate hl) he).mono
      (fun _ h => h) (fun _ _ h => h.1) fun _ h => h

theorem writeEntry_confined (hl : w.fs.locate path = some (d, name)) (store : ObjectStore)
    (entry : TreeEntry) :
    Triple (Confined d name w) (writeEntry faults store entry path) (fun _ => Confined d name w)
      (Confined d name w) := by
  unfold writeEntry
  split
  · apply Triple.bind (writeBlob_confined hl _ _)
    intro ⟨⟩
    exact Triple.pure fun _ h => h
  split
  · apply Triple.bind (writeSymlink_confined hl _)
    intro ⟨⟩
    exact Triple.pure fun _ h => h
  · exact Triple.pure fun _ h => h

end

/-- Everything touched is in `own` or lies below the directory `root`. -/
def Guarded (own : Touch → Prop) (root : Inode) (w : World) : Prop :=
  ∀ t ∈ w.touched, own t ∨ Below w.fs root t.dir

/-- Entries joined to `dir` go below the directory `root`. -/
def Placed (root : Inode) (dir : Path) (w : World) : Prop :=
  ∃ d, home w.fs dir = some d ∧ Below w.fs root d

/-- A part of a checkout that stays below `root`. -/
structure Reaches (own : Touch → Prop) (root : Inode) (w w' : World) : Prop where
  grows : Grows w.fs w'.fs
  guarded : Guarded own root w'

section
variable {faults : ℕ → Fault} {own : Touch → Prop} {root d : Inode} {dir : Path} {name : Name}
  {w w' w'' : World}

theorem Reaches.trans (h : Reaches own root w w') (k : Reaches own root w' w'') :
    Reaches own root w w'' := ⟨h.grows.trans k.grows, k.guarded⟩

theorem Reaches.refl (h : Guarded own root w) : Reaches own root w w := ⟨Grows.refl _, h⟩

theorem Placed.grows (h : Placed root dir w) (hg : Grows w.fs w'.fs) : Placed root dir w' := by
  obtain ⟨d, hh, hb⟩ := h
  exact ⟨d, home_grows hg hh, hb.grows hg⟩

theorem Guarded.extend (h : Guarded own root w) (hg : Grows w.fs w'.fs) {more : List Touch}
    (hm : w'.touched = w.touched ++ more) (hd : ∀ t ∈ more, t.dir = d) (hb : Below w.fs root d) :
    Guarded own root w' := by
  intro t ht
  rw [hm] at ht
  rcases List.mem_append.mp ht with ht | ht
  · exact (h t ht).imp_right fun h => h.grows hg
  · exact .inr (hd t ht ▸ hb.grows hg)

/-- The directory of a subtree is a real directory below the one it is in. -/
theorem ensureDir_placed (hd : dir ≠ []) (hn : Ordinary name) (hg : Guarded own root w)
    (hp : Placed root dir w) :
    Triple (· = w) (ensureDir faults (join [dir, name]))
      (fun _ w' => Reaches own root w w' ∧ Placed root (join [dir, name]) w')
      (Reaches own root w) := by
  obtain ⟨d, hh, hb⟩ := hp
  have hl : w.fs.locate (join [dir, name]) = some (d, name) := locate_home hd hn hh
  have hc : ∀ w', Created (join [dir, name]) w w' → Reaches own root w w' := by
    rintro w' ⟨hgrow, more, hm, ht⟩
    refine ⟨hgrow, hg.extend hgrow hm (fun t hmem => ?_) hb⟩
    exact (Prod.mk.inj (Option.some.inj ((ht t hmem).2.symm.trans hl))).1
  apply (ensureDir_triple w).post _ hc
  rintro _ w' ⟨-, ⟨i, hi, hdir⟩, hcr⟩
  have hh' : home w'.fs dir = some d := home_grows hcr.grows hh
  have he : w'.fs.entry d name = some i := (lstat_join hd hn hh').symm.trans hi
  exact ⟨hc w' hcr, i, home_join hd hn hh' he hdir,
    (hb.grows hcr.grows).step hn.ne_dot hn.ne_dotDot he hdir⟩

theorem writeEntry_reaches (hd : dir ≠ []) (hn : Ordinary name) (hg : Guarded own root w)
    (hp : Placed root dir w) (store : ObjectStore) (entry : TreeEntry) :
    Triple (· = w) (writeEntry faults store entry (join [dir, name]))
      (fun _ => Reaches own root w) (Reaches own root w) := by
  obtain ⟨d, hh, hb⟩ := hp
  have hl : w.fs.locate (join [dir, name]) = some (d, name) := locate_home hd hn hh
  have hc : ∀ w', Confined d name w w' → Reaches own root w w' := by
    rintro w' ⟨hgrow, more, hm, ht⟩
    exact ⟨hgrow, hg.extend hgrow hm (fun t hmem => (ht t hmem).1) hb⟩
  exact (writeEntry_confined hl store entry).mono (fun s hs => hs ▸ Confined.refl d name w)
    (fun _ => hc) hc

theorem returned_triple {α : Type} {P : World → Prop} (x : Outcome α) :
    Triple P (returned x) (fun _ => P) P := by
  cases x with
  | ok a => exact Triple.pure fun _ h => h
  | error e => exact Triple.throw fun _ h => h
  | panic => exact Triple.throw fun _ h => h

/-- How a directory is seen, and what may happen, while a tree is written into it. -/
structure Descends (faults : ℕ → Fault) (P : Path → World → Prop) (R : World → World → Prop) :
    Prop where
  self : ∀ dir w, P dir w → R w w
  trans : ∀ w w' w'', R w w' → R w' w'' → R w w''
  stable : ∀ dir w w', P dir w → R w w' → P dir w'
  subtree : ∀ dir name w, dir ≠ [] → Ordinary name → P dir w →
    Triple (· = w) (ensureDir faults (join [dir, name]))
      (fun _ w' => R w w' ∧ P (join [dir, name]) w') (R w)
  entry : ∀ dir name w store entry, dir ≠ [] → Ordinary name → P dir w →
    Triple (· = w) (writeEntry faults store entry (join [dir, name])) (fun _ => R w) (R w)

/-- What each entry keeps, a whole tree keeps, wherever it stops. -/
theorem Descends.materialize {P : Path → World → Prop} {R : World → World → Prop}
    (h : Descends faults P R) (store : ObjectStore) (fuel : ℕ) :
    (∀ treeOID dir written w, dir ≠ [] → P dir w →
      Triple (· = w) (materializeTree faults store fuel treeOID dir written)
        (fun _ => R w) (R w)) ∧
    (∀ data pos dir written w, dir ≠ [] → P dir w →
      Triple (· = w) (materializeLoop faults store fuel data pos dir written)
        (fun _ => R w) (R w)) := by
  have hself : ∀ dir w, P dir w → ∀ s, s = w → R w s := by
    rintro dir w hp _ rfl
    exact h.self dir _ hp
  induction fuel with
  | zero =>
    constructor
    · intro treeOID dir written w _ hp
      rw [materializeTree]
      exact Triple.throw (hself dir w hp)
    · intro data pos dir written w _ hp
      rw [materializeLoop]
      exact Triple.throw (hself dir w hp)
  | succ fuel ih =>
    obtain ⟨ihTree, ihLoop⟩ := ih
    constructor
    · intro treeOID dir written w hd hp
      rw [materializeTree]
      apply Triple.bind ((returned_triple (P := (· = w)) _).onError (hself dir w hp))
      intro data
      exact ihLoop data 0 dir written w hd hp
    · intro data pos dir written w hd hp
      rw [materializeLoop]
      apply Triple.bind ((returned_triple (P := (· = w)) _).onError (hself dir w hp))
      rintro (_ | ⟨entry, nextPos⟩)
      · exact Triple.pure (hself dir w hp)
      dsimp only
      split
      · exact Triple.throw (hself dir w hp)
      rename_i hv
      have hn : Ordinary entry.name := ordinary_of_valid (by simpa using hv)
      -- what follows an entry starts from a state that the entry has reached
      have hrest : ∀ written s, R w s → Triple (· = s)
          (materializeLoop faults store fuel data nextPos dir written) (fun _ => R w) (R w) := by
        intro written s hs
        exact (ihLoop data nextPos dir written s hd (h.stable dir w s hp hs)).mono
          (fun _ h => h) (fun _ _ hr => h.trans _ _ _ hs hr) fun _ hr => h.trans _ _ _ hs hr
      split
      · apply Triple.bind (h.subtree dir entry.name w hd hn hp)
        intro ⟨⟩
        apply Triple.fixed
        rintro s ⟨hs, hps⟩
        apply Triple.bind ((ihTree entry.oid _ written s (join_ne_nil hd hn) hps).mono
          (fun _ h => h) (fun _ _ hr => h.trans _ _ _ hs hr) fun _ hr => h.trans _ _ _ hs hr)
        intro written
        exact Triple.fixed (hrest written)
      · apply Triple.bind (h.entry dir entry.name w store entry hd hn hp)
        intro one
        exact Triple.fixed (hrest _)

/-- A tree whose directory lies below `root` is written below `root`. -/
theorem descends_below (faults : ℕ → Fault) (own : Touch → Prop) (root : Inode) :
    Descends faults (fun dir w => Guarded own root w ∧ Placed root dir w) (Reaches own root) where
  self _ _ h := Reaches.refl h.1
  trans _ _ _ := Reaches.trans
  stable _ _ _ h hr := ⟨hr.guarded, h.2.grows hr.grows⟩
  subtree _ _ _ hd hn h := (ensureDir_placed hd hn h.1 h.2).post
    (fun _ _ hr => ⟨hr.1, hr.1.guarded, hr.2⟩) fun _ hr => hr
  entry _ _ _ store entry hd hn h := writeEntry_reaches hd hn h.1 h.2 store entry

end

/-- No call had an effect. -/
structure Untouched (w w' : World) : Prop where
  fs : w'.fs = w.fs
  touched : w'.touched = w.touched

section
variable {faults : ℕ → Fault} {dir path : Path} {name : Name} {w : World}

theorem syscall_untouched {α : Type} {op : FileSystem → Except Errno (Effect α)} {e : Errno}
    (h : op w.fs = .error e) :
    Triple (Untouched w) (syscall faults op) (fun _ _ => False) (Untouched w) := by
  rintro s ⟨hf, ht⟩
  have hs : Untouched w s.unchanged := ⟨hf, ht⟩
  rw [← hf] at h
  rw [syscall, from_ofStep, h]
  cases faults s.calls <;> exact hs

theorem locate_nowhere (hd : dir ≠ []) (hn : Ordinary name) (hh : home w.fs dir = none) :
    w.fs.locate (join [dir, name]) = none := by
  rw [locate_join hd hn, hh]
  rfl

theorem ensureDir_nowhere (hl : w.fs.locate path = none) (hc : components path ≠ []) :
    Triple (· = w) (ensureDir faults path) (fun _ _ => False) (Untouched w) := by
  have hm : w.fs.mkdir path = .error .other := by
    rw [FileSystem.mkdir, hl]
    exact congrArg _ (if_neg fun h => hc h.2)
  apply Triple.bind (Q := fun r w' => r = .error .other ∧ Untouched w w')
  · rintro s rfl
    rw [from_attempt, mkdir, syscall, from_ofStep, hm]
    cases faults s.calls <;> exact ⟨rfl, rfl, rfl⟩
  · intro r
    apply Triple.assuming
    rintro rfl
    exact Triple.throw fun _ h => h

theorem writeEntry_nowhere (hl : w.fs.locate path = none) (store : ObjectStore)
    (entry : TreeEntry) :
    Triple (Untouched w) (writeEntry faults store entry path) (fun _ => Untouched w)
      (Untouched w) := by
  unfold writeEntry
  split
  · have ho : ∀ mode, w.fs.openNoFollow path mode = .error .other := by
      intro mode
      rw [FileSystem.openNoFollow, hl]
    apply Triple.bind (Q := fun _ _ => False)
    · unfold writeBlob
      cases store.get entry.oid with
      | none => exact Triple.throw fun _ h => h
      | some blob =>
        dsimp only
        split
        · exact Triple.throw fun _ h => h
        · exact Triple.bind ((syscall_untouched (ho _)).orElse _) fun _ _ h => h.elim
    · exact fun _ _ h => h.elim
  split
  · have hs : ∀ target, ∃ e, w.fs.symlink target path = .error e := by
      intro target
      rw [FileSystem.symlink, hl]
      exact ⟨_, rfl⟩
    apply Triple.bind (Q := fun _ _ => False)
    · unfold writeSymlink
      cases store.get entry.oid with
      | none => exact Triple.throw fun _ h => h
      | some blob =>
        obtain ⟨e, he⟩ := hs blob.data
        dsimp only
        split
        · exact Triple.throw fun _ h => h
        split
        · exact Triple.throw fun _ h => h
        · exact (syscall_untouched he).orElse _
    · exact fun _ _ h => h.elim
  · exact Triple.pure fun _ h => h

/-- When the joined names lead nowhere, nothing can be written. -/
theorem descends_nowhere (faults : ℕ → Fault) :
    Descends faults (fun dir w => home w.fs dir = none) Untouched where
  self _ _ _ := ⟨rfl, rfl⟩
  trans _ _ _ h k := ⟨k.fs.trans h.fs, k.touched.trans h.touched⟩
  stable _ _ _ hh hu := hu.fs ▸ hh
  subtree dir name w hd hn hh := (ensureDir_nowhere (locate_nowhere hd hn hh) (by
    rw [components_join hd hn]
    simp)).post (fun _ _ h => h.elim) fun _ h => h
  entry dir name w store entry hd hn hh :=
    (writeEntry_nowhere (locate_nowhere hd hn hh) store entry).mono
      (fun s hs => hs ▸ ⟨rfl, rfl⟩) (fun _ _ h => h) fun _ h => h

end

/-- The directory `outDir` itself was made. -/
def IsItself (fs : FileSystem) (outDir : Path) (t : Touch) : Prop :=
  t.change = .directory ∧ fs.locate outDir = some (t.dir, t.name)

/-- The entry is `outDir` itself, or lies below it through real directories. -/
def Contained (fs : FileSystem) (outDir : Path) (t : Touch) : Prop :=
  IsItself fs outDir t ∨
    ∃ root, fs.lstat outDir = some root ∧ fs.isDir root = true ∧ Below fs root t.dir

/-- Once `outDir` exists, what its cleaned text leads to lies inside it. -/
def Aligned (fs : FileSystem) (outDir : Path) : Prop :=
  ∀ root d, (made fs outDir).lstat outDir = some root → (made fs outDir).isDir root = true →
    home (made fs outDir) outDir = some d → Below (made fs outDir) root d

theorem home_eq_walk {fs : FileSystem} {path : Path} (h : dotDot ∉ components path) :
    home fs path = fs.walk fs.maxLinks (fs.start path) (components path) := by
  rw [home, cleaned, cleanNames_eq_filter h, walk_filter_dot]

/-- A directory named without `..` is aligned: only `..` after a symbolic link can lead away. -/
theorem aligned_of_no_dotDot (fs : FileSystem) {outDir : Path} (h : dotDot ∉ components outDir) :
    Aligned fs outDir := by
  intro root d hl hr hh
  rw [home_eq_walk h] at hh
  rw [walk_of_lstat hl hr] at hh
  exact Option.some.inj hh ▸ .refl

/-- All that was touched is contained. -/
def AllContained (outDir : Path) (w : World) : Prop := ∀ t ∈ w.touched, Contained w.fs outDir t

section
variable {faults : ℕ → Fault} {outDir : Path} {root : Inode} {w w' : World}

theorem Created.contained (h : Created outDir w w') (hw : w.touched = []) :
    AllContained outDir w' := by
  obtain ⟨hg, more, hm, ht⟩ := h
  intro t hmem
  rw [hm, hw] at hmem
  obtain ⟨hc, hl⟩ := ht t hmem
  exact .inl ⟨hc, hg.locate hl⟩

theorem AllContained.guarded (h : AllContained outDir w) (hl : w.fs.lstat outDir = some root) :
    Guarded (IsItself w.fs outDir) root w := by
  intro t ht
  rcases h t ht with h | ⟨root', hl', -, hb⟩
  · exact .inl h
  · exact .inr (Option.some.inj (hl.symm.trans hl') ▸ hb)

theorem Reaches.contained (h : Reaches (IsItself w.fs outDir) root w w')
    (hl : w.fs.lstat outDir = some root) (hr : w.fs.isDir root = true) :
    AllContained outDir w' := by
  obtain ⟨hgrow, hguard⟩ := h
  intro t ht
  rcases hguard t ht with ⟨hc, hl'⟩ | hb
  · exact .inl ⟨hc, hgrow.locate hl'⟩
  · exact .inr ⟨root, hgrow.lstat hl, hgrow.isDir hr, hb⟩

theorem materializeTree_contained (hl : w.fs.lstat outDir = some root)
    (hr : w.fs.isDir root = true) (hc : AllContained outDir w)
    (hb : ∀ d, home w.fs outDir = some d → Below w.fs root d) (store : ObjectStore) (fuel : ℕ)
    (treeOID : OID) :
    Triple (· = w) (materializeTree faults store fuel treeOID outDir 0)
      (fun _ => AllContained outDir) (AllContained outDir) := by
  have hne : outDir ≠ [] := by
    rintro rfl
    cases hl
  cases hh : home w.fs outDir with
  | none =>
    have hu : ∀ w', Untouched w w' → AllContained outDir w' := by
      rintro w' ⟨hf, ht⟩
      unfold AllContained
      rw [hf, ht]
      exact hc
    exact (((descends_nowhere faults).materialize store fuel).1 treeOID outDir 0 w hne hh).post
      (fun _ => hu) hu
  | some d =>
    have hu : ∀ w', Reaches (IsItself w.fs outDir) root w w' → AllContained outDir w' :=
      fun w' h => h.contained hl hr
    have hd := descends_below faults (IsItself w.fs outDir) root
    exact ((hd.materialize store fuel).1 treeOID outDir 0 w hne
      ⟨hc.guarded hl, d, hh, hb d hh⟩).post (fun _ => hu) hu

/-- Below an output directory that is aligned, all that is touched is contained. -/
theorem materialize_contained (ha : Aligned w.fs outDir) (hw : w.touched = [])
    (store : ObjectStore) (fuel : ℕ) (treeOID : OID) :
    Triple (· = w) (materialize faults store fuel treeOID outDir)
      (fun _ => AllContained outDir) (AllContained outDir) := by
  have hnone : ∀ s, s = w → AllContained outDir s := by
    rintro s rfl t ht
    rw [hw] at ht
    cases ht
  unfold materialize
  cases countMaterializedEntries store fuel treeOID with
  | none => exact Triple.throw hnone
  | some total =>
    apply Triple.bind ((returned_triple (P := (· = w)) total).onError hnone)
    intro total
    apply Triple.bind ((ensureDir_triple w).onError fun _ h => h.contained hw)
    intro _
    apply Triple.fixed
    rintro s ⟨hs, ⟨root, hl, hr⟩, hc⟩
    have hb : ∀ d, home s.fs outDir = some d → Below s.fs root d := by
      intro d hh
      rw [hs] at hl hr hh ⊢
      exact ha root d hl hr hh
    apply Triple.bind (materializeTree_contained hl hr (hc.contained hw) hb store fuel treeOID)
    intro _
    exact Triple.pure fun _ h => h

end

end GitpContainment
