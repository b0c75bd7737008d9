import Overthinkin.MkdotSources

/-! `mkdot -n` is meant to leave what is there alone and to write under the base only. `access`
follows the links of a destination, and so does the `open` that comes after it. -/
namespace Mkdot

open AsciiText PosixFileSystem PosixCalls StatefulCall

/-! ### What a run leaves alone -/

section
variable (base : Path) (before : FileSystem)

/-- A directory of the tree that the base was the top of at the start. -/
def Inside (fs : FileSystem) (d : Inode) : Prop := ∃ b, before.stat base = some b ∧ Below fs b d

def OldFile (i : Inode) : Prop := ∃ data mode, before.nodes i = some (.file data mode)

/-- Entries, links and files are as they were, and what is new is under the base. -/
structure Untouched (fs : FileSystem) : Prop where
  grows : Grows before fs
  files : ∀ i data mode, before.nodes i = some (.file data mode) →
    fs.nodes i = some (.file data mode)
  fresh : ∀ d name i, before.child d name = none → fs.child d name = some i →
    Inside base before fs d

/-! ### The condition -/

/-- Where nothing is at the end of `dst` yet, its directory is under the base. -/
def Placed (fs : FileSystem) (dst : Path) : Prop :=
  ∀ d name, fs.locate dst = some (d, name) → fs.entry d name = none → Inside base before fs d

end

/-- The handler gets a directory or a file, and `dst` is its destination. -/
def Moment.Aims (settings : Settings) (m : Moment) (dst : Path) : Prop :=
  ∃ topic fpath stale typeflag answer, m.before.topic = some topic ∧
    m.action = .installHandle fpath stale typeflag answer ∧
    (typeflag = .directory ∨ typeflag = .file) ∧
    targetDst settings.base topic.length (fpath ++ 0 :: stale) = .ok dst

/-- The destination of a call fits in the buffer and has its directory under the base. Where
`access` finds no file, a copy has no link in its way. -/
structure Moment.Contained (before : FileSystem) (settings : Settings) (faults : ℕ → Fault)
    (m : Moment) : Prop where
  inBounds : m.InBounds settings
  placed : ∀ dst, m.Aims settings dst → Placed settings.base before m.before.world.fs dst
  free : settings.useSymlink = false → ∀ fpath dst answer, m.Handles settings fpath dst answer →
    ¬ Accessible faults m.before.world dst → m.before.world.fs.Free dst

section
variable {base : Path} {before fs fs' : FileSystem} {d : Inode} {name : Name}

theorem Inside.grows (h : Inside base before fs d) (hg : Grows fs fs') :
    Inside base before fs' d := by
  obtain ⟨b, hb, hd⟩ := h
  exact ⟨b, hb, hd.grows hg⟩

theorem Untouched.refl (base : Path) (fs : FileSystem) : Untouched base fs fs where
  grows := Grows.refl fs
  files _ _ _ h := h
  fresh d name i h h' := by
    rw [h] at h'
    cases h'

theorem Untouched.link (h : Untouched base before fs) (hin : Inside base before fs d)
    (he : fs.entry d name = none) (hd : fs.isDir d = true) {node : Node} (hb : Bare node) :
    Untouched base before (fs.link d name node) where
  grows := h.grows.trans (grows_link he node)
  files i data mode hi := by
    obtain ⟨_, hi', rfl | ⟨_, _, _, hdir, -⟩⟩ := nodes_link d name node (h.files i data mode hi)
    · exact hi'
    · cases hdir
  fresh x n i hx hi := by
    rw [child_link hd hb] at hi
    by_cases hxn : x = d ∧ n = name
    · exact hxn.1 ▸ hin.grows (grows_link he node)
    · rw [if_neg hxn] at hi
      exact (h.fresh x n i hx hi).grows (grows_link he node)

theorem Untouched.setFile (h : Untouched base before fs) {j : Inode} (hj : ¬ OldFile before j)
    (change : List UInt8 → ℕ → Node)
    (hc : ∀ data mode, ∃ data' mode', change data mode = .file data' mode') :
    Untouched base before (fs.setFile j change) where
  grows := h.grows.trans (grows_setFile j change)
  files i data mode hi := by
    have hne : i ≠ j := by
      rintro rfl
      exact hj ⟨data, mode, hi⟩
    simp only [FileSystem.setFile, h.files i data mode hi, if_neg hne]
  fresh x n i hx hi := by
    rw [child_setFile hc] at hi
    exact (h.fresh x n i hx hi).grows (grows_setFile j change)

theorem Untouched.next (h : Untouched base before fs) : ¬ OldFile before fs.next := by
  rintro ⟨data, mode, hi⟩
  have hnext := h.files _ data mode hi
  rw [fs.fresh _ (Nat.le_refl _)] at hnext
  cases hnext

end

/-! ### Calls -/

section
variable {base src dst : Path} {before : FileSystem} {faults : ℕ → Fault} {settings : Settings}

/-- The invariant of a run, in the form of the rules for calls. -/
abbrev Leaves (base : Path) (before : FileSystem) (w : World) : Prop := Untouched base before w.fs

theorem mkdir_leaves :
    Triple (fun w => Leaves base before w ∧ Placed base before w.fs dst) (mkdir faults dst)
      (fun _ => Leaves base before) (Leaves base before) := by
  apply syscall_rule
  · exact fun _ hw => hw.1
  · rintro w e ⟨hw, hin⟩ he
    obtain ⟨d, name, hl, hfree, rfl⟩ := mkdir_eq_ok.mp he
    have hw' := hw.link (hin d name hl hfree) hfree (isDir_of_locate hl)
      (show Bare (.dir d []) by simp [Bare])
    exact ⟨hw', hw'⟩

theorem linkFile_leaves :
    Triple (fun w => Leaves base before w ∧ Placed base before w.fs dst)
      (linkFile faults src dst) (fun _ => Leaves base before) (Leaves base before) := by
  rw [linkFile]
  apply syscall_rule
  · exact fun _ hw => hw.1
  · rintro w e ⟨hw, hin⟩ he
    obtain ⟨d, name, hl, hfree, -, -, rfl⟩ := symlink_eq_ok.mp he
    have hw' := hw.link (hin d name hl hfree) hfree (isDir_of_locate hl)
      (show Bare (.symlink src) by simp [Bare])
    exact ⟨hw', hw'⟩

/-- The file that is open afterwards is a new one. -/
theorem openTrunc_leaves (mode : ℕ) :
    Triple (fun w => Leaves base before w ∧ Placed base before w.fs dst ∧ w.fs.Free dst)
      (openTrunc faults dst mode)
      (fun fd w => ¬ OldFile before fd.inode ∧ Leaves base before w) (Leaves base before) := by
  apply syscall_rule
  · exact fun _ hw => hw.1
  · rintro w e ⟨hw, hin, hfree⟩ he
    obtain ⟨d, name, hl, hnone, rfl⟩ := openTrunc_free hfree he
    have hw' := hw.link (hin d name hl hnone) hnone (isDir_of_locate hl)
      (show Bare (.file [] mode) by simp [Bare])
    exact ⟨⟨hw.next, hw'⟩, hw'⟩

theorem copyFile_leaves :
    Triple (fun w => Leaves base before w ∧ Placed base before w.fs dst ∧ w.fs.Free dst)
      (copyFile faults src dst) (fun _ => Leaves base before) (Leaves base before) := by
  let opens : FileSystem → List Touch → Prop := fun fs _ =>
    Untouched base before fs ∧ Placed base before fs dst ∧ fs.Free dst
  let leaves : FileSystem → List Touch → Prop := fun fs _ => Untouched base before fs
  have hkept : ∀ w : World, opens w.fs w.touched → Leaves base before w := fun _ h => h.1
  rw [copyFile]
  refine Triple.bind ((openRead_silent opens src).onError hkept) fun srcFd => ?_
  refine Triple.bind ((fstat_silent opens srcFd).onError hkept) fun node => ?_
  refine Triple.bind (openTrunc_leaves _) fun fd => Triple.assuming fun hfd => ?_
  refine Triple.bind (contents_silent leaves srcFd) fun data => ?_
  have hwrite : Writable leaves fun i => ¬ OldFile before i :=
    ⟨fun change _ h hj hc => h.setFile hj change hc⟩
  exact Triple.bind (copyLoop_keeps hfd hwrite _) fun _ => fchmod_keeps hfd hwrite _

theorem install_leaves {E : World → Prop} :
    Triple (fun w => Leaves base before w ∧ Placed base before w.fs dst ∧
        (settings.useSymlink = false → w.fs.Free dst))
      (install faults settings src dst) (fun _ => Leaves base before) E := by
  rw [install]
  cases settings.useSymlink with
  | true =>
    refine Triple.bind (Q := fun _ => Leaves base before) ?_ fun _ => Triple.pure fun _ h => h
    refine (Triple.attempt linkFile_leaves).mono (fun _ h => ⟨h.1, h.2.1⟩) ?_ fun _ h => h
    intro r w hw
    cases r <;> exact hw
  | false =>
    refine Triple.bind (Q := fun _ => Leaves base before) ?_ fun _ => Triple.pure fun _ h => h
    refine (Triple.attempt copyFile_leaves).mono (fun _ h => ⟨h.1, h.2.1, h.2.2 rfl⟩) ?_
      fun _ h => h
    intro r w hw
    cases r <;> exact hw

end

/-! ### Whole runs -/

section
variable {settings : Settings} {faults : ℕ → Fault} {before : FileSystem} {w : World}
  {topicPrefix : ℕ} {fpath : Path} {stale : List UInt8} {answer : Option UInt8}

theorem installHandle_leaves (hmode : settings.mode = .skip) (hw : Leaves settings.base before w)
    (typeflag : TypeFlag)
    (hin : ∀ dst, targetDst settings.base topicPrefix (fpath ++ 0 :: stale) = .ok dst →
      (typeflag = .directory ∨ typeflag = .file → Placed settings.base before w.fs dst) ∧
      (typeflag = .file → ¬ Accessible faults w dst → settings.useSymlink = false →
        w.fs.Free dst)) :
    Triple (· = w) (installHandle faults settings topicPrefix fpath stale typeflag answer)
      (fun _ => Leaves settings.base before) (Leaves settings.base before) := by
  have hret : ∀ {P : World → Prop}, (∀ w', P w' → Leaves settings.base before w') →
      Triple P (pure () : Call World Crash Unit) (fun _ => Leaves settings.base before)
        (Leaves settings.base before) := fun h => Triple.pure h
  rw [installHandle]
  refine Triple.bind (Q := fun dst w' =>
    targetDst settings.base topicPrefix (fpath ++ 0 :: stale) = .ok dst ∧ w' = w)
    (Triple.lift (fun _ _ hd hw => ⟨hd, hw⟩) fun _ _ _ he => he ▸ hw) fun dst =>
      Triple.assuming fun hdst => ?_
  cases typeflag with
  | directory =>
    refine Triple.bind (Q := fun _ => Leaves settings.base before) ?_ fun _ => hret fun _ h => h
    rw [ensureDir]
    have hmkdir : Triple (· = w) (mkdir faults dst) (fun _ => Leaves settings.base before)
        (Leaves settings.base before) :=
      mkdir_leaves.pre fun w' hw' => hw' ▸ ⟨hw, (hin dst hdst).1 (.inl rfl)⟩
    refine Triple.bind (Triple.attempt hmkdir) ?_
    rintro ((_ | _) | _) <;> exact Triple.pure fun _ h => h
  | file =>
    refine Triple.bind (Triple.attempt (access_spec w dst)) ?_
    rintro (_ | _)
    · refine install_leaves.pre ?_
      rintro w' ⟨⟨hfs, -⟩, hacc⟩
      rw [Leaves, hfs]
      exact ⟨hw, (hin dst hdst).1 (.inr rfl), (hin dst hdst).2 rfl hacc⟩
    · -- what `access` finds is skipped
      dsimp only
      rw [hmode, skips, if_pos rfl]
      exact hret fun w' hw' => show Untouched _ _ _ from hw'.1.1 ▸ hw
  | unreadable => exact hret fun w' hw' => hw' ▸ hw
  | unstatable => exact hret fun w' hw' => hw' ▸ hw

theorem next_leaves (hmode : settings.mode = .skip) {s : State} {a : Action}
    (hs : Leaves settings.base before s.world)
    (hc : Moment.Contained before settings faults ⟨s, a⟩) :
    Leaves settings.base before (next settings faults s a).world := by
  cases a with
  | installTopic =>
    cases hp : s.pending with
    | nil =>
      rw [next, hp]
      exact hs
    | cons topic rest =>
      rw [next, hp]
      exact (installTopic_silent (fun fs _ => Untouched settings.base before fs) topic).always hs
        (fun _ _ h => h) fun _ h => h
  | installHandle fpath stale typeflag answer =>
    cases ht : s.topic with
    | none =>
      rw [next, ht]
      exact hs
    | some topic =>
      rw [next, ht]
      refine (installHandle_leaves hmode hs typeflag fun dst hdst => ⟨?_, ?_⟩).always rfl
        (fun _ _ h => h) fun _ h => h
      · exact fun hflag =>
          hc.placed dst ⟨topic, fpath, stale, typeflag, answer, ht, rfl, hflag, hdst⟩
      · rintro rfl hacc hlink
        exact hc.free hlink fpath dst answer ⟨topic, stale, ht, rfl, hdst⟩ hacc

theorem nothing_overwritten (hmode : settings.mode = .skip) {s t : State} {trace : List Moment}
    (run : Execution settings faults s trace t)
    (hs : ∀ m ∈ trace, m.Contained s.world.fs settings faults) :
    Untouched settings.base s.world.fs t.world.fs := by
  generalize hb : s.world.fs = before at hs ⊢
  have hu : Untouched settings.base before s.world.fs := hb ▸ Untouched.refl _ _
  clear hb
  induction run with
  | nil => exact hu
  | cons _ _ ih =>
    exact ih (fun m hm => hs m (List.mem_cons_of_mem _ hm))
      (next_leaves hmode hu (hs _ List.mem_cons_self))

end

/-- `mkdot -n t b`, in `/`. -/
def skipping : Settings := ⟨.skip, false, ascii "/b"⟩

theorem sample_base : sample.stat (ascii "/b") = some 3 := by
  change (sample.lookup 40 0 [ascii "b"]).bind _ = some 3
  rw [lookup_dir (i := 3) rfl rfl]
  rfl

theorem nothing_overwritten_empty :
    Untouched skipping.base begun.world.fs (visited skipping).world.fs := by
  have hroot : targetDst skipping.base (ascii "t").length (ascii "t" ++ 0 :: []) =
      .ok (ascii "/b/") := by decide
  have hfile : targetDst skipping.base (ascii "t").length (ascii "t/f" ++ 0 :: []) =
      .ok (ascii "/b/f") := by decide
  have hbase : sample.locate (ascii "/b/") = some (0, ascii "b") :=
    sample_locate (by decide) rfl rfl
  refine nothing_overwritten rfl (visits_run skipping hroot (mkdir_taken hbase rfl)) ?_
  apply visits_forall
  · constructor
    · intro _ _ _ _ _ ht
      cases ht
    · rintro _ ⟨_, _, _, _, _, ht, _⟩
      cases ht
    · rintro _ _ _ _ ⟨_, _, ht, _⟩
      cases ht
  · constructor
    · intro _ _ _ _ _ ht ha
      cases ht
      cases ha
      decide
    · rintro dst ⟨_, _, _, _, _, ht, ha, -, hdst⟩ d name hl hfree
      cases ht
      cases ha
      obtain rfl : ascii "/b/" = dst := Except.ok.inj (hroot.symm.trans hdst)
      obtain ⟨rfl, rfl⟩ := Prod.mk.inj (Option.some.inj (hbase.symm.trans hl))
      cases hfree
    · rintro _ _ _ _ ⟨_, _, _, ha, _⟩
      cases ha
  · constructor
    · intro _ _ _ _ _ ht ha
      cases ht
      cases ha
      decide
    · rintro dst ⟨_, _, _, _, _, ht, ha, -, hdst⟩ d name hl _
      cases ht
      cases ha
      obtain rfl : ascii "/b/f" = dst := Except.ok.inj (hfile.symm.trans hdst)
      obtain ⟨rfl, rfl⟩ := Prod.mk.inj (Option.some.inj (sample_inner.symm.trans hl))
      exact ⟨3, sample_base, .refl⟩
    · rintro - _ dst _ ⟨_, _, ht, ha, hdst⟩ - p hl
      cases ht
      cases ha
      obtain rfl : ascii "/b/f" = dst := Except.ok.inj (hfile.symm.trans hdst)
      obtain rfl := Option.some.inj (sample_inner.symm.trans hl)
      rfl

/-! ### A link that leads nowhere -/

section
variable {src dst : Path} {w : World} {fd : Handle} {d : Inode} {name : Name}
  {data : List UInt8} {mode : ℕ} {e : Effect Handle}

/-- After a copy the entries are those that `open` left. -/
theorem copyFile_child (hsrc : w.fs.openRead src = .ok ⟨fd, w.fs, []⟩)
    (hnode : w.fs.nodes fd.inode = some (.file data mode))
    (hdst : w.fs.openTrunc dst mode = .ok e) :
    ((copyFile (fun _ => .none) src dst).from w).2.fs.child d name = e.fs.child d name := by
  let made : FileSystem → List Touch → Prop := fun fs _ => fs.child d name = e.fs.child d name
  have hwrite : Writable made fun _ => True :=
    ⟨fun change _ h _ hc => (child_setFile hc _ d name).trans h⟩
  have ho : (openRead (fun _ => .none) src).from w = (.ok fd, w.after ⟨fd, w.fs, []⟩) := by
    rw [openRead, syscall, from_ofStep, hsrc]
  have hs : ∀ w' : World, w'.fs = w.fs → (fstat (fun _ => .none) fd).from w' =
      (.ok (Node.file data mode), w'.after ⟨Node.file data mode, w'.fs, []⟩) := by
    intro w' hw'
    rw [fstat, syscall, from_ofStep, hw', hnode]
  have ht : ∀ w' : World, w'.fs = w.fs → (openTrunc (fun _ => .none) dst mode).from w' =
      (.ok e.value, w'.after e) := by
    intro w' hw'
    rw [openTrunc, syscall, from_ofStep, hw', hdst]
  have hrest : Triple (fun w => made w.fs w.touched) (do
      let data ← contents (fun _ => .none) fd
      copyLoop (fun _ => .none) fd e.value (data.toChunks bufferSize)
      fchmod (fun _ => .none) e.value mode) (fun _ w => made w.fs w.touched)
      (fun w => made w.fs w.touched) := by
    refine Triple.bind (contents_silent made fd) fun data => ?_
    exact Triple.bind (copyLoop_keeps trivial hwrite _) fun _ => fchmod_keeps trivial hwrite _
  let opened := w.after ⟨fd, w.fs, []⟩
  rw [copyFile, from_bind_ok ho, from_bind_ok (hs opened rfl)]
  dsimp only [modeOf]
  rw [from_bind_ok (ht (opened.after ⟨Node.file data mode, opened.fs, []⟩) rfl)]
  exact hrest.always rfl (fun _ _ h => h) fun _ h => h

end

/-- `/b/f` is a link to `/x`, which is not there. -/
def dangling : FileSystem where
  nodes i := [.dir 0 [(ascii "t", 1), (ascii "b", 3)], .dir 0 [(ascii "f", 2)],
    .file (ascii "h") 0o644, .dir 0 [(ascii "f", 4)], .symlink (ascii "/x")][i]?
  next := 5
  root := 0
  cwd := 0
  maxLinks := 40
  fresh _ h := List.getElem?_eq_none h

theorem dangling_topic : dangling.stat (ascii "t") = some 1 := by
  change (dangling.lookup 40 0 [ascii "t"]).bind _ = some 1
  rw [lookup_dir (i := 1) rfl rfl]
  rfl

theorem dangling_source : dangling.lookup 40 0 [ascii "t", ascii "f"] = some (1, ascii "f") := by
  rw [lookup_dir (i := 1) rfl rfl, if_neg (by decide), lookup_file (i := 2) rfl rfl]
  rfl

theorem dangling_target : dangling.lookup 40 0 [ascii "b", ascii "f"] = some (0, ascii "x") := by
  rw [lookup_dir (i := 3) rfl rfl, if_neg (by decide), lookup_symlink (i := 4) rfl rfl]
  change dangling.lookup 39 0 [ascii "x"] = _
  rw [FileSystem.lookup]
  rfl

theorem dangling_child {x : Inode} {n : Name} : dangling.child x n ≠ some 0 := by
  have hlookup : ∀ entries : List (Name × Inode), (∀ p ∈ entries, p.2 ≠ 0) →
      entries.lookup n ≠ some 0 := by
    intro entries hall h
    obtain ⟨before, after, rfl, -⟩ := List.lookup_eq_some_iff.mp h
    exact hall (n, 0) (by simp) rfl
  match x with
  | 0 => exact hlookup [(ascii "t", 1), (ascii "b", 3)] (by decide)
  | 1 => exact hlookup [(ascii "f", 2)] (by decide)
  | 2 => nofun
  | 3 => exact hlookup [(ascii "f", 4)] (by decide)
  | 4 => nofun
  | _ + 5 => nofun

def sought : State := ⟨⟨dangling, [], 0⟩, [ascii "t"], none, false⟩

def seeking (calls : ℕ) : State := ⟨⟨dangling, [], calls⟩, [], some (ascii "t"), false⟩

def found : State :=
  next skipping (fun _ => .none) (seeking 2) (.installHandle (ascii "t/f") [] .file none)

theorem found_run : Execution skipping (fun _ => .none) sought
    [⟨sought, .installTopic⟩, ⟨seeking 1, .installHandle (ascii "t") [] .directory none⟩,
      ⟨seeking 2, .installHandle (ascii "t/f") [] .file none⟩] found := by
  have hname : EntryName (ascii "f") := ⟨by decide, by decide, by decide, by decide, by decide⟩
  have hroot : targetDst skipping.base (ascii "t").length (ascii "t" ++ 0 :: []) =
      .ok (ascii "/b/") := by decide
  have hbase : dangling.locate (ascii "/b/") = some (0, ascii "b") := by
    refine locate_eq_some.mpr ⟨[], by decide, ?_⟩
    change dangling.walk 40 0 [] = some 0
    rw [FileSystem.walk]
    rfl
  have hsource : dangling.stat (ascii "t/f") = some 2 := by
    rw [FileSystem.stat, FileSystem.reach]
    exact congrArg (·.bind fun p => dangling.entry p.1 p.2) dangling_source
  refine .cons ⟨rfl, by decide⟩ ?_
  rw [sought, next_installTopic dangling_topic rfl]
  refine .cons ⟨rfl, ⟨1, dangling_topic, rfl⟩, ascii "t", [], rfl, by simp, by decide⟩ ?_
  rw [next_directory hroot (mkdir_taken hbase rfl)]
  refine .cons ⟨rfl, ⟨2, hsource, rfl⟩, ascii "t", [ascii "f"], rfl, by simpa using hname,
    by decide⟩ ?_
  exact .nil _

/-- The copy makes `/x`. -/
theorem found_child (x : Inode) (n : Name) : found.world.fs.child x n =
    if x = 0 ∧ n = ascii "x" then some 5 else dangling.child x n := by
  have hfile : targetDst skipping.base (ascii "t").length (ascii "t/f" ++ 0 :: []) =
      .ok (ascii "/b/f") := by decide
  have hnone : dangling.stat (ascii "/b/f") = none := by
    rw [FileSystem.stat, FileSystem.reach]
    exact congrArg (·.bind fun p => dangling.entry p.1 p.2) dangling_target
  have hread : dangling.openRead (ascii "t/f") = .ok ⟨⟨2, 1, ascii "f"⟩, dangling, []⟩ := by
    have hl : dangling.lookup dangling.maxLinks (dangling.start (ascii "t/f"))
        (steps (ascii "t/f")) = some (1, ascii "f") := dangling_source
    rw [FileSystem.openRead, hl]
    rfl
  have hopen : dangling.openTrunc (ascii "/b/f") 0o644 = .ok ⟨⟨5, 0, ascii "x"⟩,
      dangling.link 0 (ascii "x") (.file [] 0o644), [⟨.file, 0, ascii "x"⟩]⟩ := by
    have hl : dangling.lookup dangling.maxLinks (dangling.start (ascii "/b/f"))
        (steps (ascii "/b/f")) = some (0, ascii "x") := dangling_target
    rw [FileSystem.openTrunc, hl]
    rfl
  have hcopy : found.world = ((copyFile (fun _ => .none) (ascii "t/f") (ascii "/b/f")).from
      (seeking 2).world.unchanged).2 := by
    change ((installHandle (fun _ => .none) skipping (ascii "t").length (ascii "t/f") [] .file
      none).from (seeking 2).world).2 = _
    rw [installHandle_unfound skipping none hfile hnone, install, if_neg (by decide), from_bind,
      from_attempt]
    rfl
  rw [hcopy, copyFile_child hread rfl hopen]
  exact child_link rfl (by simp [Bare]) x n

/-- `mkdot -n t b` with a link at the destination. -/
theorem entry_made_outside : ¬ ∀ (settings : Settings) (topics : List Path) (s t : State)
    (trace : List Moment), settings.mode = .skip → Initial settings topics s →
    Execution settings (fun _ => .none) s trace t → t.pending = [] →
      Untouched settings.base s.world.fs t.world.fs := by
  intro h
  have hname : EntryName (ascii "b") := ⟨by decide, by decide, by decide, by decide, by decide⟩
  have hinit : Initial skipping [ascii "t"] sought :=
    ⟨rfl, rfl, rfl, rfl, ⟨[ascii "b"], 3, rfl, by simpa using hname, rfl, rfl⟩, by decide⟩
  obtain ⟨b, hb, hbelow⟩ :=
    (h skipping [ascii "t"] sought found _ rfl hinit found_run rfl).fresh 0 (ascii "x") 5 rfl
      ((found_child 0 (ascii "x")).trans (if_pos ⟨rfl, rfl⟩))
  have hbase : dangling.stat (ascii "/b") = some 3 := by
    change (dangling.lookup 40 0 [ascii "b"]).bind _ = some 3
    rw [lookup_dir (i := 3) rfl rfl]
    rfl
  obtain rfl : 3 = b := Option.some.inj (hbase.symm.trans hb)
  -- no entry leads back to `/`
  cases hbelow with
  | step _ ne ne' he _ =>
    rw [entry_eq_child ne ne', found_child] at he
    split at he
    · cases he
    · exact dangling_child he

end Mkdot
