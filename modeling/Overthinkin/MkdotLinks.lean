import Overthinkin.MkdotSources

/-! Where the links of `mkdot -s` lead. The text of a link is the path of its file from the current
directory, and it is read from the directory of the link. -/
namespace Mkdot

open AsciiText PosixFileSystem PosixCalls StatefulCall

/-! ### Resolutions that last -/

/-- Names lead where they led before, through the same entries. -/
structure Leads (before : FileSystem) (d : Inode) (names : List Name) (i : Inode)
    (fs : FileSystem) : Prop where
  retains : Retains before fs
  reach : fs.reach fs.maxLinks d names = some i
  trail : fs.trail fs.maxLinks d names = before.trail before.maxLinks d names

section
variable {before fs fs' : FileSystem} {d x i : Inode} {name n : Name} {names : List Name}

theorem Leads.refl (h : fs.reach fs.maxLinks d names = some i) : Leads fs d names i fs :=
  ⟨Retains.refl fs, h, rfl⟩

/-- Whatever keeps the entries on the way keeps the result. -/
theorem Leads.retained (h : Leads before d names i fs) (hk : Retains fs fs')
    (ht : ∀ p ∈ fs.trail fs.maxLinks d names, ∀ j, fs.entry p.1 p.2 = some j →
      fs'.entry p.1 p.2 = some j) : Leads before d names i fs' := by
  obtain ⟨hr, htrail⟩ := hk.reach ht h.reach
  exact ⟨h.retains.trans hk, hk.maxLinks ▸ hr, hk.maxLinks ▸ htrail.trans h.trail⟩

theorem Leads.link (h : Leads before d names i fs) (node : Node) (he : fs.entry x n = none) :
    Leads before d names i (fs.link x n node) :=
  h.retained (retains_link x n node) fun _ _ _ hj => (grows_link he node).entry hj

theorem Leads.setFile (h : Leads before d names i fs) (j : Inode) {change : List UInt8 → ℕ → Node}
    (hc : ∀ data mode, ∃ data' mode', change data mode = .file data' mode') :
    Leads before d names i (fs.setFile j change) :=
  h.retained (retains_setFile j hc) fun _ _ _ hj => (grows_setFile j change).entry hj

theorem Leads.remove (h : Leads before d names i fs)
    (hn : (x, n) ∉ fs.trail fs.maxLinks d names) : Leads before d names i (fs.remove x n) := by
  refine h.retained (retains_remove x n) fun p hp j hj => ?_
  rw [entry_remove fun he => hn (he ▸ hp)]
  exact hj

theorem leads_stable : Stable (fun fs _ => Leads before d names i fs) fun _ => True where
  link node _ h he := h.link node he
  next _ := trivial
  write _ _ h _ hc := h.setFile _ hc

end

/-- The link that was made for the file `i`, and where it leads. -/
structure Works (fs : FileSystem) (d : Inode) (name : Name) (src : Path) (i : Inode) : Prop where
  link : ∃ l, fs.child d name = some l ∧ fs.nodes l = some (.symlink src)
  leads : fs.reach fs.maxLinks d [name] = some i

/-- A link of the run that works since `before`. -/
structure Installed (before : FileSystem) (d : Inode) (name : Name) (src : Path) (i : Inode)
    (fs : FileSystem) (touched : List Touch) : Prop where
  link : ∃ l, fs.child d name = some l ∧ fs.nodes l = some (.symlink src)
  leads : Leads before d [name] i fs
  touched : ⟨.symlink, d, name⟩ ∈ touched

section
variable {before fs : FileSystem} {touched : List Touch} {d x i : Inode} {name n : Name}
  {src : Path}

theorem installed_stable : Stable (Installed before d name src i) fun _ => True where
  link := by
    rintro fs touched x n node t ⟨⟨l, hl, hsrc⟩, hleads, htouched⟩ he
    exact ⟨⟨l, (grows_link he node).child hl, (retains_link x n node).symlink hsrc⟩,
      hleads.link node he, List.mem_append_left _ htouched⟩
  next _ := trivial
  write := by
    rintro fs touched j change t ⟨⟨l, hl, hsrc⟩, hleads, htouched⟩ - hc
    exact ⟨⟨l, by rw [child_setFile hc, hl], (retains_setFile j hc).symlink hsrc⟩,
      hleads.setFile j hc, List.mem_append_left _ htouched⟩

theorem Installed.remove (h : Installed before d name src i fs touched)
    (hn : (x, n) ∉ fs.trail fs.maxLinks d [name]) :
    Installed before d name src i (fs.remove x n) touched := by
  obtain ⟨l, hl, hsrc⟩ := h.link
  refine ⟨⟨l, ?_, (retains_remove x n).symlink hsrc⟩, h.leads.remove hn, h.touched⟩
  rw [child_remove, if_neg, hl]
  rintro ⟨rfl, rfl⟩
  exact hn (head_mem_trail [])

end

/-! ### The condition -/

/-- An entry that can go: no file of a topic, no topic and no link of the run is reached by it. -/
structure Dispensable (topics : List Path) (before fs : FileSystem) (touched : List Touch)
    (d : Inode) (name : Name) : Prop where
  source : ¬ SourceEntry topics before fs d name
  topic : ∀ topic ∈ topics, (d, name) ∉ fs.trail fs.maxLinks (fs.start topic) (steps topic)
  link : ∀ x n, ⟨.symlink, x, n⟩ ∈ touched → (d, name) ∉ fs.trail fs.maxLinks x [n]

/-- A link can be made at `dst`, and `src` leads from its directory to the file `i`. -/
def Linkable (fs : FileSystem) (src dst : Path) (i : Inode) : Prop :=
  ∃ d name links, fs.locate dst = some (d, name) ∧ fs.entry d name = none ∧
    trailing dst = false ∧ fs.maxLinks = links + 1 ∧ fs.reach links d (steps src) = some i

section
variable (topics : List Path) (before : FileSystem) (settings : Settings) (faults : ℕ → Fault)

/-- What is overwritten can go, and where there was no destination before the run a link to the file
can be made. The call after `access` is `symlink`. -/
structure Proper (w : World) (fpath dst : Path) (answer : Option UInt8) : Prop where
  overwritten : Accessible faults w dst → skips settings.mode answer = false →
    ∀ d name, w.fs.locate dst = some (d, name) →
      Dispensable topics before w.fs w.touched d name
  linkable : before.stat dst = none → ∀ i data mode, w.fs.stat fpath = some i →
    w.fs.nodes i = some (.file data mode) →
    Linkable w.fs fpath dst i ∧ faults (w.calls + 1) ≠ .refused

structure Moment.Proper (m : Moment) : Prop where
  fits : ∀ topic fpath stale typeflag answer, m.before.topic = some topic →
    m.action = .installHandle fpath stale typeflag answer →
    ∃ dst, targetDst settings.base topic.length (fpath ++ 0 :: stale) = .ok dst
  handles : ∀ fpath dst answer, m.Handles settings fpath dst answer →
    Mkdot.Proper topics before settings faults m.before.world fpath dst answer

/-- What `ftw` promises: a file that stays in the tree of a topic is handed to the handler, under
some path that leads to it. -/
def Delivers (trace : List Moment) : Prop :=
  ∀ topic ∈ topics, ∀ root names i data mode, before.stat topic = some root →
    before.isDir root = true →
    (∀ m ∈ trace, m.before.world.fs.stat topic = some root ∧
      m.before.world.fs.descend root names = some i ∧
      m.before.world.fs.nodes i = some (.file data mode)) →
    ∃ m ∈ trace, ∃ fpath stale answer, m.action = .installHandle fpath stale .file answer ∧
      m.before.world.fs.stat fpath = some i

/-- Every file of a topic is handled, and if there was nothing at its destination before the run,
the link made there leads to it after the run. -/
def LinksWork (trace : List Moment) (after : FileSystem) : Prop :=
  ∀ root names i data mode, Source before topics root names i data mode →
    after.nodes i = some (.file data mode) ∧
    (∃ m ∈ trace, ∃ fpath dst answer, m.Handles settings fpath dst answer ∧
      m.before.world.fs.stat fpath = some i) ∧
    ∀ m ∈ trace, ∀ fpath dst answer, m.Handles settings fpath dst answer →
      m.before.world.fs.stat fpath = some i → before.stat dst = none →
      ∃ d name, m.before.world.fs.locate dst = some (d, name) ∧ Works after d name fpath i

end

section
variable {fs : FileSystem} {i : Inode} {name : Name} {names : List Name} {src dst : Path}
  {data : List UInt8} {mode : ℕ}

/-- With the current directory as base, the file of a topic can be linked to at the top. -/
theorem linkable_of_cwd (hn : ∀ n ∈ components src, n ≠ dot ∧ n ≠ dotDot)
    (hsrc : trailing src = false) (hd : fs.descend fs.cwd (components src) = some i)
    (hi : fs.nodes i = some (.file data mode)) (hloc : fs.locate dst = some (fs.cwd, name))
    (hfree : fs.entry fs.cwd name = none) (ht : trailing dst = false) (hlinks : 0 < fs.maxLinks) :
    Linkable fs src dst i := by
  have hne : components src ≠ [] := by
    intro hnil
    rw [hnil] at hd
    obtain rfl : fs.cwd = i := Option.some.inj hd
    rw [FileSystem.entry, hi] at hfree
    obtain ⟨_, _, hdir⟩ := isDir_iff.mp (isDir_of_locate hloc)
    rw [hi] at hdir
    cases hdir
  refine ⟨fs.cwd, name, fs.maxLinks - 1, hloc, hfree, ht, by omega, ?_⟩
  rw [steps_of_not_trailing hsrc]
  exact reach_of_descend _ hn hne hd hi

/-- From a directory without an entry of the first name of the path there is no way to the file. -/
theorem not_linkable (hsrc : components src = name :: names)
    (hloc : ∀ d n, fs.locate dst = some (d, n) → fs.entry d name = none) :
    ¬ Linkable fs src dst i := by
  rintro ⟨d, n, links, hl, -, -, -, hr⟩
  rw [steps, hsrc, List.cons_append] at hr
  generalize names ++ (if trailing src then [dot] else []) = rest at hr
  rw [FileSystem.reach, FileSystem.lookup, hloc d n hl] at hr
  dsimp only at hr
  split_ifs at hr
  · rw [Option.bind_some, hloc d n hl] at hr
    cases hr
  · cases hr

end

/-! ### A link that is made -/

theorem relative_of_targetDst {base dst fpath : Path} {topicPrefix : ℕ} {stale : List UInt8}
    (h : targetDst base topicPrefix (fpath ++ 0 :: stale) = .ok dst) : isAbs fpath = false := by
  cases fpath with
  | nil => rfl
  | cons c rest =>
    refine Bool.eq_false_iff.mpr fun habs => ?_
    have hc : c = separator := by simpa [isAbs] using habs
    rw [targetDst, List.cons_append, List.head?_cons, hc, if_pos rfl] at h
    cases h

section
variable {fs : FileSystem} {d i : Inode} {name : Name} {src : Path} {links : ℕ}

/-- A new link leads where its text leads from its directory. -/
theorem reach_link (hd : fs.isDir d = true) (he : fs.entry d name = none)
    (hlinks : fs.maxLinks = links + 1) (hsrc : isAbs src = false)
    (hr : fs.reach links d (steps src) = some i) :
    (fs.link d name (.symlink src)).reach fs.maxLinks d [name] = some i := by
  have hbase : (fs.link d name (.symlink src)).linkBase d src = d := by
    rw [FileSystem.linkBase, hsrc, if_neg Bool.false_ne_true]
  have hgrown := ((retains_link d name (.symlink src)).reach
    (fun _ _ _ hj => (grows_link he _).entry hj) hr).1
  rw [FileSystem.reach] at hgrown ⊢
  rw [hlinks, lookup_symlink (entry_link hd he _) (nodes_link_next d name _), hbase,
    List.append_nil]
  exact hgrown

variable {faults : ℕ → Fault} {settings : Settings} {w : World} {fpath dst : Path}
  {topicPrefix : ℕ} {stale : List UInt8} {answer : Option UInt8}

/-- Where there is nothing yet, the handler makes the link. -/
theorem installHandle_linked (hlink : settings.useSymlink = true)
    (hdst : targetDst settings.base topicPrefix (fpath ++ 0 :: stale) = .ok dst)
    (hloc : w.fs.locate dst = some (d, name)) (hfree : w.fs.entry d name = none)
    (ht : trailing dst = false) (hne : fpath ≠ []) (hf : faults (w.calls + 1) ≠ .refused) :
    ((installHandle faults settings topicPrefix fpath stale .file answer).from w).2 =
      w.unchanged.after ⟨(), w.fs.link d name (.symlink fpath), [⟨.symlink, d, name⟩]⟩ := by
  have hw : ((installHandle faults settings topicPrefix fpath stale .file answer).from w).2 =
      ((linkFile faults fpath dst).from w.unchanged).2 := by
    rw [installHandle_unfound settings answer hdst (stat_of_free hloc ht hfree), install,
      if_pos hlink, from_bind, from_attempt]
    rfl
  have hcall : w.unchanged.fs.symlink fpath dst =
      .ok ⟨(), w.fs.link d name (.symlink fpath), [⟨.symlink, d, name⟩]⟩ :=
    symlink_eq_ok.mpr ⟨d, name, hloc, hfree, ht, hne, rfl⟩
  have hcalls : w.unchanged.calls = w.calls + 1 := rfl
  rw [hw, linkFile, symlink, syscall, from_ofStep, hcall, hcalls]
  cases hfault : faults (w.calls + 1) with
  | none => rfl
  | refused => exact (hf hfault).elim
  | late => rfl

theorem installHandle_installed (stale : List UInt8) (answer : Option UInt8)
    (hlink : settings.useSymlink = true)
    (hdst : targetDst settings.base topicPrefix (fpath ++ 0 :: stale) = .ok dst)
    (hl : Linkable w.fs fpath dst i) (hf : faults (w.calls + 1) ≠ .refused) :
    ∃ d name before, w.fs.locate dst = some (d, name) ∧
      Installed before d name fpath i
        ((installHandle faults settings topicPrefix fpath stale .file answer).from w).2.fs
        ((installHandle faults settings topicPrefix fpath stale .file
          answer).from w).2.touched := by
  obtain ⟨d, name, links, hloc, hfree, ht, hlinks, hr⟩ := hl
  have hd : w.fs.isDir d = true := isDir_of_locate hloc
  have hne : fpath ≠ [] := by
    rintro rfl
    simp [FileSystem.reach, steps, components, trailing, FileSystem.lookup] at hr
  rw [installHandle_linked hlink hdst hloc hfree ht hne hf]
  refine ⟨d, name, _, hloc, ⟨w.fs.next, ?_, nodes_link_next d name _⟩, Leads.refl ?_, ?_⟩
  · exact (child_link hd (by simp [Bare]) d name).trans (if_pos ⟨rfl, rfl⟩)
  · exact reach_link hd hfree hlinks (relative_of_targetDst hdst) hr
  · exact List.mem_append_right _ List.mem_cons_self

end

/-! ### Whole runs -/

theorem Execution.enabled {settings : Settings} {faults : ℕ → Fault} {s t : State}
    {trace : List Moment} (run : Execution settings faults s trace t) {m : Moment}
    (hm : m ∈ trace) : Enabled m.before m.action := by
  induction run with
  | nil => cases hm
  | cons he _ ih =>
    rcases List.mem_cons.mp hm with rfl | hm
    · exact he
    · exact ih hm

/-- What follows a moment of a run is a run. -/
theorem Execution.rest {settings : Settings} {faults : ℕ → Fault} {s t : State}
    {trace : List Moment} (run : Execution settings faults s trace t) {m : Moment}
    (hm : m ∈ trace) : ∃ after, (∀ m' ∈ after, m' ∈ trace) ∧
      Execution settings faults (next settings faults m.before m.action) after t := by
  induction run with
  | nil => cases hm
  | cons _ hrest ih =>
    rcases List.mem_cons.mp hm with rfl | hm
    · exact ⟨_, fun _ h => List.mem_cons_of_mem _ h, hrest⟩
    · obtain ⟨after, hsub, hafter⟩ := ih hm
      exact ⟨after, fun m' hm' => List.mem_cons_of_mem _ (hsub m' hm'), hafter⟩

section
variable {settings : Settings} {faults : ℕ → Fault} {s t : State} {trace : List Moment}

theorem run_kept (hlink : settings.useSymlink = true) (run : Execution settings faults s trace t)
    (hs : ∀ m ∈ trace, m.Proper s.pending s.world.fs settings faults) :
    (∀ m ∈ trace, Kept s.pending s.world.fs m.before.world.fs) ∧
      Kept s.pending s.world.fs t.world.fs := by
  refine execution_keeps kept_stable run kept_initial fun m hm fpath dst answer hh hk => ?_
  have hp := (hs m hm).handles fpath dst answer hh
  constructor
  · intro hacc hskip d name _ hl hj hleaf
    exact hk.remove hj hleaf (hp.overwritten hacc hskip d name hl).source
  · rw [hlink]
    nofun

theorem run_topic (run : Execution settings faults s trace t)
    (hs : ∀ m ∈ trace, m.Proper s.pending s.world.fs settings faults) {topic : Path}
    (htopic : topic ∈ s.pending) {root : Inode} (hr : s.world.fs.stat topic = some root) :
    ∀ m ∈ trace, m.before.world.fs.stat topic = some root := by
  have hall := execution_keeps leads_stable run (Leads.refl hr)
    fun m hm fpath dst answer hh hk => by
      refine ⟨fun hacc hskip d name _ hl _ _ => ?_, fun _ _ _ _ => trivial⟩
      have hn := (((hs m hm).handles fpath dst answer hh).overwritten hacc hskip d name hl).topic
        topic htopic
      rw [hk.retains.start] at hn
      exact hk.remove hn
  intro m hm
  have hleads := hall.1 m hm
  rw [FileSystem.stat, hleads.retains.start]
  exact hleads.reach

/-- A link that was made leads to its file as long as what is overwritten can go. -/
theorem run_installed (run : Execution settings faults s trace t) {topics : List Path}
    {before start : FileSystem} {d i : Inode} {name : Name} {src : Path}
    (hi : Installed before d name src i s.world.fs s.world.touched)
    (hs : ∀ m ∈ trace, m.Proper topics start settings faults) :
    Works t.world.fs d name src i := by
  have h := (execution_keeps installed_stable run hi fun m hm fpath dst answer hh hk => by
    refine ⟨fun hacc hskip x n _ hl _ _ => ?_, fun _ _ _ _ => trivial⟩
    exact hk.remove ((((hs m hm).handles fpath dst answer hh).overwritten hacc hskip x n hl).link
      d name hk.touched)).2
  exact ⟨h.link, h.leads.reach⟩

end

/-- In a run that keeps to the condition every link that is made works. -/
theorem links_work {settings : Settings} {faults : ℕ → Fault} {s t : State} {trace : List Moment}
    (hlink : settings.useSymlink = true) (run : Execution settings faults s trace t)
    (hftw : Delivers s.pending s.world.fs trace)
    (hs : ∀ m ∈ trace, m.Proper s.pending s.world.fs settings faults) :
    LinksWork s.pending s.world.fs settings trace t.world.fs := by
  intro root names i data mode hsource
  obtain ⟨hkept, hfinal⟩ := run_kept hlink run hs
  refine ⟨(hfinal _ _ _ _ _ hsource).2, ?_, ?_⟩
  · obtain ⟨topic, htopic, hroot⟩ := hsource.topic
    obtain ⟨m, hm, fpath, stale, answer, ha, hi⟩ := hftw topic htopic root names i data mode hroot
      hsource.isDir fun m hm => ⟨run_topic run hs htopic hroot m hm, hkept m hm _ _ _ _ _ hsource⟩
    have he := run.enabled hm
    rw [ha] at he
    obtain ⟨-, -, walked, _, hwalked, -⟩ := he
    obtain ⟨dst, hdst⟩ := (hs m hm).fits walked fpath stale .file answer hwalked ha
    exact ⟨m, hm, fpath, dst, answer, ⟨walked, stale, hwalked, ha, hdst⟩, hi⟩
  · intro m hm fpath dst answer hh hi hnew
    obtain ⟨hl, hf⟩ := ((hs m hm).handles fpath dst answer hh).linkable hnew i data mode hi
      (hkept m hm _ _ _ _ _ hsource).2
    obtain ⟨topic, stale, ht, ha, hdst⟩ := hh
    obtain ⟨d, name, before, hloc, hinst⟩ :=
      installHandle_installed stale answer hlink hdst hl hf
    obtain ⟨after, hsub, hafter⟩ := run.rest hm
    have hmade : Installed before d name fpath i
        (next settings faults m.before m.action).world.fs
        (next settings faults m.before m.action).world.touched := by
      rw [ha, next, ht]
      exact hinst
    exact ⟨d, name, hloc, run_installed hafter hmade fun m' hm' => hs m' (hsub m' hm')⟩

/-- `t` is the topic. -/
def linking (base : Path) : Settings := ⟨.force, true, base⟩

theorem sample_delivers : Delivers [ascii "t"] sample visits := by
  intro topic _ root names i data mode _ _ h
  have hi : sample.nodes i = some (.file data mode) :=
    (h ⟨begun, .installTopic⟩ (by simp [visits])).2.2
  have h2 : i = 2 := by
    have hfour (n : ℕ) (hn : n < 4) : n = 0 ∨ n = 1 ∨ n = 2 ∨ n = 3 := by omega
    rcases hfour i (List.getElem?_eq_some_iff.mp hi).1 with rfl | rfl | rfl | rfl
    · cases hi
    · cases hi
    · rfl
    · cases hi
  refine ⟨⟨walking 2, .installHandle (ascii "t/f") [] .file none⟩, by simp [visits],
    _, _, _, rfl, ?_⟩
  rw [h2]
  exact sample_file

/-- `mkdot -s t /`, in `/`. -/
theorem links_work_root : LinksWork begun.pending begun.world.fs (linking (ascii "/")) visits
    (visited (linking (ascii "/"))).world.fs := by
  have hroot : targetDst (linking (ascii "/")).base (ascii "t").length (ascii "t" ++ 0 :: []) =
      .ok (ascii "//") := by decide
  have hrun := visits_run (linking (ascii "/")) hroot rfl
  refine links_work rfl hrun sample_delivers ?_
  apply visits_forall
  · constructor
    · intro _ _ _ _ _ ht
      cases ht
    · rintro _ _ _ ⟨_, _, ht, _⟩
      cases ht
  · constructor
    · intro _ _ _ _ _ ht ha
      cases ht
      cases ha
      exact ⟨_, hroot⟩
    · rintro _ _ _ ⟨_, _, _, ha, _⟩
      cases ha
  · have hfile : targetDst (linking (ascii "/")).base (ascii "t").length (ascii "t/f" ++ 0 :: []) =
        .ok (ascii "//f") := by decide
    have hloc : sample.locate (ascii "//f") = some (0, ascii "f") :=
      sample_locate (by decide) rfl rfl
    constructor
    · intro _ _ _ _ _ ht ha
      cases ht
      cases ha
      exact ⟨_, hfile⟩
    · rintro _ dst _ ⟨_, _, ht, ha, hdst⟩
      cases ht
      cases ha
      obtain rfl : ascii "//f" = dst := Except.ok.inj (hfile.symm.trans hdst)
      constructor
      · rintro ⟨-, hthere⟩
        change (sample.stat (ascii "//f")).isSome at hthere
        rw [stat_of_free hloc (by decide) rfl] at hthere
        cases hthere
      · intro _ i _ _ hi _
        obtain rfl : 2 = i := Option.some.inj (sample_file.symm.trans hi)
        exact ⟨⟨0, ascii "f", 39, hloc, rfl, by decide, rfl, sample_reach 39⟩, nofun⟩

/-- `mkdot -s t b`, in `/`. -/
theorem link_dangles : ¬ ∀ (settings : Settings) (faults : ℕ → Fault) (topics : List Path)
    (s t : State) (trace : List Moment), settings.useSymlink = true →
    (∀ topic ∈ topics, isAbs topic = false) → Initial settings topics s →
    Execution settings faults s trace t → t.pending = [] → Delivers s.pending s.world.fs trace →
      LinksWork s.pending s.world.fs settings trace t.world.fs := by
  intro h
  have hname : EntryName (ascii "b") := ⟨by decide, by decide, by decide, by decide, by decide⟩
  have hinit : Initial (linking (ascii "/b")) [ascii "t"] begun :=
    begun_initial [ascii "b"] rfl (by simpa using hname) rfl rfl
  have hroot : targetDst (linking (ascii "/b")).base (ascii "t").length (ascii "t" ++ 0 :: []) =
      .ok (ascii "/b/") := by decide
  have hfile : targetDst (linking (ascii "/b")).base (ascii "t").length (ascii "t/f" ++ 0 :: []) =
      .ok (ascii "/b/f") := by decide
  have hbase : sample.locate (ascii "/b/") = some (0, ascii "b") :=
    sample_locate (by decide) rfl rfl
  have hrun := visits_run (linking (ascii "/b")) hroot (mkdir_taken hbase rfl)
  have hwork := h _ _ _ _ _ _ rfl (by decide) hinit hrun rfl sample_delivers
  obtain ⟨d, name, hd, hworks⟩ := (hwork _ _ _ _ _ sample_source).2.2
    ⟨walking 2, .installHandle (ascii "t/f") [] .file none⟩ (by simp [visits]) _ _ _
    ⟨_, _, rfl, rfl, hfile⟩ sample_file (stat_of_free sample_inner (by decide) rfl)
  obtain ⟨rfl, rfl⟩ := Prod.mk.inj (Option.some.inj (sample_inner.symm.trans hd))
  have hfinal : (visited (linking (ascii "/b"))).world.fs =
      sample.link 3 (ascii "f") (.symlink (ascii "t/f")) := by
    have hlinked : ((installHandle (fun _ => .none) (linking (ascii "/b")) (ascii "t").length
        (ascii "t/f") [] .file none).from (walking 2).world).2 = _ :=
      installHandle_linked rfl hfile sample_inner rfl (by decide) (by decide) (by simp)
    exact congrArg World.fs hlinked
  have hlead := hworks.leads
  rw [hfinal] at hlead
  -- from `/b` there is no `t`
  change (FileSystem.lookup _ (39 + 1) 3 [ascii "f"]).bind _ = some 2 at hlead
  rw [lookup_symlink (i := 4) rfl rfl] at hlead
  change (FileSystem.lookup _ 39 3 [ascii "t", ascii "f"]).bind _ = some 2 at hlead
  have hnone : (sample.link 3 (ascii "f") (.symlink (ascii "t/f"))).entry 3 (ascii "t") = none :=
    rfl
  rw [FileSystem.lookup, hnone] at hlead
  cases hlead

end Mkdot
