import Overthinkin.MkdotHandler

/-! What becomes of the files that are installed. The handler unlinks a destination before it opens
the source, and a destination can be a file of a topic. -/
namespace Mkdot

open AsciiText PosixFileSystem PosixCalls StatefulCall

/-- A regular file in the tree of a topic, under the names that lead to it. -/
structure Source (fs : FileSystem) (topics : List Path) (root : Inode) (names : List Name)
    (i : Inode) (data : List UInt8) (mode : ℕ) : Prop where
  topic : ∃ topic ∈ topics, fs.stat topic = some root
  isDir : fs.isDir root = true
  descend : fs.descend root names = some i
  file : fs.nodes i = some (.file data mode)

section
variable (topics : List Path) (before : FileSystem)

/-- Every file that was in a topic is there, with its content. -/
def Kept (fs : FileSystem) : Prop :=
  ∀ root names i data mode, Source before topics root names i data mode →
    fs.descend root names = some i ∧ fs.nodes i = some (.file data mode)

/-- The last entry on the way to a file that was in a topic. -/
def SourceEntry (fs : FileSystem) (d : Inode) (name : Name) : Prop :=
  ∃ root names i data mode, Source before topics root (names ++ [name]) i data mode ∧
    fs.descend root names = some d

def SourceInode (i : Inode) : Prop :=
  ∃ root names data mode, Source before topics root names i data mode

variable (settings : Settings) (faults : ℕ → Fault)

/-- A destination that is overwritten is no file of a topic, and a copy does not open one either, in
place of a destination that `access` did not find. -/
structure Spares (w : World) (dst : Path) (answer : Option UInt8) : Prop where
  unlinked : Accessible faults w dst → skips settings.mode answer = false →
    ∀ d name, w.fs.locate dst = some (d, name) → ¬ SourceEntry topics before w.fs d name
  truncated : ¬ Accessible faults w dst → settings.useSymlink = false →
    ∀ i, w.fs.stat dst = some i → ¬ SourceInode topics before i

/-- The destination of a path fits in the buffer, and files of topics are spared. -/
def Moment.Spares (m : Moment) : Prop :=
  m.InBounds settings ∧ ∀ fpath dst answer, m.Handles settings fpath dst answer →
    Mkdot.Spares topics before settings faults m.before.world dst answer

end

section
variable {topics : List Path} {before fs : FileSystem}

theorem kept_initial : Kept topics before before := fun _ _ _ _ _ h => ⟨h.descend, h.file⟩

theorem Kept.link (h : Kept topics before fs) {d : Inode} {name : Name}
    (he : fs.entry d name = none) (node : Node) : Kept topics before (fs.link d name node) := by
  intro root names i data mode hs
  obtain ⟨hp, hi⟩ := h root names i data mode hs
  refine ⟨(grows_link he node).descend hp, ?_⟩
  obtain ⟨_, hi', rfl | ⟨_, _, _, hd, -⟩⟩ := nodes_link d name node hi
  · exact hi'
  · cases hd

theorem Kept.setFile (h : Kept topics before fs) {j : Inode} (hj : ¬ SourceInode topics before j)
    {change : List UInt8 → ℕ → Node}
    (hc : ∀ data mode, ∃ data' mode', change data mode = .file data' mode') :
    Kept topics before (fs.setFile j change) := by
  intro root names i data mode hs
  obtain ⟨hp, hi⟩ := h root names i data mode hs
  have hne : i ≠ j := by
    rintro rfl
    exact hj ⟨root, names, data, mode, hs⟩
  refine ⟨by rw [descend_setFile hc, hp], ?_⟩
  simp only [FileSystem.setFile, hi, if_neg hne]

theorem Kept.remove (h : Kept topics before fs) {d j : Inode} {name : Name}
    (hj : fs.child d name = some j) (hl : fs.isDir j = false)
    (hn : ¬ SourceEntry topics before fs d name) : Kept topics before (fs.remove d name) := by
  intro root names i data mode hs
  obtain ⟨hp, hi⟩ := h root names i data mode hs
  constructor
  · apply descend_remove hj hl hp
    rintro q rfl hq
    exact hn ⟨root, q, i, data, mode, hs, hq⟩
  · obtain ⟨node', hi', -, hsame⟩ := nodes_remove d name hi
    rw [hi', hsame nofun]

/-- A new node is no file of a topic. -/
theorem Kept.next (h : Kept topics before fs) : ¬ SourceInode topics before fs.next := by
  rintro ⟨root, names, data, mode, hs⟩
  have hi := (h root names _ data mode hs).2
  rw [fs.fresh _ (Nat.le_refl _)] at hi
  cases hi

/-- New entries, and writes to other files, keep the files of the topics. -/
theorem kept_stable : Stable (fun fs _ => Kept topics before fs)
    (fun i => ¬ SourceInode topics before i) where
  link node _ h he := h.link he node
  next h := h.next
  write _ _ h hj hc := h.setFile hj hc

theorem Spares.allows {settings : Settings} {faults : ℕ → Fault} {w : World} {dst : Path}
    {answer : Option UInt8} (h : Spares topics before settings faults w dst answer)
    (hk : Kept topics before w.fs) :
    Allows settings faults (fun fs _ => Kept topics before fs)
      (fun i => ¬ SourceInode topics before i) w dst answer where
  unlinked hacc hskip d name _ hl hj hleaf := hk.remove hj hleaf (h.unlinked hacc hskip d name hl)
  truncated := h.truncated

end

/-- No file of a topic is lost in a run that overwrites none. -/
theorem sources_kept {settings : Settings} {faults : ℕ → Fault} {s t : State} {trace : List Moment}
    (run : Execution settings faults s trace t)
    (hs : ∀ m ∈ trace, m.Spares s.pending s.world.fs settings faults) :
    Kept s.pending s.world.fs t.world.fs := by
  refine (execution_keeps kept_stable run kept_initial fun m hm fpath dst answer hh hk => ?_).2
  exact ((hs m hm).2 fpath dst answer hh).allows hk

/-- A file that is gone before it is opened is not installed. -/
theorem installHandle_gone {settings : Settings} {w : World} {topicPrefix : ℕ} {fpath dst : Path}
    {stale : List UInt8} {answer : Option UInt8} {e : Effect Unit}
    (hmode : settings.mode = .force) (hlink : settings.useSymlink = false)
    (hdst : targetDst settings.base topicPrefix (fpath ++ 0 :: stale) = .ok dst)
    (hs : (w.fs.stat dst).isSome) (hu : w.fs.unlink dst = .ok e) (hsrc : e.fs.stat fpath = none) :
    ((installHandle (fun _ => .none) settings topicPrefix fpath stale .file answer).from w).2.fs =
      e.fs := by
  obtain ⟨i, hi⟩ := Option.isSome_iff_exists.mp hs
  have ha : (access (fun _ => .none) dst).from w = (.ok (), w.after ⟨(), w.fs, []⟩) := by
    rw [access, syscall, from_ofStep, hi]
  have hun : (unlink (fun _ => .none) dst).from (w.after ⟨(), w.fs, []⟩) =
      (.ok (), (w.after ⟨(), w.fs, []⟩).after e) := by
    have hfs : (w.after ⟨(), w.fs, []⟩).fs = w.fs := rfl
    rw [unlink, syscall, from_ofStep, hfs, hu]
  have ho : ∀ w' : World, w'.fs = e.fs →
      (copyFile (fun _ => .none) fpath dst).from w' = (.error .other, w'.unchanged) := by
    intro w' hw'
    rw [copyFile, from_bind, openRead, syscall, from_ofStep, hw', openRead_none hsrc]
  have hskip : skips settings.mode answer = false := by rw [hmode]; rfl
  rw [installHandle, from_bind, from_lift, hdst]
  dsimp only
  rw [from_bind, from_attempt, ha]
  dsimp only
  rw [hskip, if_neg Bool.false_ne_true, from_bind, from_attempt, hun]
  dsimp only
  rw [install, hlink, if_neg Bool.false_ne_true, from_bind, from_attempt, ho _ rfl]
  rfl

/-! ### A run -/

/-- `/t` holds the file `f`, `/b` is empty, and `/` is the current directory. -/
def sample : FileSystem where
  nodes i := [.dir 0 [(ascii "t", 1), (ascii "b", 3)], .dir 0 [(ascii "f", 2)],
    .file (ascii "h") 0o644, .dir 0 []][i]?
  next := 4
  root := 0
  cwd := 0
  maxLinks := 40
  fresh _ h := List.getElem?_eq_none h

def begun : State := ⟨⟨sample, [], 0⟩, [ascii "t"], none, false⟩

def walking (calls : ℕ) : State := ⟨⟨sample, [], calls⟩, [], some (ascii "t"), false⟩

/-- The topic `t`, its directory and its file, as `ftw` has them. -/
def visits : List Moment :=
  [⟨begun, .installTopic⟩, ⟨walking 1, .installHandle (ascii "t") [] .directory none⟩,
    ⟨walking 2, .installHandle (ascii "t/f") [] .file none⟩]

/-- The state after these visits. -/
def visited (settings : Settings) : State :=
  next settings (fun _ => .none) (walking 2) (.installHandle (ascii "t/f") [] .file none)

theorem sample_topic : sample.stat (ascii "t") = some 1 := by
  change (sample.lookup 40 0 [ascii "t"]).bind _ = some 1
  rw [lookup_dir (i := 1) rfl rfl]
  rfl

theorem sample_reach (links : ℕ) : sample.reach links 0 [ascii "t", ascii "f"] = some 2 := by
  rw [FileSystem.reach, lookup_dir (i := 1) rfl rfl, if_neg (by decide),
    lookup_file (i := 2) rfl rfl]
  rfl

theorem sample_file : sample.stat (ascii "t/f") = some 2 := sample_reach 40

theorem sample_source : Source sample [ascii "t"] 1 [ascii "f"] 2 (ascii "h") 0o644 :=
  ⟨⟨ascii "t", by decide, sample_topic⟩, rfl, rfl, rfl⟩

theorem sample_locate {path : Path} {d : Inode} {name : Name} (hp : components path = [name])
    (hs : sample.start path = 0) (hd : d = 0) : sample.locate path = some (d, name) := by
  subst hd
  refine locate_eq_some.mpr ⟨[], hp, ?_⟩
  rw [hs, FileSystem.walk]
  rfl

theorem sample_target {path : Path} (hp : components path = [ascii "t", ascii "f"])
    (hs : sample.start path = 0) : sample.locate path = some (1, ascii "f") := by
  refine locate_eq_some.mpr ⟨[ascii "t"], hp, ?_⟩
  rw [hs, walk_dir (i := 1) rfl rfl, FileSystem.walk]
  rfl

theorem sample_inner : sample.locate (ascii "/b/f") = some (3, ascii "f") := by
  refine locate_eq_some.mpr ⟨[ascii "b"], by decide, ?_⟩
  change sample.walk 40 0 [ascii "b"] = some 3
  rw [walk_dir (i := 3) rfl rfl, FileSystem.walk]
  rfl

theorem visits_run (settings : Settings) {dst : Path}
    (hdst : targetDst settings.base (ascii "t").length (ascii "t" ++ 0 :: []) = .ok dst)
    (hm : sample.mkdir dst = .error .alreadyExists) :
    Execution settings (fun _ => .none) begun visits (visited settings) := by
  have hname : EntryName (ascii "f") := ⟨by decide, by decide, by decide, by decide, by decide⟩
  refine .cons ⟨rfl, by decide⟩ ?_
  rw [begun, next_installTopic sample_topic rfl]
  refine .cons ⟨rfl, ⟨1, sample_topic, rfl⟩, ascii "t", [], rfl, by simp, by decide⟩ ?_
  rw [next_directory hdst hm]
  refine .cons ⟨rfl, ⟨2, sample_file, rfl⟩, ascii "t", [ascii "f"], rfl, by simpa using hname,
    by decide⟩ ?_
  exact .nil _

/-- What is to be shown of each visit. -/
theorem visits_forall {P : Moment → Prop}
    (h₀ : P ⟨begun, .installTopic⟩)
    (h₁ : P ⟨walking 1, .installHandle (ascii "t") [] .directory none⟩)
    (h₂ : P ⟨walking 2, .installHandle (ascii "t/f") [] .file none⟩) : ∀ m ∈ visits, P m := by
  intro m hm
  simp only [visits, List.mem_cons, List.not_mem_nil, or_false] at hm
  rcases hm with rfl | rfl | rfl
  · exact h₀
  · exact h₁
  · exact h₂

/-- `t` is topic and base. -/
def ontoItself (mode : Mode) : Settings := ⟨mode, false, ascii "/t"⟩

theorem ontoItself_run (mode : Mode) :
    Execution (ontoItself mode) (fun _ => .none) begun visits (visited (ontoItself mode)) := by
  have hdst : targetDst (ontoItself mode).base (ascii "t").length (ascii "t" ++ 0 :: []) =
      .ok (ascii "/t/") := by cases mode <;> decide
  have hbase : sample.locate (ascii "/t/") = some (0, ascii "t") :=
    sample_locate (by decide) rfl rfl
  exact visits_run _ hdst (mkdir_taken hbase rfl)

theorem begun_initial {settings : Settings} (names : List Name) {i : Inode}
    (hbase : settings.base = if names = [] then [separator] else names.flatMap (separator :: ·))
    (hnames : ∀ name ∈ names, EntryName name) (hi : sample.descend 0 names = some i)
    (hd : sample.isDir i = true) : Initial settings [ascii "t"] begun :=
  ⟨rfl, rfl, rfl, rfl, ⟨names, i, hbase, hnames, hi, hd⟩, by decide⟩

/-- `mkdot -n t t`. -/
theorem sources_kept_skip :
    Kept begun.pending begun.world.fs (visited (ontoItself .skip)).world.fs := by
  apply sources_kept (ontoItself_run .skip)
  apply visits_forall
  · constructor
    · intro _ _ _ _ _ ht
      cases ht
    · rintro _ _ _ ⟨_, _, ht, _⟩
      cases ht
  · constructor
    · intro _ _ _ _ _ ht ha
      cases ht
      cases ha
      decide
    · rintro _ _ _ ⟨_, _, _, ha, _⟩
      cases ha
  · constructor
    · intro _ _ _ _ _ ht ha
      cases ht
      cases ha
      decide
    · rintro _ dst _ ⟨_, _, ht, ha, hdst⟩
      cases ht
      cases ha
      obtain rfl : ascii "/t/f" = dst := Except.ok.inj hdst
      refine ⟨fun _ h => (by cases h), fun h => (h ⟨rfl, ?_⟩).elim⟩
      exact Option.isSome_iff_exists.mpr ⟨2, sample_reach 40⟩

/-- `mkdot t t`. -/
theorem source_destroyed : ¬ ∀ (settings : Settings) (faults : ℕ → Fault) (topics : List Path)
    (s t : State) (trace : List Moment), Initial settings topics s →
    Execution settings faults s trace t → t.pending = [] →
      Kept s.pending s.world.fs t.world.fs := by
  intro h
  have hname : EntryName (ascii "t") := ⟨by decide, by decide, by decide, by decide, by decide⟩
  have hinit : Initial (ontoItself .force) [ascii "t"] begun :=
    begun_initial [ascii "t"] rfl (by simpa using hname) rfl rfl
  have hgone := (h _ _ _ _ _ _ hinit (ontoItself_run .force) rfl _ _ _ _ _ sample_source).1
  change ((installHandle (fun _ => .none) (ontoItself .force) 1 (ascii "t/f") [] .file none).from
    ⟨sample, [], 2⟩).2.fs.descend 1 [ascii "f"] = some 2 at hgone
  have hdst : targetDst (ontoItself .force).base 1 (ascii "t/f" ++ 0 :: []) =
      .ok (ascii "/t/f") := by decide
  have hthere : (sample.stat (ascii "/t/f")).isSome :=
    Option.isSome_iff_exists.mpr ⟨2, sample_reach 40⟩
  have hunlink : sample.unlink (ascii "/t/f") = .ok ⟨(), sample.remove 1 (ascii "f"), []⟩ := by
    rw [FileSystem.unlink, sample_target (by decide) rfl]
    rfl
  have hsrc : (sample.remove 1 (ascii "f")).stat (ascii "t/f") = none :=
    stat_remove (sample_target (by decide) rfl) (by decide) (by decide) (by decide)
  rw [installHandle_gone rfl rfl hdst hthere hunlink hsrc] at hgone
  cases hgone

end Mkdot
