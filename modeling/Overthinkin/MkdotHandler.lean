import Overthinkin.Mkdot

/-! What the handler does to the file system: it makes entries, writes to files that it opened, and
removes at most the entry of a destination. Whatever survives these survives a run. -/
namespace Mkdot

open PosixFileSystem PosixCalls StatefulCall

/-- What new entries, and writes to the files in `J`, do not break. -/
structure Stable (I : FileSystem → List Touch → Prop) (J : Inode → Prop) : Prop where
  link : ∀ {fs touched d name} (node : Node) (t : Touch), I fs touched → fs.entry d name = none →
    I (fs.link d name node) (touched ++ [t])
  next : ∀ {fs touched}, I fs touched → J fs.next
  write : ∀ {fs touched j} (change : List UInt8 → ℕ → Node) (t : Touch), I fs touched → J j →
    (∀ data mode, ∃ data' mode', change data mode = .file data' mode') →
    I (fs.setFile j change) (touched ++ [t])

/-- What writes to the files in `J` do not break. -/
structure Writable (I : FileSystem → List Touch → Prop) (J : Inode → Prop) : Prop where
  write : ∀ {fs touched j} (change : List UInt8 → ℕ → Node) (t : Touch), I fs touched → J j →
    (∀ data mode, ∃ data' mode', change data mode = .file data' mode') →
    I (fs.setFile j change) (touched ++ [t])

variable {I : FileSystem → List Touch → Prop} {J : Inode → Prop} {faults : ℕ → Fault}
  {settings : Settings} {src dst : Path}

/-! ### What is written to an open file -/

section
variable {srcFd fd : Handle} (hfd : J fd.inode) (hwrite : Writable I J)
include hfd hwrite

theorem write_keeps (data : List UInt8) : Triple (fun w => I w.fs w.touched)
    (write faults fd data) (fun _ w => I w.fs w.touched) (fun w => I w.fs w.touched) := by
  apply syscall_rule
  · exact fun _ hw => hw
  · intro w e hw he
    cases he
    have hw' := hwrite.write (fun old mode => .file (old ++ data) mode) ⟨.file, fd.dir, fd.name⟩ hw
      hfd fun _ _ => ⟨_, _, rfl⟩
    exact ⟨hw', hw'⟩

theorem fchmod_keeps (mode : ℕ) : Triple (fun w => I w.fs w.touched)
    (fchmod faults fd mode) (fun _ w => I w.fs w.touched) (fun w => I w.fs w.touched) := by
  apply syscall_rule
  · exact fun _ hw => hw
  · intro w e hw he
    cases he
    have hw' := hwrite.write (fun data _ => .file data mode) ⟨.mode, fd.dir, fd.name⟩ hw hfd
      fun _ _ => ⟨_, _, rfl⟩
    exact ⟨hw', hw'⟩

theorem writeLoop_keeps (data : List UInt8) : Triple (fun w => I w.fs w.touched)
    (writeLoop faults fd data) (fun _ w => I w.fs w.touched) (fun w => I w.fs w.touched) := by
  induction data with
  | nil => exact Triple.pure fun _ h => h
  | cons byte rest ih => exact Triple.bind (write_keeps hfd hwrite [byte]) fun _ => ih

theorem copyLoop_keeps (chunks : List (List UInt8)) : Triple (fun w => I w.fs w.touched)
    (copyLoop faults srcFd fd chunks) (fun _ w => I w.fs w.touched)
    (fun w => I w.fs w.touched) := by
  induction chunks with
  | nil => exact read_silent I srcFd
  | cons chunk rest ih =>
    exact Triple.bind (read_silent I srcFd) fun _ =>
      Triple.bind (writeLoop_keeps hfd hwrite chunk) fun _ => ih

end

/-! ### Calls that make entries -/

section
variable (hst : Stable I J)
include hst

theorem mkdir_keeps : Triple (fun w => I w.fs w.touched) (mkdir faults dst)
    (fun _ w => I w.fs w.touched) (fun w => I w.fs w.touched) := by
  apply syscall_rule
  · exact fun _ hw => hw
  · intro w e hw he
    obtain ⟨d, name, -, hfree, rfl⟩ := mkdir_eq_ok.mp he
    exact ⟨hst.link _ _ hw hfree, hst.link _ _ hw hfree⟩

theorem linkFile_keeps : Triple (fun w => I w.fs w.touched) (linkFile faults src dst)
    (fun _ w => I w.fs w.touched) (fun w => I w.fs w.touched) := by
  unfold linkFile
  apply syscall_rule
  · exact fun _ hw => hw
  · intro w e hw he
    obtain ⟨d, name, -, hfree, -, -, rfl⟩ := symlink_eq_ok.mp he
    exact ⟨hst.link _ _ hw hfree, hst.link _ _ hw hfree⟩

/-- A destination that a copy may open for writing: what it leads to is in `J`. -/
theorem openTrunc_keeps (mode : ℕ) :
    Triple (fun w => I w.fs w.touched ∧ ∀ i, w.fs.stat dst = some i → J i)
      (openTrunc faults dst mode) (fun fd w => J fd.inode ∧ I w.fs w.touched)
      (fun w => I w.fs w.touched) := by
  apply syscall_rule
  · exact fun _ hw => hw.1
  · rintro w e ⟨hw, hdst⟩ he
    rcases openTrunc_eq_ok he with ⟨d, name, -, hfree, rfl⟩ | ⟨d, name, i, hi, rfl⟩
    · have hw' := hst.link (.file [] mode) ⟨.file, d, name⟩ hw hfree
      exact ⟨⟨hst.next hw, hw'⟩, hw'⟩
    · have hw' := hst.write (fun _ mode => .file [] mode) ⟨.file, d, name⟩ hw (hdst i hi)
        fun _ _ => ⟨_, _, rfl⟩
      exact ⟨⟨hdst i hi, hw'⟩, hw'⟩

theorem copyFile_keeps :
    Triple (fun w => I w.fs w.touched ∧ ∀ i, w.fs.stat dst = some i → J i)
      (copyFile faults src dst) (fun _ w => I w.fs w.touched) (fun w => I w.fs w.touched) := by
  let opens : FileSystem → List Touch → Prop := fun fs touched =>
    I fs touched ∧ ∀ i, fs.stat dst = some i → J i
  have hkept : ∀ w : World, opens w.fs w.touched → I w.fs w.touched := fun _ h => h.1
  rw [copyFile]
  refine Triple.bind ((openRead_silent opens src).onError hkept) fun srcFd => ?_
  refine Triple.bind ((fstat_silent opens srcFd).onError hkept) fun node => ?_
  refine Triple.bind (openTrunc_keeps hst _) fun fd => Triple.assuming fun hfd => ?_
  refine Triple.bind (contents_silent I srcFd) fun data => ?_
  have hwrite : Writable I J := ⟨hst.write⟩
  exact Triple.bind (copyLoop_keeps hfd hwrite _) fun _ => fchmod_keeps hfd hwrite _

theorem install_keeps {E : World → Prop} :
    Triple (fun w => I w.fs w.touched ∧
        (settings.useSymlink = false → ∀ i, w.fs.stat dst = some i → J i))
      (install faults settings src dst) (fun _ w => I w.fs w.touched) E := by
  unfold install
  cases hs : settings.useSymlink with
  | true =>
    refine Triple.bind (Q := fun _ w => I w.fs w.touched) ?_ fun _ => Triple.pure fun _ h => h
    refine (Triple.attempt (linkFile_keeps hst)).mono (fun _ h => h.1) ?_ fun _ h => h
    intro r w hw
    cases r <;> exact hw
  | false =>
    refine Triple.bind (Q := fun _ w => I w.fs w.touched) ?_ fun _ => Triple.pure fun _ h => h
    refine (Triple.attempt (copyFile_keeps hst)).mono (fun _ h => ⟨h.1, h.2 rfl⟩) ?_ fun _ h => h
    intro r w hw
    cases r <;> exact hw

end

/-! ### One call -/

/-- The removal of a destination that is overwritten does not break `I`, and a copy opens no file
outside `J` in place of a destination that `access` did not find. -/
structure Allows (settings : Settings) (faults : ℕ → Fault) (I : FileSystem → List Touch → Prop)
    (J : Inode → Prop) (w : World) (dst : Path) (answer : Option UInt8) : Prop where
  unlinked : Accessible faults w dst → skips settings.mode answer = false → ∀ d name j,
    w.fs.locate dst = some (d, name) → w.fs.child d name = some j → w.fs.isDir j = false →
    I (w.fs.remove d name) w.touched
  truncated : ¬ Accessible faults w dst → settings.useSymlink = false →
    ∀ i, w.fs.stat dst = some i → J i

variable {w : World} {answer : Option UInt8}

theorem unlink_keeps (hw : I w.fs w.touched)
    (hr : ∀ d name j, w.fs.locate dst = some (d, name) → w.fs.child d name = some j →
      w.fs.isDir j = false → I (w.fs.remove d name) w.touched) :
    Triple (fun w' => w'.fs = w.fs ∧ w'.touched = w.touched) (unlink faults dst)
      (fun _ w' => I w'.fs w'.touched ∧ w'.fs.stat dst = none)
      (fun w' => I w'.fs w'.touched) := by
  apply syscall_rule
  · rintro w' ⟨hfs, htouched⟩
    exact hfs ▸ htouched ▸ hw
  · rintro w' e ⟨hfs, htouched⟩ he
    rw [hfs] at he
    obtain ⟨d, name, j, hl, ht, h₁, h₂, hj, hleaf, rfl⟩ := unlink_eq_ok he
    have hw' : I (w'.after ⟨(), w.fs.remove d name, []⟩).fs
        (w'.after ⟨(), w.fs.remove d name, []⟩).touched := by
      rw [World.after, htouched, List.append_nil]
      exact hr d name j hl hj hleaf
    exact ⟨⟨hw', stat_remove hl ht h₁ h₂⟩, hw'⟩

theorem installHandle_keeps (hst : Stable I J) (hw : I w.fs w.touched) (topicPrefix : ℕ)
    (fpath : Path) (stale : List UInt8) (typeflag : TypeFlag)
    (hs : ∀ dst, targetDst settings.base topicPrefix (fpath ++ 0 :: stale) = .ok dst →
      typeflag = .file → Allows settings faults I J w dst answer) :
    Triple (· = w) (installHandle faults settings topicPrefix fpath stale typeflag answer)
      (fun _ w' => I w'.fs w'.touched) (fun w' => I w'.fs w'.touched) := by
  have hret : ∀ {P : World → Prop}, (∀ w', P w' → I w'.fs w'.touched) →
      Triple P (pure () : Call World Crash Unit) (fun _ w' => I w'.fs w'.touched)
        (fun w' => I w'.fs w'.touched) := fun h => Triple.pure h
  rw [installHandle]
  refine Triple.bind (Q := fun dst w' =>
    targetDst settings.base topicPrefix (fpath ++ 0 :: stale) = .ok dst ∧ w' = w)
    (Triple.lift (fun _ _ hd hw => ⟨hd, hw⟩) fun _ _ _ he => he ▸ hw) fun dst =>
      Triple.assuming fun hdst => ?_
  cases typeflag with
  | directory =>
    refine Triple.bind (Q := fun _ w' => I w'.fs w'.touched) ?_ fun _ => hret fun _ h => h
    rw [ensureDir]
    refine Triple.bind ((Triple.attempt (mkdir_keeps hst)).pre fun w' hw' => hw' ▸ hw) ?_
    rintro ((_ | _) | _) <;> exact Triple.pure fun _ h => h
  | file =>
    have ha := hs dst hdst rfl
    refine Triple.bind (Triple.attempt (access_spec w dst)) ?_
    rintro (_ | _)
    · refine (install_keeps hst).pre ?_
      rintro w' ⟨⟨hfs, htouched⟩, hacc⟩
      rw [hfs, htouched]
      exact ⟨hw, ha.truncated hacc⟩
    · dsimp only
      split
      · exact hret fun w' hw' => hw'.1.1 ▸ hw'.1.2 ▸ hw
      · rename_i hskip
        refine Triple.fixed fun w₁ hw₁ => ?_
        have hr := ha.unlinked hw₁.2 (Bool.eq_false_iff.mpr hskip)
        refine Triple.bind (Triple.attempt ((unlink_keeps hw hr).pre ?_)) ?_
        · rintro _ rfl
          exact hw₁.1
        · rintro (_ | _)
          · exact hret fun _ h => h
          · -- nothing is left that a copy could open
            refine (install_keeps hst).pre fun w' h => ⟨h.1, fun _ i hi => ?_⟩
            rw [h.2] at hi
            cases hi
  | unreadable => exact hret fun w' hw' => hw' ▸ hw
  | unstatable => exact hret fun w' hw' => hw' ▸ hw

/-- Without a destination the handler goes on to install the file. -/
theorem installHandle_unfound (settings : Settings) {topicPrefix : ℕ} {fpath : Path}
    {stale : List UInt8} (answer : Option UInt8)
    (hdst : targetDst settings.base topicPrefix (fpath ++ 0 :: stale) = .ok dst)
    (hs : w.fs.stat dst = none) :
    ((installHandle faults settings topicPrefix fpath stale .file answer).from w).2 =
      ((install faults settings fpath dst).from w.unchanged).2 := by
  have ha : (access faults dst).from w = (.error .other, w.unchanged) := by
    rw [access, syscall, from_ofStep, hs]
    cases faults w.calls <;> rfl
  rw [installHandle, from_bind, from_lift, hdst]
  dsimp only
  rw [from_bind, from_attempt, ha]

/-! ### Whole runs -/

theorem installTopic_silent (I : FileSystem → List Touch → Prop) (name : Path) :
    Triple (fun w => I w.fs w.touched) (installTopic faults name) (fun _ w => I w.fs w.touched)
      (fun w => I w.fs w.touched) := by
  rw [installTopic]
  refine Triple.bind (Triple.attempt (stat_silent I name)) ?_
  rintro (_ | node)
  · exact Triple.pure fun _ h => h
  · cases node <;> exact Triple.pure fun _ h => h

section
variable {topic : Path} {rest : List Path} {d : Inode} {fpath : Path} {stale : List UInt8}

theorem next_installTopic {fs : FileSystem} {touched : List Touch} {calls : ℕ} {old : Option Path}
    (hs : fs.stat topic = some d) (hd : fs.isDir d = true) :
    next settings (fun _ => .none) ⟨⟨fs, touched, calls⟩, topic :: rest, old, false⟩ .installTopic =
      ⟨⟨fs, touched, calls + 1⟩, rest, some topic, false⟩ := by
  obtain ⟨parent, entries, hn⟩ := isDir_iff.mp hd
  have h : (installTopic (fun _ => .none) topic).from ⟨fs, touched, calls⟩ =
      (.ok true, ⟨fs, touched ++ [], calls + 1⟩) := by
    rw [installTopic, from_bind, from_attempt, PosixCalls.stat, syscall, from_ofStep]
    simp only [hs, Option.bind_some, hn]
    rfl
  simp only [next, h, List.append_nil]

/-- A directory that is there is left as it is. -/
theorem next_directory {fs : FileSystem} {touched : List Touch} {calls : ℕ}
    (hdst : targetDst settings.base topic.length (fpath ++ 0 :: stale) = .ok dst)
    (hm : fs.mkdir dst = .error .alreadyExists) :
    next settings (fun _ => .none) ⟨⟨fs, touched, calls⟩, rest, some topic, false⟩
        (.installHandle fpath stale .directory answer) =
      ⟨⟨fs, touched, calls + 1⟩, rest, some topic, false⟩ := by
  have h : (installHandle (fun _ => .none) settings topic.length fpath stale .directory answer).from
      ⟨fs, touched, calls⟩ = (.ok (), ⟨fs, touched, calls + 1⟩) := by
    rw [installHandle, from_bind, from_lift, hdst]
    dsimp only
    rw [from_bind, ensureDir, from_bind, from_attempt, mkdir, syscall, from_ofStep]
    simp only [hm]
    rfl
  simp only [next, h]

end

/-- The handler gets a file under the path `fpath`, and `dst` is its destination. -/
def Moment.Handles (settings : Settings) (m : Moment) (fpath dst : Path) (answer : Option UInt8) :
    Prop :=
  ∃ topic stale, m.before.topic = some topic ∧
    m.action = .installHandle fpath stale .file answer ∧
    targetDst settings.base topic.length (fpath ++ 0 :: stale) = .ok dst

/-- `target_dst` stays within the path that it reads and the buffer that it writes. -/
def Moment.InBounds (settings : Settings) (m : Moment) : Prop :=
  ∀ topic fpath stale typeflag answer, m.before.topic = some topic →
    m.action = .installHandle fpath stale typeflag answer →
    targetDst settings.base topic.length (fpath ++ 0 :: stale) ≠ .error .outOfBounds

/-- What holds of the file system holds after a step that does not break it. -/
theorem next_keeps (hst : Stable I J) {s : State} {a : Action}
    (hs : I s.world.fs s.world.touched)
    (ha : ∀ fpath dst answer, Moment.Handles settings ⟨s, a⟩ fpath dst answer →
      Allows settings faults I J s.world dst answer) :
    I (next settings faults s a).world.fs (next settings faults s a).world.touched := by
  cases a with
  | installTopic =>
    cases hp : s.pending with
    | nil =>
      rw [next, hp]
      exact hs
    | cons topic rest =>
      rw [next, hp]
      exact (installTopic_silent I topic).always hs (fun _ _ h => h) fun _ h => h
  | installHandle fpath stale typeflag answer =>
    cases ht : s.topic with
    | none =>
      rw [next, ht]
      exact hs
    | some topic =>
      rw [next, ht]
      have hallows : ∀ dst, targetDst settings.base topic.length (fpath ++ 0 :: stale) = .ok dst →
          typeflag = .file → Allows settings faults I J s.world dst answer := fun dst hdst hflag =>
        ha fpath dst answer ⟨topic, stale, ht, by rw [hflag], hdst⟩
      exact (installHandle_keeps hst hs topic.length fpath stale typeflag hallows).always rfl
        (fun _ _ h => h) fun _ h => h

theorem execution_keeps (hst : Stable I J) {s t : State} {trace : List Moment}
    (run : Execution settings faults s trace t) (hs : I s.world.fs s.world.touched)
    (ha : ∀ m ∈ trace, ∀ fpath dst answer, m.Handles settings fpath dst answer →
      I m.before.world.fs m.before.world.touched →
      Allows settings faults I J m.before.world dst answer) :
    (∀ m ∈ trace, I m.before.world.fs m.before.world.touched) ∧
      I t.world.fs t.world.touched := by
  induction run with
  | nil => exact ⟨by simp, hs⟩
  | cons _ _ ih =>
    have hnext := next_keeps hst hs fun fpath dst answer hm =>
      ha _ List.mem_cons_self fpath dst answer hm hs
    obtain ⟨hall, ht⟩ := ih hnext fun m hm => ha m (List.mem_cons_of_mem _ hm)
    refine ⟨fun m hm => ?_, ht⟩
    rcases List.mem_cons.mp hm with rfl | hm
    · exact hs
    · exact hall m hm

end Mkdot
