import Overthinkin.GitpDelivery
import Overthinkin.PosixSparing

/-! `main` of `cmd/gitp`: the arguments, the check that the output directory is free, and the clone.
Whatever comes of it, what was on the file system before is left alone. -/
namespace GitpMain

open GoRuntime GoRuntime.Outcome GitpObject GitpTree PosixFileSystem PosixCalls PosixSparing
  StatefulCall GoFilepath GitpCheckout GitpContainment GitpTransport GitpClone

/-- How the program ends other than with a success: `flags` is what `fs.Parse` has already said. -/
inductive Exit where
  | flags
  | stopped (stop : Stop)

def die {α : Type} (message : GoString) : Except Exit α := .error (.stopped (.error message))

/-! ### The arguments -/

structure Flags where
  branch : GoString
  quiet : Bool

/-- `strconv.ParseBool`. -/
def parseBool (s : GoString) : Option Bool :=
  if s ∈ ["1", "t", "T", "true", "TRUE", "True"].map ascii then some true
  else if s ∈ ["0", "f", "F", "false", "FALSE", "False"].map ascii then some false
  else none

/-- `-name` or `-name=value`, behind the one or two dashes. -/
def splitFlag (flag : GoString) : GoString × Option GoString :=
  (flag.takeWhile (· ≠ 61), if 61 ∈ flag then some (flag.dropWhile (· ≠ 61)).tail else none)

/-- `fs.Parse`: the flags up to the first argument that is none, and what is left. -/
def parseFlags : List GoString → Flags → Except Exit (Flags × List GoString)
  | [], flags => .ok (flags, [])
  | s :: args, flags =>
    if s.length < 2 ∨ s.head? ≠ some 45 then .ok (flags, s :: args)
    else if s = ascii "--" then .ok (flags, args)
    else
      let flag := if s[1]? = some 45 then s.drop 2 else s.drop 1
      if flag = [] ∨ flag.head? = some 45 ∨ flag.head? = some 61 then .error .flags
      else match splitFlag flag with
      | (name, value) =>
        if name = ascii "branch" ∨ name = ascii "b" then
          match value, args with
          | some value, args => parseFlags args { flags with branch := value }
          | none, value :: args => parseFlags args { flags with branch := value }
          | none, [] => .error .flags
        else if name = ascii "quiet" ∨ name = ascii "q" then
          match value with
          | none => parseFlags args { flags with quiet := true }
          | some value => match parseBool value with
            | some quiet => parseFlags args { flags with quiet := quiet }
            | none => .error .flags
        else .error .flags

def IsHTTPURL (url : GoString) : Bool :=
  (ascii "http://").isPrefixOf url || (ascii "https://").isPrefixOf url

/-- `strings.TrimSuffix`. -/
def trimSuffix (suffix s : GoString) : GoString :=
  if suffix.isSuffixOf s then s.take (s.length - suffix.length) else s

/-- What follows the last separator, or everything. -/
def DefaultDir (url : GoString) : GoString :=
  let trimmed := trimRight separator url
  let trimmed := trimSuffix (ascii ".git") trimmed
  let trimmed := trimRight separator trimmed
  trimmed.rtakeWhile (· ≠ separator)

/-- The options, as far as the arguments alone settle them. -/
def arguments (args : List GoString) (tty : Bool) : Except Exit Options := do
  let args := if args.head? = some (ascii "clone") then args.tail else args
  let (flags, rest) ← parseFlags args ⟨ascii "HEAD", false⟩
  match rest with
  | [] => die (ascii "missing URL")
  | _ :: _ :: extra :: _ => die (ascii "unexpected argument: " ++ extra)
  | url :: dirs =>
    if IsHTTPURL url = false then die (ascii "only http:// and https:// URLs are supported")
    else
      let outDir := match dirs with
        | dir :: _ => dir
        | [] => DefaultDir url
      if outDir = [] then die (ascii "invalid output directory")
      else .ok ⟨url, flags.branch, outDir, !flags.quiet && tty⟩

/-! ### The run -/

def OutputDirAvailable (faults : ℕ → Fault) (path : Path) : Call World Exit Bool := do
  match ← attempt (osStat faults path) with
  | .error _ => return true
  | .ok (.dir _ _) =>
    match ← attempt (osReadDir faults path) with
    | .error _ => return false
    | .ok entries => return entries.length = 0
  | .ok _ => return false

/-- A call on the file system alone. -/
def onFiles {ε α : Type} (x : Call World ε α) : Call Client ε α :=
  ofStep fun c =>
    ((x.from c.1.world).1, { c.1 with world := (x.from c.1.world).2 }, c.2)

def stopping {σ α : Type} (x : Call σ Stop α) : Call σ Exit α :=
  ofStep fun s => ((x.from s).1.mapError .stopped, (x.from s).2)

/-- `tty` is whether the standard error goes to a terminal. -/
def main (host : Host) (args : List GoString) (tty : Bool) (fuel : ℕ) : Call Client Exit Unit := do
  let opts ← StatefulCall.lift (arguments args tty)
  if ← onFiles (OutputDirAvailable host.faults opts.outDir) then stopping (clone host opts fuel)
  else StatefulCall.lift (die (ascii "output directory exists and is not empty: " ++ opts.outDir))

/-! ### Writing below an empty directory -/

section
variable {faults : ℕ → Fault} {base : FileSystem} {root d : Inode} {name : Name} {path dir : Path}
  {w w' : World}

theorem attempt_sparing {α ε : Type} {x : Call World ε α}
    (h : Triple (Sparing base root w) x (fun _ => Sparing base root w) (Sparing base root w)) :
    Triple (Sparing base root w) (attempt x : Call World Stop (Except ε α))
      (fun _ => Sparing base root w) (Sparing base root w) := by
  apply (Triple.attempt h).post _ fun _ h => h
  intro r s hs
  cases r with
  | ok a => exact hs
  | error e => exact hs

theorem close_sparing (fd : Handle) :
    Triple (Sparing base root w) (close faults fd) (fun _ => Sparing base root w)
      (Sparing base root w) := by
  apply (syscall_sparing fun s hs e he => ?_).post (fun _ _ h => h.1) fun _ h => h
  cases he
  exact ⟨Grows.refl _, hs.spares⟩

theorem closing_sparing {α : Type} {x : Call World Errno α}
    (h : Triple (Sparing base root w) x (fun _ => Sparing base root w) (Sparing base root w))
    (fd : Handle) (message : GoString) :
    Triple (Sparing base root w) (GitpCheckout.closing faults fd x message)
      (fun _ => Sparing base root w) (Sparing base root w) := by
  apply Triple.bind (attempt_sparing h)
  rintro (e | a)
  · apply Triple.bind (attempt_sparing (close_sparing fd))
    intro r
    exact Triple.throw fun _ h => h
  · exact Triple.pure fun _ h => h

section
variable (hl : w.fs.locate path = some (d, name)) (ho : Ours base root d)
include hl ho

theorem writeBlob_sparing (hn : Ordinary name) (blob : Option Object) (executable : Bool) :
    Triple (Sparing base root w) (writeBlob faults blob path executable)
      (fun _ => Sparing base root w) (Sparing base root w) := by
  unfold writeBlob
  cases blob with
  | none => exact Triple.throw fun _ h => h
  | some blob =>
    dsimp only
    split
    · exact Triple.throw fun _ h => h
    apply Triple.bind (Q := fun fd s => base.next ≤ fd.inode ∧ Sparing base root w s)
    · apply Triple.orElse
      apply (syscall_sparing fun s hs e he => (openNoFollow_harmless hs.spares
        (hs.grows.locate hl) ho hn.ne_dot hn.ne_dotDot he).1).post _ fun _ h => h
      rintro fd s ⟨hs, s', hs', e, he, rfl⟩
      exact ⟨(openNoFollow_harmless hs'.spares (hs'.grows.locate hl) ho hn.ne_dot hn.ne_dotDot
        he).2, hs⟩
    intro fd
    apply Triple.assuming
    intro hfd
    have hw : Triple (Sparing base root w) (write faults fd blob.data)
        (fun _ => Sparing base root w) (Sparing base root w) :=
      (syscall_sparing fun s hs e he => by
        cases he; exact write_harmless hs.spares hfd blob.data).post (fun _ _ h => h.1) fun _ h => h
    have hm : ∀ mode, Triple (Sparing base root w) (fchmod faults fd mode)
        (fun _ => Sparing base root w) (Sparing base root w) := fun mode =>
      (syscall_sparing fun s hs e he => by
        cases he; exact fchmod_harmless hs.spares hfd mode).post (fun _ _ h => h.1) fun _ h => h
    apply Triple.bind (closing_sparing hw fd _)
    intro _
    apply Triple.bind (closing_sparing (hm _) fd _)
    intro _
    exact (close_sparing fd).orElse _

theorem writeSymlink_sparing (blob : Option Object) :
    Triple (Sparing base root w) (writeSymlink faults blob path) (fun _ => Sparing base root w)
      (Sparing base root w) := by
  unfold writeSymlink
  cases blob with
  | none => exact Triple.throw fun _ h => h
  | some blob =>
    dsimp only
    split
    · exact Triple.throw fun _ h => h
    split
    · exact Triple.throw fun _ h => h
    apply Triple.orElse
    exact (syscall_sparing fun s hs e he =>
      symlink_harmless hs.spares (hs.grows.locate hl) ho he).post (fun _ _ h => h.1) fun _ h => h

theorem writeEntry_sparing (hn : Ordinary name) (store : ObjectStore) (entry : TreeEntry) :
    Triple (Sparing base root w) (writeEntry faults store entry path)
      (fun _ => Sparing base root w) (Sparing base root w) := by
  unfold writeEntry
  split
  · apply Triple.bind (writeBlob_sparing hl ho hn _ _)
    intro _
    exact Triple.pure fun _ h => h
  split
  · apply Triple.bind (writeSymlink_sparing hl ho _)
    intro _
    exact Triple.pure fun _ h => h
  · exact Triple.pure fun _ h => h

theorem ensureDir_sparing :
    Triple (Sparing base root w) (ensureDir faults path) (fun _ => Sparing base root w)
      (Sparing base root w) := by
  have hmkdir : Triple (Sparing base root w) (mkdir faults path) (fun _ => Sparing base root w)
      (Sparing base root w) := (syscall_sparing fun s hs e he =>
    mkdir_harmless hs.spares (hs.grows.locate hl) ho he).post (fun _ _ h => h.1) fun _ h => h
  have hlstat : Triple (Sparing base root w) (lstat faults path) (fun _ => Sparing base root w)
      (Sparing base root w) := by
    apply (syscall_sparing fun s hs e he => ?_).post (fun _ _ h => h.1) fun _ h => h
    split at he
    · cases he
      exact ⟨Grows.refl _, hs.spares⟩
    · cases he
  apply Triple.bind (attempt_sparing hmkdir)
  rintro (e | _)
  · cases e with
    | other => exact Triple.throw fun _ h => h
    | alreadyExists =>
      apply Triple.bind (attempt_sparing hlstat)
      intro r
      split
      · exact Triple.pure fun _ h => h
      · exact Triple.throw fun _ h => h
  · exact Triple.pure fun _ h => h

end

/-- A directory of ours, as it is seen while a tree is written into it. -/
def Within (base : FileSystem) (root : Inode) (dir : Path) (w : World) : Prop :=
  Spares base root w.fs ∧ ∃ d, home w.fs dir = some d ∧ Ours base root d

/-- A tree that is written into a directory that was empty leaves alone what was there before. -/
theorem descends_sparing (faults : ℕ → Fault) (base : FileSystem) (root : Inode) :
    Descends faults (Within base root) (Sparing base root) where
  self _ _ h := Sparing.refl h.1
  trans _ _ _ := Sparing.trans
  stable _ _ _ h hr := by
    obtain ⟨d, hh, ho⟩ := h.2
    exact ⟨hr.spares, d, home_grows hr.grows hh, ho⟩
  subtree dir name w hd hn h := by
    obtain ⟨hs, d, hh, ho⟩ := h
    have hl : w.fs.locate (join [dir, name]) = some (d, name) := locate_home hd hn hh
    have hself : ∀ s, s = w → Sparing base root w s := by
      rintro s rfl
      exact Sparing.refl hs
    refine ((ensureDir_triple w).and ((ensureDir_sparing hl ho).pre hself)).post ?_ fun _ h => h.2
    rintro _ w' ⟨⟨-, ⟨i, hi, hdir⟩, -⟩, hw⟩
    have hh' : home w'.fs dir = some d := home_grows hw.grows hh
    have he : w'.fs.entry d name = some i := (lstat_join hd hn hh').symm.trans hi
    have hc := (entry_eq_child hn.ne_dot hn.ne_dotDot d).symm.trans he
    exact ⟨hw, hw.spares, i, home_join hd hn hh' he hdir,
      .inr (hw.spares.children d name i ho hc)⟩
  entry dir name w store entry hd hn h := by
    obtain ⟨hs, d, hh, ho⟩ := h
    have hself : ∀ s, s = w → Sparing base root w s := by
      rintro s rfl
      exact Sparing.refl hs
    exact (writeEntry_sparing (locate_home hd hn hh) ho hn store entry).pre hself

end

/-! ### What was there before -/

/-- Nothing is any different than in `fs`: but `outDir` may have been filled, if it was empty, and
the directory that it is in may have it as an entry more. -/
def Preserved (fs : FileSystem) (outDir : Path) (fs' : FileSystem) : Prop :=
  ∀ i node, fs.nodes i = some node → fs'.nodes i = some node ∨
    ∃ parent entries entries', node = .dir parent entries ∧
      fs'.nodes i = some (.dir parent entries') ∧
      ((entries = [] ∧ fs.lstat outDir = some i) ∨
        ∃ name, fs.locate outDir = some (i, name) ∧ entries' = (name, fs.next) :: entries)

/-- If `outDir` is a directory, it is empty. -/
def Free (fs : FileSystem) (outDir : Path) : Prop :=
  ∀ root, fs.lstat outDir = some root → fs.isDir root = true →
    ∃ parent, fs.nodes root = some (.dir parent [])

section
variable {faults : ℕ → Fault} {fs fs' : FileSystem} {root : Inode} {outDir : Path} {w w' : World}

theorem preserved_refl (fs : FileSystem) (outDir : Path) : Preserved fs outDir fs :=
  fun _ _ h => .inl h

theorem lt_next {i : Inode} {node : Node} (h : fs.nodes i = some node) : i < fs.next := by
  by_contra hle
  rw [fs.fresh i (Nat.not_lt.mp hle)] at h
  cases h

theorem preserved_link {d : Inode} {name : Name} {node : Node}
    (hl : fs.locate outDir = some (d, name))
    (h : ∀ i < fs.next, fs'.nodes i = (fs.link d name node).nodes i) :
    Preserved fs outDir fs' := by
  intro i other hi
  rw [h i (lt_next hi)]
  simp only [FileSystem.link, if_neg (Nat.ne_of_lt (lt_next hi)), hi]
  cases other with
  | file => exact .inl rfl
  | symlink => exact .inl rfl
  | dir parent entries =>
    by_cases hd : i = d
    · subst hd
      refine .inr ⟨parent, entries, (name, fs.next) :: entries, rfl, ?_, .inr ⟨name, hl, rfl⟩⟩
      exact if_pos rfl
    · exact .inl (if_neg hd)

theorem preserved_made : Preserved fs outDir (made fs outDir) := by
  rw [made]
  cases hm : fs.mkdir outDir with
  | error e => exact preserved_refl fs outDir
  | ok e =>
    obtain ⟨d, name, hl, -, rfl⟩ := mkdir_eq_ok.mp hm
    exact preserved_link hl fun _ _ => rfl

/-- The directory that is written into begins empty, whether it has just been made or not. -/
theorem made_empty (hf : Free fs outDir) (hl : (made fs outDir).lstat outDir = some root)
    (hd : (made fs outDir).isDir root = true) (name : Name) :
    (made fs outDir).child root name = none := by
  rw [made] at hl hd ⊢
  cases hm : fs.mkdir outDir with
  | error e =>
    rw [hm] at hl hd
    obtain ⟨parent, hn⟩ := hf root hl hd
    simp [FileSystem.child, hn]
  | ok e =>
    rw [hm] at hl
    obtain ⟨hlstat, -⟩ := mkdir_lstat hm
    obtain rfl := Option.some.inj (hlstat.symm.trans hl)
    obtain ⟨d, n, -, -, rfl⟩ := mkdir_eq_ok.mp hm
    simp [FileSystem.child, nodes_link_next]

theorem preserved_spares (hf : Free fs outDir) (hl : (made fs outDir).lstat outDir = some root)
    (hd : (made fs outDir).isDir root = true) (hg : Grows (made fs outDir) fs')
    (hs : Spares (made fs outDir) root fs') : Preserved fs outDir fs' := by
  have hkept := hs.kept
  rw [made] at hl hd hg hkept
  cases hm : fs.mkdir outDir with
  | error e =>
    rw [hm] at hl hd hg hkept
    intro i node hi
    by_cases hroot : i = root
    · subst hroot
      obtain ⟨parent, hn⟩ := hf i hl hd
      obtain rfl := Option.some.inj (hi.symm.trans hn)
      obtain ⟨entries', he, -⟩ := hg.dirs i parent [] hn
      exact .inr ⟨parent, [], entries', rfl, he, .inl ⟨rfl, hl⟩⟩
    · exact .inl ((hkept i (lt_next hi) hroot).trans hi)
  | ok e =>
    rw [hm] at hl hkept
    obtain ⟨hlstat, -⟩ := mkdir_lstat hm
    obtain rfl := Option.some.inj (hlstat.symm.trans hl)
    obtain ⟨d, name, hloc, -, rfl⟩ := mkdir_eq_ok.mp hm
    exact preserved_link hloc fun i hi =>
      hkept i (Nat.lt_succ_of_lt hi) (Nat.ne_of_lt hi)

theorem ensureDir_moves (w : World) :
    Triple (· = w) (ensureDir faults outDir) (fun _ s => s.fs = made w.fs outDir)
      (fun s => s.fs = w.fs ∨ s.fs = made w.fs outDir) := by
  have hmkdir : Triple (· = w) (mkdir faults outDir)
      (fun _ s => s.fs = made w.fs outDir) (fun s => s.fs = w.fs ∨ s.fs = made w.fs outDir) := by
    rintro s rfl
    rw [mkdir, syscall, from_ofStep, made]
    cases s.fs.mkdir outDir with
    | error e => cases faults s.calls <;> exact .inl rfl
    | ok e =>
      cases faults s.calls with
      | none => exact rfl
      | refused => exact .inl rfl
      | late => exact .inr rfl
  have hlstat : Triple (fun s => s.fs = w.fs ∨ s.fs = made w.fs outDir) (lstat faults outDir)
      (fun _ s => s.fs = w.fs ∨ s.fs = made w.fs outDir)
      (fun s => s.fs = w.fs ∨ s.fs = made w.fs outDir) := by
    intro s hs
    have hfs := (lstat_result faults outDir s).1
    rcases hr : (lstat faults outDir).from s with ⟨r, s'⟩
    rw [hr] at hfs
    obtain hfs : s'.fs = s.fs := hfs
    rw [← hfs] at hs
    cases r with
    | ok a => exact hs
    | error e => exact hs
  have hmoved : Triple (· = w) (ensureDir faults outDir)
      (fun _ s => s.fs = w.fs ∨ s.fs = made w.fs outDir)
      (fun s => s.fs = w.fs ∨ s.fs = made w.fs outDir) := by
    unfold ensureDir
    apply Triple.bind (Triple.attempt hmkdir)
    rintro (e | _)
    · cases e with
      | other => exact Triple.throw fun _ h => h
      | alreadyExists =>
        have hlook : Triple (fun s => s.fs = w.fs ∨ s.fs = made w.fs outDir)
            (attempt (lstat faults outDir) : Call World Stop (Except Errno Node))
            (fun _ s => s.fs = w.fs ∨ s.fs = made w.fs outDir)
            (fun s => s.fs = w.fs ∨ s.fs = made w.fs outDir) := by
          refine (Triple.attempt hlstat).post ?_ fun _ h => h
          intro r s hs
          cases r <;> exact hs
        apply Triple.bind hlook
        intro r
        split
        · exact Triple.pure fun _ h => h
        · exact Triple.throw fun _ h => h
    · exact Triple.pure fun _ h => .inr h
  exact ((ensureDir_triple w).and hmoved).post (fun _ _ h => h.1.1) fun _ h => h.2

/-- A checkout into a free directory preserves everything else, wherever it stops. -/
theorem materialize_preserved (hf : Free w.fs outDir) (ha : Aligned w.fs outDir)
    (store : ObjectStore) (fuel : ℕ) (treeOID : OID) :
    Triple (· = w) (GitpCheckout.materialize faults store fuel treeOID outDir)
      (fun _ s => Preserved w.fs outDir s.fs) (fun s => Preserved w.fs outDir s.fs) := by
  have hself : ∀ s, s = w → Preserved w.fs outDir s.fs := by
    rintro s rfl
    exact preserved_refl _ _
  unfold GitpCheckout.materialize
  cases countMaterializedEntries store fuel treeOID with
  | none => exact Triple.throw hself
  | some total =>
    apply Triple.bind ((returned_triple total).onError hself)
    intro total
    have hmoves : Triple (· = w) (ensureDir faults outDir)
        (fun _ s => s.fs = made w.fs outDir ∧ IsDirectory s.fs outDir)
        (fun s => Preserved w.fs outDir s.fs) := by
      refine ((ensureDir_triple w).and (ensureDir_moves w)).post (fun _ _ h => ⟨h.1.1, h.1.2.1⟩) ?_
      rintro s ⟨-, hs | hs⟩
      · exact hs ▸ preserved_refl _ _
      · exact hs ▸ preserved_made
    apply Triple.bind hmoves
    intro _
    apply Triple.fixed
    rintro s ⟨hs, root, hl, hd⟩
    have hne : outDir ≠ [] := by
      rintro rfl
      cases hl
    rw [hs] at hl hd
    have hbase := spares_base (made_empty hf hl hd)
    have hdone : ∀ s', Sparing (made w.fs outDir) root s s' → Preserved w.fs outDir s'.fs :=
      fun s' h => preserved_spares hf hl hd (hs ▸ h.grows) h.spares
    have hwritten : Triple (· = s) (materializeTree faults store fuel treeOID outDir 0)
        (fun _ s' => Preserved w.fs outDir s'.fs) (fun s' => Preserved w.fs outDir s'.fs) := by
      cases hh : home s.fs outDir with
      | none =>
        refine (((descends_nowhere faults).materialize store fuel).1 treeOID outDir 0 s hne hh).post
          ?_ ?_
        · exact fun _ s' h => h.fs ▸ hs ▸ preserved_made
        · exact fun s' h => h.fs ▸ hs ▸ preserved_made
      | some d =>
        have hours : Ours (made w.fs outDir) root d :=
          hbase.below (ha root d hl hd (hs ▸ hh))
        refine (((descends_sparing faults _ root).materialize store fuel).1 treeOID outDir 0 s hne
          ⟨hs ▸ hbase, d, hh, hours⟩).post (fun _ => hdone) hdone
    apply Triple.bind hwritten
    intro _
    exact Triple.pure fun _ h => h

/-- A directory that has been found, and found free, has no entries. -/
theorem available_empty {parent : Inode} {entries : List (Name × Inode)}
    (hstat : faults w.calls = .none)
    (hlook : (lookUp w.fs outDir).bind w.fs.nodes = some (.dir parent entries))
    (h : ((OutputDirAvailable faults outDir).from w).1 = .ok true) : entries = [] := by
  have hfound : (attempt (osStat faults outDir) : Call World Exit (Except Errno Node)).from w =
      (.ok (.ok (.dir parent entries)), w.after ⟨Node.dir parent entries, w.fs, []⟩) := by
    rw [from_attempt, osStat, syscall, from_ofStep, hlook, hstat]
  rw [OutputDirAvailable, from_bind_ok hfound] at h
  dsimp only at h
  have hread : ((attempt (osReadDir faults outDir) :
      Call World Exit (Except Errno (List Name))).from
        (w.after ⟨Node.dir parent entries, w.fs, []⟩)).1 = .ok (if faults (w.calls + 1) = .none then
        .ok (entries.map Prod.fst) else .error .other) := by
    rw [from_attempt, osReadDir, syscall, from_ofStep]
    simp only [World.after, hlook]
    cases faults (w.calls + 1) <;> rfl
  rcases hr : (attempt (osReadDir faults outDir) : Call World Exit (Except Errno (List Name))).from
    (w.after ⟨Node.dir parent entries, w.fs, []⟩) with ⟨r, w'⟩
  rw [hr] at hread
  obtain rfl : r = _ := hread
  rw [from_bind_ok hr] at h
  split_ifs at h with hf
  · simpa using h
  · simp at h

/-- What is not there is free. -/
theorem available_absent (h : lookUp w.fs outDir = none) :
    (OutputDirAvailable faults outDir).from w = (.ok true, w.unchanged) := by
  have hmissing : (attempt (osStat faults outDir) : Call World Exit (Except Errno Node)).from w =
      (.ok (.error .other), w.unchanged) := by
    rw [from_attempt, osStat, syscall, from_ofStep, h]
    cases faults w.calls <;> rfl
  rw [OutputDirAvailable, from_bind_ok hmissing]
  rfl

theorem available_free (hstat : faults w.calls = .none)
    (h : ((OutputDirAvailable faults outDir).from w).1 = .ok true) : Free w.fs outDir := by
  intro root hl hd
  obtain ⟨parent, entries, hn⟩ := isDir_iff.mp hd
  have hlook : (lookUp w.fs outDir).bind w.fs.nodes = some (.dir parent entries) := by
    rw [lookUp_of_lstat hl hd]
    exact hn
  obtain rfl := available_empty hstat hlook h
  exact ⟨parent, hn⟩

theorem available_unmoved (faults : ℕ → Fault) (outDir : Path) (w : World) :
    ((OutputDirAvailable faults outDir).from w).2.fs = w.fs := by
  have hquiet : ∀ {α : Type} (op : FileSystem → Except Errno (Effect α)),
      (∀ fs e, op fs = .ok e → e.fs = fs) →
      Triple (fun s => s.fs = w.fs) (attempt (syscall faults op) : Call World Exit (Except Errno α))
        (fun _ s => s.fs = w.fs) (fun s => s.fs = w.fs) := by
    intro α op hop s hs
    rw [from_attempt, syscall, from_ofStep]
    cases ho : op s.fs with
    | error e => cases faults s.calls <;> exact hs
    | ok e => cases faults s.calls <;> first | exact hs | exact (hop _ _ ho).trans hs
  have hall : Triple (fun s => s.fs = w.fs) (OutputDirAvailable faults outDir)
      (fun _ s => s.fs = w.fs) (fun s => s.fs = w.fs) := by
    unfold OutputDirAvailable
    apply Triple.bind (hquiet _ fun fs e he => by split at he <;> cases he; rfl)
    intro r
    split
    · exact Triple.pure fun _ h => h
    · apply Triple.bind (hquiet _ fun fs e he => by split at he <;> cases he; rfl)
      intro r
      split
      · exact Triple.pure fun _ h => h
      · exact Triple.pure fun _ h => h
    · exact Triple.pure fun _ h => h
  exact hall.always rfl (fun _ _ h => h) fun _ h => h

end

section
variable {host : Host} {opts : Options} {c : Outside}

/-- A whole clone, from whatever server. -/
theorem clone_preserved (hf : Free c.world.fs opts.outDir) (ha : Aligned c.world.fs opts.outDir)
    (fuel : ℕ) (log : List Report) :
    Preserved c.world.fs opts.outDir ((clone host opts fuel).from (c, log)).2.1.world.fs := by
  obtain ⟨more, hrun, -⟩ := clone_from host opts fuel c log
  rw [hrun]
  dsimp only
  rw [plainClone, from_bind]
  have hworld := @fetch_world host opts c
  rcases hfetch : (fetch host opts).from c with ⟨r, d⟩
  rw [hfetch] at hworld
  obtain hworld : d.world = c.world := hworld
  cases r with
  | error e => exact hworld ▸ preserved_refl _ _
  | ok fetched =>
    have hm := (@materialize_preserved host.faults _ _ hf ha fetched.1 fuel fetched.2).always
      (I := fun s => Preserved c.world.fs opts.outDir s.fs) rfl (fun _ _ h => h) fun _ h => h
    dsimp only
    rw [from_bind, onDisk, from_ofStep, hworld]
    rcases hx : (GitpCheckout.materialize host.faults fetched.1 fuel fetched.2 opts.outDir).from
      c.world with ⟨r, w⟩
    rw [hx] at hm
    cases r with
    | ok n => exact hm
    | error e => exact hm

/-- Whatever the arguments, the server and the failures of the file system: when the program ends,
every file, link and directory that was there before is as it was, except that the output directory
may have been filled, if it was empty, or is a new entry of the directory it is in. This needs an
output directory whose two readings agree, and an answer to the first question about it. -/
theorem main_preserves (host : Host) (args : List GoString) (tty : Bool) (fuel : ℕ) (c : Outside)
    (log : List Report) (hstat : host.faults c.world.calls = .none)
    (ha : ∀ opts, arguments args tty = .ok opts → Aligned c.world.fs opts.outDir) :
    (∀ opts, arguments args tty = .ok opts → Preserved c.world.fs opts.outDir
      ((main host args tty fuel).from (c, log)).2.1.world.fs) ∧
    ∀ e, arguments args tty = .error e → (main host args tty fuel).from (c, log) =
      (.error e, c, log) := by
  constructor
  · intro opts hargs
    have hlift : (StatefulCall.lift (arguments args tty) : Call Client Exit Options).from (c, log) =
        (.ok opts, c, log) := by rw [from_lift, hargs]
    rw [main, from_bind_ok hlift]
    have hunmoved := available_unmoved host.faults opts.outDir c.world
    rcases havail : (OutputDirAvailable host.faults opts.outDir).from c.world with ⟨r, w⟩
    rw [havail] at hunmoved
    obtain hunmoved : w.fs = c.world.fs := hunmoved
    have hfiles : (onFiles (OutputDirAvailable host.faults opts.outDir)).from (c, log) =
        (r, { c with world := w }, log) := by rw [onFiles, from_ofStep, havail]
    rw [from_bind, hfiles]
    cases r with
    | error e => exact hunmoved ▸ preserved_refl _ _
    | ok available =>
      cases available with
      | false => exact hunmoved ▸ preserved_refl _ _
      | true =>
        have hfree : Free c.world.fs opts.outDir := available_free hstat (by rw [havail])
        have haligned := ha opts hargs
        rw [← hunmoved] at hfree haligned ⊢
        exact @clone_preserved host opts { c with world := w } hfree haligned fuel log
  · intro e hargs
    have hlift : (StatefulCall.lift (arguments args tty) : Call Client Exit Options).from (c, log) =
        (.error e, c, log) := by rw [from_lift, hargs]
    rw [main, from_bind_error hlift]

end

/-- Three files, a directory and a link, in the directory that the program runs in. -/
def furnished : FileSystem where
  nodes i := [.dir 0 [(ascii "notes", 1), (ascii "src", 2), (ascii "latest", 4), (ascii "run", 5)],
    .file (ascii "keep this") 0o600, .dir 0 [(ascii "main", 3)], .file (ascii "code") 0o644,
    .symlink (ascii "src/main"), .file (ascii "make") 0o755][i]?
  next := 6
  root := 0
  cwd := 0
  maxLinks := 40
  fresh _ h := List.getElem?_eq_none h

def helloArgs : List GoString :=
  [ascii "clone", ascii "-q", ascii "-b", ascii "main", ascii "http://host/hello", ascii "o"]

theorem helloArgs_arguments : arguments helloArgs true = .ok helloOptions := by
  have h : (arguments helloArgs true).toOption.map
      (fun opts => (opts.url, opts.ref, opts.outDir, opts.progress)) =
        some (helloOptions.url, helloOptions.ref, helloOptions.outDir, helloOptions.progress) := by
    decide +kernel
  cases harg : arguments helloArgs true with
  | error e =>
    rw [harg] at h
    cases h
  | ok opts =>
    rw [harg] at h
    obtain ⟨url, ref, outDir, progress⟩ := opts
    simp only [Except.toOption, Option.map_some, Option.some.injEq, Prod.mk.injEq] at h
    obtain ⟨rfl, rfl, rfl, rfl⟩ := h
    rfl

theorem furnished_ready : Ready furnished helloOptions.outDir :=
  ready_of_name ⟨by decide, by decide, by decide, by decide⟩ rfl (by decide)

/-- Nothing is there under the name. -/
theorem furnished_lookUp : lookUp furnished helloOptions.outDir = none := by
  have hentry : furnished.entry 0 [111] = none := by decide
  change (if [111] = [] then none else follow furnished 40 0 false [[111]]) = none
  rw [if_neg (by decide), follow, hentry]

/-- The clone of one file from a server that delivers it, beside what was there before. -/
theorem main_preserves_hello : ∃ fuel d after,
    (main (helloHost helloListing) helloArgs true fuel).from (⟨⟨furnished, [], 0⟩, []⟩, []) =
      (.ok (), d, after) ∧ Preserved furnished helloOptions.outDir d.world.fs := by
  have hl : HelloOrder helloListing := .inl rfl
  let start : Outside := ⟨⟨furnished, [], 0⟩, []⟩
  let found : Outside := ⟨World.unchanged ⟨furnished, [], 0⟩, []⟩
  obtain ⟨_, _, fuel, -, -, hrun⟩ := @served_succeeds _ _ found _ _ _ _ _ _ (hello_serves hl)
    ⟨List.mem_singleton_self _, by decide⟩ (.inl rfl) hello_lawful (hello_distinct hl)
    (hello_fits hl) (hello_names hl) (hello_whole hl) (hello_sound hl) furnished_ready rfl
  obtain ⟨d, after, hok, -⟩ := hrun fuel le_rfl []
  have hlift : (StatefulCall.lift (arguments helloArgs true) : Call Client Exit Options).from
      (start, []) = (.ok helloOptions, start, []) := by rw [from_lift, helloArgs_arguments]
  have hfiles : (onFiles (OutputDirAvailable (helloHost helloListing).faults
      helloOptions.outDir)).from (start, []) = (.ok true, found, []) := by
    rw [onFiles, from_ofStep]
    dsimp only [start]
    rw [available_absent furnished_lookUp]
  have hmain : (main (helloHost helloListing) helloArgs true fuel).from (start, []) =
      (.ok (), d, after) := by
    rw [main, from_bind_ok hlift, from_bind_ok hfiles, if_pos rfl, stopping, from_ofStep, hok]
    rfl
  have ha : ∀ opts, arguments helloArgs true = .ok opts → Aligned furnished opts.outDir := by
    intro opts hopts
    obtain rfl := Except.ok.inj (helloArgs_arguments.symm.trans hopts)
    exact furnished_ready.aligned
  have h := (main_preserves (helloHost helloListing) helloArgs true fuel start [] rfl ha).1 _
    helloArgs_arguments
  rw [hmain] at h
  exact ⟨fuel, d, after, hmain, h⟩

end GitpMain
