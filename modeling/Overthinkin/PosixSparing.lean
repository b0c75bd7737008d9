import Overthinkin.PosixCalls
import Overthinkin.PosixDescent

/-! What was there stays as it was. Calls that work only in a directory that began empty, and in
what they have made under it, change nothing that is older. -/
namespace PosixSparing

open PosixFileSystem PosixCalls StatefulCall

/-- The directory `root`, and everything that is younger than `base`. -/
def Ours (base : FileSystem) (root d : Inode) : Prop := d = root ∨ base.next ≤ d

/-- Since `base` nothing has changed but `root`, and all that lies under it is new. -/
structure Spares (base : FileSystem) (root : Inode) (fs : FileSystem) : Prop where
  next : base.next ≤ fs.next
  kept : ∀ i < base.next, i ≠ root → fs.nodes i = base.nodes i
  children : ∀ d name i, Ours base root d → fs.child d name = some i → base.next ≤ i

section
variable {base fs : FileSystem} {root d i : Inode} {name : Name} {node : Node} {path : Path}

/-- To begin with `root` is empty. -/
theorem spares_base (h : ∀ name, base.child root name = none) : Spares base root base := by
  refine ⟨Nat.le_refl _, fun _ _ _ => rfl, ?_⟩
  rintro d name i (rfl | hd) hc
  · rw [h] at hc
    cases hc
  · rw [FileSystem.child, base.fresh d hd] at hc
    cases hc

theorem Spares.link (h : Spares base root fs) (ho : Ours base root d) (hd : fs.isDir d = true)
    (hb : Bare node) : Spares base root (fs.link d name node) := by
  refine ⟨Nat.le_trans h.next (Nat.le_succ _), ?_, ?_⟩
  · intro i hi hne
    rw [← h.kept i hi hne]
    have hnext : i ≠ fs.next := Nat.ne_of_lt (Nat.lt_of_lt_of_le hi h.next)
    have hid : i ≠ d := by
      rintro rfl
      rcases ho with rfl | ho
      · exact hne rfl
      · exact absurd hi (Nat.not_lt.mpr ho)
    simp only [FileSystem.link, if_neg hnext, if_neg hid]
    split <;> simp_all
  · intro x n i hx hc
    rw [child_link hd hb] at hc
    split_ifs at hc
    · cases hc
      exact h.next
    · exact h.children x n i hx hc

theorem Spares.setFile (h : Spares base root fs) (hi : base.next ≤ i)
    {change : List UInt8 → ℕ → Node}
    (hc : ∀ data mode, ∃ data' mode', change data mode = .file data' mode') :
    Spares base root (fs.setFile i change) := by
  refine ⟨h.next, ?_, ?_⟩
  · intro j hj hne
    rw [← h.kept j hj hne]
    have hji : j ≠ i := Nat.ne_of_lt (Nat.lt_of_lt_of_le hj hi)
    simp only [FileSystem.setFile, if_neg hji]
    split <;> simp_all
  · intro x n j hx hn
    rw [child_setFile hc] at hn
    exact h.children x n j hx hn

end

/-- Between `w` and `w'` nothing is lost, and nothing old is changed. -/
structure Sparing (base : FileSystem) (root : Inode) (w w' : World) : Prop where
  grows : Grows w.fs w'.fs
  spares : Spares base root w'.fs

/-- What an effect does to a file system that has been spared until then. -/
structure Harmless {α : Type} (base : FileSystem) (root : Inode) (fs : FileSystem) (e : Effect α) :
    Prop where
  grows : Grows fs e.fs
  spares : Spares base root e.fs

section
variable {base fs : FileSystem} {root d i : Inode} {name : Name} {path : Path} {α : Type}
  {faults : ℕ → Fault} {w w' w'' : World}

theorem Sparing.refl (h : Spares base root w.fs) : Sparing base root w w := ⟨Grows.refl _, h⟩

theorem Sparing.trans (h : Sparing base root w w') (k : Sparing base root w' w'') :
    Sparing base root w w'' := ⟨h.grows.trans k.grows, k.spares⟩

theorem syscall_sparing {op : FileSystem → Except Errno (Effect α)}
    (h : ∀ s, Sparing base root w s → ∀ e, op s.fs = .ok e → Harmless base root s.fs e) :
    Triple (Sparing base root w) (syscall faults op)
      (fun a s => Sparing base root w s ∧
        ∃ s', Sparing base root w s' ∧ ∃ e, op s'.fs = .ok e ∧ a = e.value)
      (Sparing base root w) := by
  intro s hs
  rw [syscall, from_ofStep]
  have hu : Sparing base root w s.unchanged := ⟨hs.grows, hs.spares⟩
  cases ho : op s.fs with
  | error e => cases faults s.calls <;> exact hu
  | ok e =>
    have he := h s hs e ho
    have hc : Sparing base root w (s.after e) := hs.trans ⟨he.grows, he.spares⟩
    cases faults s.calls with
    | none => exact ⟨hc, s, hs, e, ho, rfl⟩
    | refused => exact hu
    | late => exact hc

theorem bare_dir (parent : Inode) : Bare (.dir parent []) := by
  intro p entries h
  cases h
  rfl

theorem bare_file (data : List UInt8) (mode : ℕ) : Bare (.file data mode) := by
  intro p entries h
  cases h

theorem bare_symlink (target : Path) : Bare (.symlink target) := by
  intro p entries h
  cases h

section
variable (h : Spares base root fs) (hl : fs.locate path = some (d, name))
  (ho : Ours base root d)
include h hl ho

theorem mkdir_harmless {e : Effect Unit} (he : fs.mkdir path = .ok e) :
    Harmless base root fs e := by
  obtain ⟨d', name', hl', hfree, rfl⟩ := mkdir_eq_ok.mp he
  obtain ⟨rfl, rfl⟩ := Prod.mk.inj (Option.some.inj (hl.symm.trans hl'))
  exact ⟨grows_link hfree _, h.link ho (isDir_of_locate hl) (bare_dir _)⟩

theorem symlink_harmless {target : Path} {e : Effect Unit} (he : fs.symlink target path = .ok e) :
    Harmless base root fs e := by
  refine ⟨(symlink_stays hl he).grows, ?_⟩
  unfold FileSystem.symlink at he
  rw [hl] at he
  dsimp only at he
  split at he
  · cases he
  · split at he
    · cases he
    · cases he
      exact h.link ho (isDir_of_locate hl) (bare_symlink _)

/-- What is opened is a new file, or one that is newer than `base`. -/
theorem openNoFollow_harmless {mode : ℕ} {e : Effect Handle} (hn : name ≠ dot) (hn' : name ≠ dotDot)
    (he : fs.openNoFollow path mode = .ok e) :
    Harmless base root fs e ∧ base.next ≤ e.value.inode := by
  refine ⟨⟨(openNoFollow_stays hl he).1.grows, ?_⟩, ?_⟩
  all_goals
    unfold FileSystem.openNoFollow at he
    rw [hl] at he
    dsimp only at he
    split at he
    · cases he
  · cases hentry : fs.entry d name with
    | none =>
      rw [hentry] at he
      cases he
      exact h.link ho (isDir_of_locate hl) (bare_file _ _)
    | some i =>
      have hi := h.children d name i ho ((entry_eq_child hn hn' d).symm.trans hentry)
      rw [hentry] at he
      dsimp only at he
      split at he
      · cases he
        exact h.setFile hi fun _ mode => ⟨_, mode, rfl⟩
      · cases he
  · cases hentry : fs.entry d name with
    | none =>
      rw [hentry] at he
      cases he
      exact h.next
    | some i =>
      have hi := h.children d name i ho ((entry_eq_child hn hn' d).symm.trans hentry)
      rw [hentry] at he
      dsimp only at he
      split at he
      · cases he
        exact hi
      · cases he

end

theorem write_harmless (h : Spares base root fs) {fd : Handle} (hi : base.next ≤ fd.inode)
    (data : List UInt8) : Harmless base root fs (fs.write fd data) :=
  ⟨(write_stays fs fd data).grows, h.setFile hi fun _ mode => ⟨_, mode, rfl⟩⟩

theorem fchmod_harmless (h : Spares base root fs) {fd : Handle} (hi : base.next ≤ fd.inode)
    (mode : ℕ) : Harmless base root fs (fs.fchmod fd mode) :=
  ⟨(fchmod_stays fs fd mode).grows, h.setFile hi fun data _ => ⟨data, _, rfl⟩⟩

/-- What a directory of ours has below it is ours. -/
theorem Spares.below (h : Spares base root fs) (hb : Below fs root d) : Ours base root d := by
  induction hb with
  | refl => exact .inl rfl
  | step _ hdot hdotDot he _ ih =>
    exact .inr (h.children _ _ _ ih ((entry_eq_child hdot hdotDot _).symm.trans he))

end

/-! ### Looking first -/

/-- `FileSystem.walk`, to a directory or to a file; with `dirOnly` a file will not do. -/
def follow (fs : FileSystem) (links : ℕ) (d : Inode) (dirOnly : Bool) :
    List Name → Option Inode
  | [] => if fs.isDir d then some d else none
  | name :: rest =>
    match fs.entry d name with
    | none => none
    | some i => match fs.nodes i with
      | some (.dir _ _) => follow fs links i dirOnly rest
      | some (.symlink target) =>
        match links with
        | 0 => none
        | links + 1 => follow fs links (fs.linkBase d target)
          (dirOnly || (rest.isEmpty && trailing target)) (components target ++ rest)
      | some (.file _ _) => if rest.isEmpty && !dirOnly then some i else none
      | none => none
termination_by names => (links, names.length)

def lookUp (fs : FileSystem) (path : Path) : Option Inode :=
  if path = [] then none
  else follow fs fs.maxLinks (fs.start path) (trailing path) (components path)

section
variable (faults : ℕ → Fault)

def osStat (path : Path) : Call World Errno Node := syscall faults fun fs =>
  match (lookUp fs path).bind fs.nodes with
  | some node => .ok ⟨node, fs, []⟩
  | none => .error .other

/-- The names in a directory, without `.` and `..`. -/
def osReadDir (path : Path) : Call World Errno (List Name) := syscall faults fun fs =>
  match (lookUp fs path).bind fs.nodes with
  | some (.dir _ entries) => .ok ⟨entries.map Prod.fst, fs, []⟩
  | _ => .error .other

end

section
variable {fs : FileSystem} {root d : Inode} {path : Path} {links : ℕ} {names : List Name}

theorem follow_of_walk (dirOnly : Bool) (h : fs.walk links d names = some root) :
    follow fs links d dirOnly names = some root := by
  fun_induction FileSystem.walk fs links d names generalizing dirOnly with
  | case1 links d hd =>
    rw [follow, if_pos hd]
    exact h
  | case2 => cases h
  | case3 => cases h
  | case4 links d name rest i he parent entries hn ih =>
    rw [follow, he]
    dsimp only
    rw [hn]
    exact ih dirOnly h
  | case5 => cases h
  | case6 d name rest i he target hn links ih =>
    rw [follow, he]
    dsimp only
    rw [hn]
    exact ih _ h
  | case7 => cases h

theorem lookUp_of_lstat (h : fs.lstat path = some root) (hd : fs.isDir root = true) :
    lookUp fs path = some root := by
  have hne : path ≠ [] := by
    rintro rfl
    cases h
  rw [lookUp, if_neg hne]
  exact follow_of_walk _ (walk_of_lstat h hd)

end

end PosixSparing
