import Mathlib.Data.List.Basic
import Mathlib.Logic.Function.Basic

/-! A tree of directories, files and symbolic links, path resolution, and the system calls that
create entries. Permissions, and whatever else can make a call fail, are left to the caller. -/
namespace PosixFileSystem

abbrev Inode := ℕ
abbrev Name := List UInt8
abbrev Path := List UInt8

def separator : UInt8 := 47
def dot : Name := [46]
def dotDot : Name := [46, 46]

/-- Devices, pipes and sockets count as files. -/
inductive Node where
  | dir (parent : Inode) (entries : List (Name × Inode))
  | file (data : List UInt8) (mode : ℕ)
  | symlink (target : Path)
  deriving DecidableEq, Repr

structure FileSystem where
  nodes : Inode → Option Node
  next : Inode
  root : Inode
  cwd : Inode
  maxLinks : ℕ
  fresh : ∀ i, next ≤ i → nodes i = none

/-- The names of a path: repeated separators count as one. -/
def components (path : Path) : List Name := (path.splitOn separator).filter (· ≠ [])

def isAbs (path : Path) : Bool := path.head? = some separator

def trailing (path : Path) : Bool := path.getLast? = some separator

namespace FileSystem

variable (fs : FileSystem)

def isDir (i : Inode) : Bool :=
  match fs.nodes i with
  | some (.dir _ _) => true
  | _ => false

def start (path : Path) : Inode := if isAbs path then fs.root else fs.cwd

/-- Where one name leads from the directory `d`, a symbolic link not followed. -/
def entry (d : Inode) (name : Name) : Option Inode :=
  match fs.nodes d with
  | some (.dir parent entries) =>
    if name = dot then some d else if name = dotDot then some parent else entries.lookup name
  | _ => none

/-- Where the target of a link found in the directory `d` begins. -/
def linkBase (d : Inode) (target : Path) : Inode := if isAbs target then fs.root else d

/-- The directory that names lead to from `d`, with at most `links` symbolic links followed. -/
def walk (links : ℕ) (d : Inode) : List Name → Option Inode
  | [] => if fs.isDir d then some d else none
  | name :: rest =>
    match fs.entry d name with
    | none => none
    | some i => match fs.nodes i with
      | some (.dir _ _) => walk links i rest
      | some (.symlink target) =>
        match links with
        | 0 => none
        | links + 1 => walk links (fs.linkBase d target) (components target ++ rest)
      | _ => none
termination_by names => (links, names.length)

def resolve (path : Path) : Option Inode :=
  if path = [] then none else fs.walk fs.maxLinks (fs.start path) (components path)

/-- The directory and the name that a path stands for; the last name is not resolved. -/
def locate (path : Path) : Option (Inode × Name) :=
  match (components path).getLast? with
  | none => none
  | some name =>
    (fs.walk fs.maxLinks (fs.start path) (components path).dropLast).map fun d => (d, name)

/-- A new node under a new name of the directory `d`. -/
def link (d : Inode) (name : Name) (node : Node) : FileSystem where
  nodes i :=
    if i = fs.next then some node
    else match fs.nodes i with
      | some (.dir parent entries) =>
        if i = d then some (.dir parent ((name, fs.next) :: entries))
        else some (.dir parent entries)
      | other => other
  next := fs.next + 1
  root := fs.root
  cwd := fs.cwd
  maxLinks := fs.maxLinks
  fresh i h := by
    have hi : fs.next < i := h
    rw [if_neg (Nat.ne_of_gt hi), fs.fresh i (Nat.le_of_lt hi)]

/-- A file gets new content and a new mode. -/
def setFile (i : Inode) (change : List UInt8 → ℕ → Node) : FileSystem where
  nodes j := match fs.nodes j with
    | some (.file data mode) => if j = i then some (change data mode) else some (.file data mode)
    | other => other
  next := fs.next
  root := fs.root
  cwd := fs.cwd
  maxLinks := fs.maxLinks
  fresh j h := by rw [fs.fresh j h]

end FileSystem

/-- `alreadyExists` is what `os.IsExist` recognises. -/
inductive Errno where
  | alreadyExists
  | other
  deriving DecidableEq, Repr

inductive Change where
  | directory
  | file
  | mode
  | symlink
  deriving DecidableEq, Repr

/-- An entry that a call created, truncated, wrote or changed the mode of. -/
structure Touch where
  change : Change
  dir : Inode
  name : Name
  deriving DecidableEq, Repr

/-- An open file, with the entry that it was opened by. -/
structure Handle where
  inode : Inode
  dir : Inode
  name : Name

structure Effect (α : Type) where
  value : α
  fs : FileSystem
  touched : List Touch

namespace FileSystem

variable (fs : FileSystem)

def mkdir (path : Path) : Except Errno (Effect Unit) :=
  match fs.locate path with
  | none => .error (if path ≠ [] ∧ components path = [] then .alreadyExists else .other)
  | some (d, name) =>
    match fs.entry d name with
    | some _ => .error .alreadyExists
    | none => .ok ⟨(), fs.link d name (.dir d []), [⟨.directory, d, name⟩]⟩

/-- `lstat`: after a separator, or for `.` and `..`, the path can only mean a directory. -/
def lstat (path : Path) : Option Inode :=
  match fs.locate path with
  | none => if components path = [] then fs.resolve path else none
  | some (d, name) =>
    if trailing path = true ∨ name = dot ∨ name = dotDot then fs.resolve path else fs.entry d name

/-- `open` with `O_WRONLY|O_CREAT|O_TRUNC|O_NOFOLLOW`. -/
def openNoFollow (path : Path) (mode : ℕ) : Except Errno (Effect Handle) :=
  match fs.locate path with
  | none => .error .other
  | some (d, name) =>
    if trailing path then .error .other
    else match fs.entry d name with
      | none => .ok ⟨⟨fs.next, d, name⟩, fs.link d name (.file [] mode), [⟨.file, d, name⟩]⟩
      | some i => match fs.nodes i with
        | some (.file _ _) =>
          .ok ⟨⟨i, d, name⟩, fs.setFile i fun _ mode => .file [] mode, [⟨.file, d, name⟩]⟩
        | _ => .error .other

def write (fd : Handle) (data : List UInt8) : Effect Unit :=
  ⟨(), fs.setFile fd.inode fun old mode => .file (old ++ data) mode, [⟨.file, fd.dir, fd.name⟩]⟩

def fchmod (fd : Handle) (mode : ℕ) : Effect Unit :=
  ⟨(), fs.setFile fd.inode fun data _ => .file data mode, [⟨.mode, fd.dir, fd.name⟩]⟩

def symlink (target path : Path) : Except Errno (Effect Unit) :=
  match fs.locate path with
  | none => .error (if path ≠ [] ∧ components path = [] then .alreadyExists else .other)
  | some (d, name) =>
    match fs.entry d name with
    | some _ => .error .alreadyExists
    | none =>
      if trailing path = true ∨ target = [] then .error .other
      else .ok ⟨(), fs.link d name (.symlink target), [⟨.symlink, d, name⟩]⟩

end FileSystem

/-- Directories keep their entries and links their targets; nothing is removed. -/
structure Grows (fs fs' : FileSystem) : Prop where
  root : fs'.root = fs.root
  cwd : fs'.cwd = fs.cwd
  maxLinks : fs'.maxLinks = fs.maxLinks
  dirs : ∀ i parent entries, fs.nodes i = some (.dir parent entries) →
    ∃ entries', fs'.nodes i = some (.dir parent entries') ∧
      ∀ name j, entries.lookup name = some j → entries'.lookup name = some j
  links : ∀ i target, fs.nodes i = some (.symlink target) → fs'.nodes i = some (.symlink target)

variable {fs fs' fs'' : FileSystem}

theorem Grows.refl (fs : FileSystem) : Grows fs fs :=
  ⟨rfl, rfl, rfl, fun _ _ entries h => ⟨entries, h, fun _ _ h => h⟩, fun _ _ h => h⟩

theorem Grows.trans (h : Grows fs fs') (k : Grows fs' fs'') : Grows fs fs'' where
  root := k.root.trans h.root
  cwd := k.cwd.trans h.cwd
  maxLinks := k.maxLinks.trans h.maxLinks
  dirs := by
    intro i parent entries hi
    obtain ⟨entries', hi', he⟩ := h.dirs i parent entries hi
    obtain ⟨entries'', hi'', he'⟩ := k.dirs i parent entries' hi'
    exact ⟨entries'', hi'', fun name j hj => he' name j (he name j hj)⟩
  links := fun i target hi => k.links i target (h.links i target hi)

theorem isDir_iff {i : Inode} :
    fs.isDir i = true ↔ ∃ parent entries, fs.nodes i = some (.dir parent entries) := by
  unfold FileSystem.isDir
  split
  · rename_i parent entries h
    simp [h]
  · rename_i h
    simp only [Bool.false_eq_true, false_iff, not_exists]
    exact h

theorem Grows.isDir (h : Grows fs fs') {i : Inode} (hi : fs.isDir i = true) :
    fs'.isDir i = true := by
  obtain ⟨parent, entries, he⟩ := isDir_iff.mp hi
  obtain ⟨entries', he', _⟩ := h.dirs i parent entries he
  exact isDir_iff.mpr ⟨parent, entries', he'⟩

theorem Grows.entry (h : Grows fs fs') {d j : Inode} {name : Name}
    (he : fs.entry d name = some j) : fs'.entry d name = some j := by
  unfold FileSystem.entry at he ⊢
  split at he
  · rename_i parent entries hd
    obtain ⟨entries', hd', hl⟩ := h.dirs d parent entries hd
    rw [hd']
    dsimp only
    split_ifs at he ⊢
    · exact he
    · exact he
    · exact hl name j he
  · cases he

theorem Grows.start (h : Grows fs fs') (path : Path) : fs'.start path = fs.start path := by
  unfold FileSystem.start
  rw [h.root, h.cwd]

theorem Grows.linkBase (h : Grows fs fs') (d : Inode) (target : Path) :
    fs'.linkBase d target = fs.linkBase d target := by
  unfold FileSystem.linkBase
  rw [h.root]

theorem walk_dir {links : ℕ} {d i : Inode} {name : Name} {rest : List Name}
    (he : fs.entry d name = some i) (hi : fs.isDir i = true) :
    fs.walk links d (name :: rest) = fs.walk links i rest := by
  obtain ⟨parent, entries, hn⟩ := isDir_iff.mp hi
  rw [FileSystem.walk, he]
  dsimp only
  rw [hn]

theorem walk_symlink {links : ℕ} {d i : Inode} {name : Name} {rest : List Name} {target : Path}
    (he : fs.entry d name = some i) (hi : fs.nodes i = some (.symlink target)) :
    fs.walk (links + 1) d (name :: rest) =
      fs.walk links (fs.linkBase d target) (components target ++ rest) := by
  rw [FileSystem.walk, he]
  dsimp only
  rw [hi]

/-- A resolution that succeeded still leads to the same directory. -/
theorem Grows.walk (h : Grows fs fs') {links : ℕ} {d r : Inode} {names : List Name}
    (hw : fs.walk links d names = some r) : fs'.walk links d names = some r := by
  fun_induction FileSystem.walk fs links d names with
  | case1 links d hd =>
    rw [FileSystem.walk, if_pos (h.isDir hd)]
    exact hw
  | case2 => cases hw
  | case3 => cases hw
  | case4 links d name rest i he parent entries hn ih =>
    rw [walk_dir (h.entry he) (h.isDir (isDir_iff.mpr ⟨parent, entries, hn⟩))]
    exact ih hw
  | case5 => cases hw
  | case6 d name rest i he target hn links ih =>
    rw [walk_symlink (h.entry he) (h.links i target hn), h.linkBase]
    exact ih hw
  | case7 => cases hw

theorem isDir_of_entry {d i : Inode} {name : Name} (h : fs.entry d name = some i) :
    fs.isDir d = true := by
  unfold FileSystem.entry at h
  split at h
  · rename_i parent entries hd
    exact isDir_iff.mpr ⟨parent, entries, hd⟩
  · cases h

theorem entry_dot {d : Inode} (hd : fs.isDir d = true) : fs.entry d dot = some d := by
  obtain ⟨parent, entries, hn⟩ := isDir_iff.mp hd
  rw [FileSystem.entry, hn]
  exact if_pos rfl

theorem walk_none {links : ℕ} {d : Inode} (names : List Name) (hd : ¬ fs.isDir d = true) :
    fs.walk links d names = none := by
  cases names with
  | nil => rw [FileSystem.walk, if_neg hd]
  | cons name rest =>
    have he : fs.entry d name = none :=
      Option.eq_none_iff_forall_ne_some.mpr fun i h => hd (isDir_of_entry h)
    rw [FileSystem.walk, he]

/-- A `.` in a path leads nowhere else. -/
theorem walk_filter_dot (links : ℕ) (d : Inode) (names : List Name) :
    fs.walk links d (names.filter (· ≠ dot)) = fs.walk links d names := by
  induction links using Nat.strongRecOn generalizing d names with
  | _ links ih =>
    induction names generalizing d with
    | nil => rfl
    | cons name rest ihr =>
      by_cases hn : name = dot
      · rw [List.filter_cons_of_neg (by simp [hn]), ihr, hn]
        by_cases hd : fs.isDir d = true
        · rw [walk_dir (entry_dot hd) hd]
        · rw [walk_none _ hd, walk_none _ hd]
      · rw [List.filter_cons_of_pos (by simp [hn]), FileSystem.walk, FileSystem.walk]
        cases fs.entry d name with
        | none => rfl
        | some i =>
          dsimp only
          cases fs.nodes i with
          | none => rfl
          | some node =>
            cases node with
            | dir parent entries => exact ihr i
            | file data mode => rfl
            | symlink target =>
              cases links with
              | zero => rfl
              | succ links =>
                have ih := ih links (Nat.lt_succ_self links) (fs.linkBase d target)
                dsimp only
                rw [← ih (components target ++ rest), ← ih (components target ++ rest.filter _),
                  List.filter_append, List.filter_append, List.filter_filter]
                simp

/-- One more name, if it leads to a real directory. -/
theorem walk_snoc {links : ℕ} {d r i : Inode} {names : List Name} {name : Name}
    (hw : fs.walk links d names = some r) (he : fs.entry r name = some i)
    (hi : fs.isDir i = true) : fs.walk links d (names ++ [name]) = some i := by
  fun_induction FileSystem.walk fs links d names with
  | case1 links d hd =>
    obtain rfl := Option.some.inj hw
    rw [List.nil_append, walk_dir he hi, FileSystem.walk, if_pos hi]
  | case2 => cases hw
  | case3 => cases hw
  | case4 links d name' rest j hj parent entries hn ih =>
    rw [List.cons_append, walk_dir hj (isDir_iff.mpr ⟨parent, entries, hn⟩)]
    exact ih hw
  | case5 => cases hw
  | case6 d name' rest j hj target hn links ih =>
    rw [List.cons_append, walk_symlink hj hn, ← List.append_assoc]
    exact ih hw
  | case7 => cases hw

/-- What a resolution leads to is a directory. -/
theorem walk_isDir {links : ℕ} {d r : Inode} {names : List Name}
    (hw : fs.walk links d names = some r) : fs.isDir r = true := by
  fun_induction FileSystem.walk fs links d names with
  | case1 links d hd => exact Option.some.inj hw ▸ hd
  | case2 => cases hw
  | case3 => cases hw
  | case4 links d name rest i he parent entries hn ih => exact ih hw
  | case5 => cases hw
  | case6 d name rest i he target hn links ih => exact ih hw
  | case7 => cases hw

/-- `x` is `d`, or reached from it through entries that are directories themselves. -/
inductive Below (fs : FileSystem) (d : Inode) : Inode → Prop where
  | refl : Below fs d d
  | step {x y : Inode} {name : Name} (h : Below fs d x) (ne : name ≠ dot) (ne' : name ≠ dotDot)
      (entry : fs.entry x name = some y) (isDir : fs.isDir y = true) : Below fs d y

theorem Below.grows {d x : Inode} (h : Below fs d x) (hg : Grows fs fs') : Below fs' d x := by
  induction h with
  | refl => exact .refl
  | step _ ne ne' he hd ih => exact ih.step ne ne' (hg.entry he) (hg.isDir hd)

theorem grows_link {d : Inode} {name : Name} (he : fs.entry d name = none) (node : Node) :
    Grows fs (fs.link d name node) where
  root := rfl
  cwd := rfl
  maxLinks := rfl
  dirs := by
    intro i parent entries hi
    have hne : i ≠ fs.next := by
      rintro rfl
      rw [fs.fresh _ (Nat.le_refl _)] at hi
      cases hi
    simp only [FileSystem.link, if_neg hne, hi]
    by_cases hd : i = d
    · subst i
      rw [if_pos rfl]
      refine ⟨_, rfl, ?_⟩
      intro n j hj
      have hn : n ≠ name := by
        rintro rfl
        simp only [FileSystem.entry, hi] at he
        split_ifs at he
        rw [hj] at he
        cases he
      rw [List.lookup_cons, beq_false_of_ne hn]
      exact hj
    · rw [if_neg hd]
      exact ⟨entries, rfl, fun _ _ h => h⟩
  links := by
    intro i target hi
    have hne : i ≠ fs.next := by
      rintro rfl
      rw [fs.fresh _ (Nat.le_refl _)] at hi
      cases hi
    simp only [FileSystem.link, if_neg hne, hi]

theorem grows_setFile (i : Inode) (change : List UInt8 → ℕ → Node) :
    Grows fs (fs.setFile i change) where
  root := rfl
  cwd := rfl
  maxLinks := rfl
  dirs := fun j parent entries hj => ⟨entries, by simp [FileSystem.setFile, hj], fun _ _ h => h⟩
  links := fun j target hj => by simp [FileSystem.setFile, hj]

/-- In a directory `.` and `..` are always taken. -/
theorem ordinary_of_entry_none {d : Inode} {name : Name} (hd : fs.isDir d = true)
    (he : fs.entry d name = none) : name ≠ dot ∧ name ≠ dotDot := by
  obtain ⟨parent, entries, hn⟩ := isDir_iff.mp hd
  simp only [FileSystem.entry, hn] at he
  split_ifs at he with h h'
  exact ⟨h, h'⟩

theorem nodes_link_next (d : Inode) (name : Name) (node : Node) :
    (fs.link d name node).nodes fs.next = some node := if_pos rfl

theorem entry_link {d : Inode} {name : Name} (hd : fs.isDir d = true)
    (he : fs.entry d name = none) (node : Node) :
    (fs.link d name node).entry d name = some fs.next := by
  obtain ⟨h, h'⟩ := ordinary_of_entry_none hd he
  obtain ⟨parent, entries, hn⟩ := isDir_iff.mp hd
  have hne : d ≠ fs.next := by
    rintro rfl
    rw [fs.fresh _ (Nat.le_refl _)] at hn
    cases hn
  simp [FileSystem.entry, FileSystem.link, hne, hn, h, h']

/-- Nothing lies below an empty directory but itself. -/
theorem below_empty {d x parent : Inode} (hd : fs.nodes d = some (.dir parent []))
    (h : Below fs d x) : x = d := by
  induction h with
  | refl => rfl
  | step _ ne ne' he _ ih =>
    rw [ih, FileSystem.entry, hd] at he
    dsimp only at he
    rw [if_neg ne, if_neg ne'] at he
    cases he

/-- A node that is no directory. -/
def Leaf (node : Node) : Prop := ∀ parent entries, node ≠ .dir parent entries

theorem isDir_next : fs.isDir fs.next = false := by
  rw [FileSystem.isDir, fs.fresh _ (Nat.le_refl _)]

theorem isDir_link {d : Inode} {name : Name} {node : Node} (hn : Leaf node) (i : Inode) :
    (fs.link d name node).isDir i = fs.isDir i := by
  by_cases hi : i = fs.next
  · rw [hi, isDir_next]
    exact Bool.eq_false_iff.mpr fun h => by
      obtain ⟨parent, entries, hp⟩ := isDir_iff.mp h
      rw [nodes_link_next] at hp
      exact hn parent entries (Option.some.inj hp)
  · unfold FileSystem.isDir
    simp only [FileSystem.link, if_neg hi]
    cases fs.nodes i with
    | none => rfl
    | some other =>
      cases other with
      | dir parent entries => by_cases hd : i = d <;> simp [hd]
      | file data mode => rfl
      | symlink target => rfl

theorem entry_of_link {d x y : Inode} {name n : Name} {node : Node} (hn : Leaf node)
    (he : (fs.link d name node).entry x n = some y) (hy : y ≠ fs.next) :
    fs.entry x n = some y := by
  have hx : fs.isDir x = true := isDir_link hn x ▸ isDir_of_entry he
  obtain ⟨parent, entries, hp⟩ := isDir_iff.mp hx
  have hne : x ≠ fs.next := by
    rintro rfl
    rw [isDir_next] at hx
    cases hx
  unfold FileSystem.entry at he ⊢
  simp only [FileSystem.link, if_neg hne, hp] at he ⊢
  by_cases hd : x = d
  · simp only [if_pos hd] at he
    split_ifs at he ⊢
    · exact he
    · exact he
    · rw [List.lookup_cons] at he
      cases hb : n == name with
      | true =>
        rw [hb] at he
        exact absurd (Option.some.inj he).symm hy
      | false =>
        rw [hb] at he
        exact he
  · rw [if_neg hd] at he
    exact he

/-- An entry that is no directory leads nowhere. -/
theorem below_of_link {d root x : Inode} {name : Name} {node : Node} (hn : Leaf node)
    (h : Below (fs.link d name node) root x) : Below fs root x := by
  induction h with
  | refl => exact .refl
  | @step _ y _ _ ne ne' he hd ih =>
    rw [isDir_link hn] at hd
    have hy : y ≠ fs.next := by
      rintro rfl
      rw [isDir_next] at hd
      cases hd
    exact ih.step ne ne' (entry_of_link hn he hy) hd

theorem locate_eq_some {path : Path} {d : Inode} {name : Name} :
    fs.locate path = some (d, name) ↔ ∃ names, components path = names ++ [name] ∧
      fs.walk fs.maxLinks (fs.start path) names = some d := by
  unfold FileSystem.locate
  rcases List.eq_nil_or_concat (components path) with hc | ⟨names, last, hc⟩
  · simp [hc]
  · rw [hc, List.concat_eq_append, List.getLast?_concat, List.dropLast_concat]
    simp only [Option.map_eq_some_iff, Prod.mk.injEq]
    constructor
    · rintro ⟨_, hw, rfl, rfl⟩
      exact ⟨names, rfl, hw⟩
    · rintro ⟨names', he, hw⟩
      obtain ⟨rfl, hl⟩ := List.append_inj' he rfl
      exact ⟨d, hw, rfl, List.head_eq_of_cons_eq hl⟩

theorem isDir_of_locate {path : Path} {d : Inode} {name : Name}
    (h : fs.locate path = some (d, name)) : fs.isDir d = true := by
  obtain ⟨names, _, hw⟩ := locate_eq_some.mp h
  exact walk_isDir hw

theorem Grows.locate (h : Grows fs fs') {path : Path} {d : Inode} {name : Name}
    (hl : fs.locate path = some (d, name)) : fs'.locate path = some (d, name) := by
  obtain ⟨names, hc, hw⟩ := locate_eq_some.mp hl
  rw [locate_eq_some, h.maxLinks, h.start]
  exact ⟨names, hc, h.walk hw⟩

theorem Grows.resolve (h : Grows fs fs') {path : Path} {d : Inode}
    (hr : fs.resolve path = some d) : fs'.resolve path = some d := by
  unfold FileSystem.resolve at hr ⊢
  split_ifs at hr ⊢
  rw [h.maxLinks, h.start]
  exact h.walk hr

theorem Grows.lstat (h : Grows fs fs') {path : Path} {i : Inode}
    (hl : fs.lstat path = some i) : fs'.lstat path = some i := by
  unfold FileSystem.lstat at hl
  split at hl
  · split_ifs at hl with hc
    have hn : fs'.locate path = none := by simp [FileSystem.locate, hc]
    rw [FileSystem.lstat, hn]
    dsimp only
    rw [if_pos hc]
    exact h.resolve hl
  · rename_i d name hs
    rw [FileSystem.lstat, h.locate hs]
    dsimp only
    split_ifs at hl ⊢
    · exact h.resolve hl
    · exact h.entry hl

theorem walk_of_resolve {path : Path} {d : Inode} (h : fs.resolve path = some d) :
    fs.walk fs.maxLinks (fs.start path) (components path) = some d := by
  unfold FileSystem.resolve at h
  split_ifs at h
  exact h

/-- What `lstat` finds to be a directory is where its names lead. -/
theorem walk_of_lstat {path : Path} {d : Inode} (h : fs.lstat path = some d)
    (hd : fs.isDir d = true) :
    fs.walk fs.maxLinks (fs.start path) (components path) = some d := by
  unfold FileSystem.lstat at h
  split at h
  · split_ifs at h
    exact walk_of_resolve h
  · rename_i parent name hp
    obtain ⟨names, hc, hw⟩ := locate_eq_some.mp hp
    split_ifs at h
    · exact walk_of_resolve h
    · rw [hc]
      exact walk_snoc hw h hd

theorem mkdir_eq_ok {path : Path} {e : Effect Unit} :
    fs.mkdir path = .ok e ↔ ∃ d name, fs.locate path = some (d, name) ∧
      fs.entry d name = none ∧
      e = ⟨(), fs.link d name (.dir d []), [⟨.directory, d, name⟩]⟩ := by
  unfold FileSystem.mkdir
  cases hl : fs.locate path with
  | none => simp
  | some p =>
    obtain ⟨d, name⟩ := p
    cases he : fs.entry d name with
    | none => simp [he, eq_comm]
    | some i => simp [he]

section
variable {path : Path} {d i : Inode} {name : Name} (hl : fs.locate path = some (d, name))
  (he : fs.entry d name = some i)
include hl he

theorem mkdir_taken : fs.mkdir path = .error .alreadyExists := by
  rw [FileSystem.mkdir, hl]
  dsimp only
  rw [he]

theorem symlink_taken (target : Path) : fs.symlink target path = .error .alreadyExists := by
  rw [FileSystem.symlink, hl]
  dsimp only
  rw [he]

/-- What is opened in place of a new file is a regular file. -/
theorem openNoFollow_taken {mode : ℕ} {e : Effect Handle} :
    fs.openNoFollow path mode = .ok e ↔
      trailing path = false ∧ (∃ data old, fs.nodes i = some (.file data old)) ∧
        e = ⟨⟨i, d, name⟩, fs.setFile i fun _ mode => .file [] mode, [⟨.file, d, name⟩]⟩ := by
  rw [FileSystem.openNoFollow, hl]
  dsimp only
  rw [he]
  cases ht : trailing path with
  | true => simp
  | false =>
    cases hn : fs.nodes i with
    | none => simp [hn]
    | some node => cases node <;> simp [hn, eq_comm]

end

/-- What a path already names is why its directory cannot be made. -/
theorem mkdir_error {path : Path} {e : Errno} {i : Inode} (hm : fs.mkdir path = .error e)
    (hl : fs.lstat path = some i) : e = .alreadyExists := by
  unfold FileSystem.mkdir at hm
  unfold FileSystem.lstat at hl
  cases hp : fs.locate path with
  | none =>
    rw [hp] at hm hl
    dsimp only at hm hl
    split_ifs at hl with hc
    have hne : path ≠ [] := by
      rintro rfl
      cases hl
    rw [if_pos ⟨hne, hc⟩] at hm
    exact (Except.error.inj hm).symm
  | some p =>
    rw [hp] at hm
    dsimp only at hm
    cases he : fs.entry p.1 p.2 with
    | none => rw [he] at hm; cases hm
    | some j => rw [he] at hm; exact (Except.error.inj hm).symm

/-- A directory that was made is what its path names. -/
theorem mkdir_lstat {path : Path} {e : Effect Unit} (h : fs.mkdir path = .ok e) :
    e.fs.lstat path = some fs.next ∧ e.fs.isDir fs.next = true := by
  obtain ⟨d, name, hl, he, rfl⟩ := mkdir_eq_ok.mp h
  have hg : Grows fs (fs.link d name (.dir d [])) := grows_link he _
  have hd : fs.isDir d = true := isDir_of_locate hl
  have hn : (fs.link d name (.dir d [])).isDir fs.next = true :=
    isDir_iff.mpr ⟨d, [], nodes_link_next d name _⟩
  refine ⟨?_, hn⟩
  obtain ⟨h₁, h₂⟩ := ordinary_of_entry_none hd he
  unfold FileSystem.lstat
  rw [hg.locate hl]
  dsimp only
  split_ifs with ht
  · obtain ⟨names, hc, hw⟩ := locate_eq_some.mp (hg.locate hl)
    have hp : path ≠ [] := by
      rintro rfl
      simp [components] at hc
    rw [FileSystem.resolve, if_neg hp, hc]
    exact walk_snoc hw (entry_link hd he _) hn
  · exact entry_link hd he _

end PosixFileSystem
