import Overthinkin.PosixCalls
import Overthinkin.PosixDescent

/-! Paths followed through their last link too, and entries that are removed. What a path leads to
depends on the entries of its `trail` and on no others. -/
namespace PosixFileSystem

/-- The names of a path; a separator at the end asks for a directory, as a last `.` does. -/
def steps (path : Path) : List Name := components path ++ if trailing path then [dot] else []

namespace FileSystem

variable (fs : FileSystem)

/-- The directory and the name that names end at, no link left to follow. The name may be free. -/
def lookup (links : ℕ) (d : Inode) : List Name → Option (Inode × Name)
  | [] => none
  | name :: rest =>
    match fs.entry d name with
    | none => if rest = [] ∧ fs.isDir d = true then some (d, name) else none
    | some i => match fs.nodes i with
      | none => none
      | some (.file _ _) => if rest = [] then some (d, name) else none
      | some (.dir _ _) => if rest = [] then some (d, name) else lookup links i rest
      | some (.symlink target) =>
        match links with
        | 0 => none
        | links + 1 => lookup links (fs.linkBase d target) (steps target ++ rest)
termination_by names => (links, names.length)

/-- The entries that a resolution passes through. -/
def trail (links : ℕ) (d : Inode) : List Name → List (Inode × Name)
  | [] => []
  | name :: rest =>
    (d, name) :: match fs.entry d name with
      | none => []
      | some i => match fs.nodes i with
        | none => []
        | some (.file _ _) => []
        | some (.dir _ _) => trail links i rest
        | some (.symlink target) =>
          match links with
          | 0 => []
          | links + 1 => trail links (fs.linkBase d target) (steps target ++ rest)
termination_by names => (links, names.length)

def reach (links : ℕ) (d : Inode) (names : List Name) : Option Inode :=
  (fs.lookup links d names).bind fun p => fs.entry p.1 p.2

def stat (path : Path) : Option Inode := fs.reach fs.maxLinks (fs.start path) (steps path)

/-- The node stays, for who has it open. -/
def remove (d : Inode) (name : Name) : FileSystem where
  nodes i := match fs.nodes i with
    | some (.dir parent entries) =>
      if i = d then some (.dir parent (entries.filter fun p => p.1 ≠ name))
      else some (.dir parent entries)
    | other => other
  next := fs.next
  root := fs.root
  cwd := fs.cwd
  maxLinks := fs.maxLinks
  fresh i h := by rw [fs.fresh i h]

def unlink (path : Path) : Except Errno (Effect Unit) :=
  match fs.locate path with
  | none => .error .other
  | some (d, name) =>
    if trailing path = true ∨ name = dot ∨ name = dotDot then .error .other
    else match fs.entry d name with
      | none => .error .other
      | some i => if fs.isDir i then .error .other else .ok ⟨(), fs.remove d name, []⟩

/-- Nothing is where a path ends, not even a link. -/
def Free (path : Path) : Prop := ∀ p, fs.locate path = some p → fs.entry p.1 p.2 = none

/-- `open` with `O_RDONLY`. -/
def openRead (path : Path) : Except Errno (Effect Handle) :=
  match fs.lookup fs.maxLinks (fs.start path) (steps path) with
  | none => .error .other
  | some (d, name) =>
    match fs.entry d name with
    | none => .error .other
    | some i => .ok ⟨⟨i, d, name⟩, fs, []⟩

/-- `open` with `O_WRONLY|O_CREAT|O_TRUNC`. -/
def openTrunc (path : Path) (mode : ℕ) : Except Errno (Effect Handle) :=
  match fs.lookup fs.maxLinks (fs.start path) (steps path) with
  | none => .error .other
  | some (d, name) =>
    match fs.entry d name with
    | none => .ok ⟨⟨fs.next, d, name⟩, fs.link d name (.file [] mode), [⟨.file, d, name⟩]⟩
    | some i => match fs.nodes i with
      | some (.file _ _) =>
        .ok ⟨⟨i, d, name⟩, fs.setFile i fun _ mode => .file [] mode, [⟨.file, d, name⟩]⟩
      | _ => .error .other

end FileSystem

variable {fs fs' fs'' : FileSystem} {links : ℕ} {d i : Inode} {name : Name} {names : List Name}
  {path : Path}

/-! ### Nodes of the same sort -/

inductive SameSort : Node → Node → Prop where
  | dir (parent : Inode) (entries entries' : List (Name × Inode)) :
      SameSort (.dir parent entries) (.dir parent entries')
  | file (data data' : List UInt8) (mode mode' : ℕ) : SameSort (.file data mode) (.file data' mode')
  | symlink (target : Path) : SameSort (.symlink target) (.symlink target)

theorem SameSort.refl (node : Node) : SameSort node node := by
  cases node with
  | dir parent entries => exact .dir parent entries entries
  | file data mode => exact .file data data mode mode
  | symlink target => exact .symlink target

theorem SameSort.trans {a b c : Node} (h : SameSort a b) (k : SameSort b c) : SameSort a c := by
  cases h with
  | dir => cases k with | dir => exact .dir _ _ _
  | file => cases k with | file => exact .file _ _ _ _
  | symlink => exact k

/-- No node goes away or becomes one of another sort. Entries may come and go. -/
structure Retains (fs fs' : FileSystem) : Prop where
  root : fs'.root = fs.root
  cwd : fs'.cwd = fs.cwd
  maxLinks : fs'.maxLinks = fs.maxLinks
  nodes : ∀ i node, fs.nodes i = some node → ∃ node', fs'.nodes i = some node' ∧ SameSort node node'

theorem Retains.refl (fs : FileSystem) : Retains fs fs :=
  ⟨rfl, rfl, rfl, fun _ node h => ⟨node, h, SameSort.refl node⟩⟩

theorem Retains.trans (h : Retains fs fs') (k : Retains fs' fs'') : Retains fs fs'' where
  root := k.root.trans h.root
  cwd := k.cwd.trans h.cwd
  maxLinks := k.maxLinks.trans h.maxLinks
  nodes := by
    intro i node hi
    obtain ⟨node', hi', ha⟩ := h.nodes i node hi
    obtain ⟨node'', hi'', ha'⟩ := k.nodes i node' hi'
    exact ⟨node'', hi'', ha.trans ha'⟩

theorem Retains.start (h : Retains fs fs') (path : Path) : fs'.start path = fs.start path := by
  unfold FileSystem.start
  rw [h.root, h.cwd]

theorem Retains.linkBase (h : Retains fs fs') (d : Inode) (target : Path) :
    fs'.linkBase d target = fs.linkBase d target := by
  unfold FileSystem.linkBase
  rw [h.root]

theorem Retains.symlink (h : Retains fs fs') {target : Path}
    (hi : fs.nodes i = some (.symlink target)) : fs'.nodes i = some (.symlink target) := by
  obtain ⟨_, hi', ha⟩ := h.nodes i _ hi
  cases ha with
  | symlink => exact hi'

theorem retains_link (d : Inode) (name : Name) (node : Node) :
    Retains fs (fs.link d name node) where
  root := rfl
  cwd := rfl
  maxLinks := rfl
  nodes := by
    intro i other hi
    obtain ⟨other', hi', rfl | ⟨parent, entries, entries', rfl, rfl⟩⟩ := nodes_link d name node hi
    · exact ⟨_, hi', SameSort.refl _⟩
    · exact ⟨_, hi', .dir parent entries entries'⟩

theorem retains_setFile (j : Inode) {change : List UInt8 → ℕ → Node}
    (hc : ∀ data mode, ∃ data' mode', change data mode = .file data' mode') :
    Retains fs (fs.setFile j change) where
  root := rfl
  cwd := rfl
  maxLinks := rfl
  nodes := by
    intro i node hi
    simp only [FileSystem.setFile, hi]
    cases node with
    | dir => exact ⟨_, rfl, SameSort.refl _⟩
    | symlink => exact ⟨_, rfl, SameSort.refl _⟩
    | file data mode =>
      obtain ⟨data', mode', h⟩ := hc data mode
      by_cases hj : i = j
      · exact ⟨_, if_pos hj, h ▸ .file _ _ _ _⟩
      · exact ⟨_, if_neg hj, SameSort.refl _⟩

theorem nodes_remove (d : Inode) (name : Name) {node : Node} (hi : fs.nodes i = some node) :
    ∃ node', (fs.remove d name).nodes i = some node' ∧ SameSort node node' ∧
      ((∀ parent entries, node ≠ .dir parent entries) → node' = node) := by
  simp only [FileSystem.remove, hi]
  cases node with
  | dir parent entries =>
    by_cases hd : i = d
    · exact ⟨_, if_pos hd, .dir _ _ _, fun h => (h _ _ rfl).elim⟩
    · exact ⟨_, if_neg hd, .dir _ _ _, fun h => (h _ _ rfl).elim⟩
  | file data mode => exact ⟨_, rfl, SameSort.refl _, fun _ => rfl⟩
  | symlink target => exact ⟨_, rfl, SameSort.refl _, fun _ => rfl⟩

theorem retains_remove (d : Inode) (name : Name) : Retains fs (fs.remove d name) where
  root := rfl
  cwd := rfl
  maxLinks := rfl
  nodes := by
    intro i node hi
    obtain ⟨node', hi', ha, -⟩ := nodes_remove d name hi
    exact ⟨node', hi', ha⟩

/-! ### Removal -/

theorem lookup_filter (entries : List (Name × Inode)) (name n : Name) :
    (entries.filter fun p => p.1 ≠ name).lookup n =
      if n = name then none else entries.lookup n := by
  induction entries with
  | nil => split <;> rfl
  | cons p rest ih =>
    by_cases hp : p.1 = name
    · rw [List.filter_cons_of_neg (by simp [hp]), ih, List.lookup_cons, hp]
      by_cases hn : n = name
      · rw [if_pos hn, if_pos hn]
      · rw [if_neg hn, if_neg hn, beq_false_of_ne hn]
    · rw [List.filter_cons_of_pos (by simp [hp]), List.lookup_cons, List.lookup_cons, ih]
      by_cases hn : n = name
      · rw [if_pos hn, if_pos hn, hn, beq_false_of_ne (Ne.symm hp)]
      · rw [if_neg hn, if_neg hn]

theorem child_remove (d x : Inode) (name n : Name) :
    (fs.remove d name).child x n = if x = d ∧ n = name then none else fs.child x n := by
  simp only [FileSystem.child, FileSystem.remove]
  cases fs.nodes x with
  | none => exact (ite_self _).symm
  | some node =>
    cases node with
    | file => exact (ite_self _).symm
    | symlink => exact (ite_self _).symm
    | dir parent entries =>
      by_cases hx : x = d
      · simp only [hx, if_true, true_and, lookup_filter]
      · simp only [if_neg hx, if_neg fun h : x = d ∧ n = name => hx h.1]

theorem isDir_remove (d : Inode) (name : Name) (i : Inode) :
    (fs.remove d name).isDir i = fs.isDir i := by
  simp only [FileSystem.isDir, FileSystem.remove]
  cases fs.nodes i with
  | none => rfl
  | some node =>
    cases node with
    | dir => by_cases hi : i = d <;> simp [hi]
    | file => rfl
    | symlink => rfl

/-- Without the removal there is only more. -/
theorem grows_remove (d : Inode) (name : Name) : Grows (fs.remove d name) fs where
  root := rfl
  cwd := rfl
  maxLinks := rfl
  dirs := by
    intro i parent entries hi
    simp only [FileSystem.remove] at hi
    cases hn : fs.nodes i with
    | none => rw [hn] at hi; cases hi
    | some node =>
      cases node with
      | file => rw [hn] at hi; cases hi
      | symlink => rw [hn] at hi; cases hi
      | dir parent' entries' =>
        simp only [hn] at hi
        by_cases hd : i = d
        · rw [if_pos hd] at hi
          cases hi
          refine ⟨_, rfl, fun n j hj => ?_⟩
          rw [lookup_filter] at hj
          split_ifs at hj
          exact hj
        · rw [if_neg hd] at hi
          cases hi
          exact ⟨_, rfl, fun _ _ hj => hj⟩
  links := by
    intro i target hi
    simp only [FileSystem.remove] at hi
    cases hn : fs.nodes i with
    | none => rw [hn] at hi; cases hi
    | some node =>
      cases node with
      | file => rw [hn] at hi; cases hi
      | symlink => rw [hn] at hi; exact hi
      | dir => simp only [hn] at hi; split_ifs at hi <;> cases hi

theorem entry_remove {x : Inode} {n : Name} (h : (x, n) ≠ (d, name)) :
    (fs.remove d name).entry x n = fs.entry x n := by
  have hd : (fs.remove d name).isDir x = fs.isDir x := isDir_remove d name x
  by_cases hx : fs.isDir x = true
  · obtain ⟨parent, entries, hn⟩ := isDir_iff.mp hx
    obtain ⟨node', hn', ha, -⟩ := nodes_remove d name hn
    cases ha with
    | dir _ _ entries' =>
      have hc : (fs.remove d name).child x n = fs.child x n := by
        rw [child_remove, if_neg fun he => h (Prod.ext he.1 he.2)]
      rw [FileSystem.child, FileSystem.child, hn, hn'] at hc
      rw [FileSystem.entry, FileSystem.entry, hn, hn']
      dsimp only at hc ⊢
      rw [hc]
  · have hnone : ∀ {fs : FileSystem}, ¬ fs.isDir x = true → fs.entry x n = none := fun hx =>
      Option.eq_none_iff_forall_ne_some.mpr fun i hi => hx (isDir_of_entry hi)
    rw [hnone hx, hnone (hd ▸ hx)]

/-! ### Resolution along a trail -/

theorem walk_steps (links : ℕ) (d : Inode) (target : Path) (rest : List Name) :
    fs.walk links d (steps target ++ rest) = fs.walk links d (components target ++ rest) := by
  rw [← walk_filter_dot, ← walk_filter_dot _ _ (components target ++ rest), steps]
  split <;> simp

theorem isDir_of_lookup {rest : List Name} {p : Inode × Name}
    (h : fs.lookup links d (name :: rest) = some p) : fs.isDir d = true := by
  cases he : fs.entry d name with
  | none =>
    rw [FileSystem.lookup, he] at h
    dsimp only at h
    split_ifs at h with hr
    exact hr.2
  | some i => exact isDir_of_entry he

/-- A lookup that ends at its first name. -/
theorem lookup_single {n : Name} {p : Inode × Name} (h : fs.lookup links d [n] = some p)
    (hall : [n] = names ++ [name]) :
    ∃ x links', fs.walk links d names = some x ∧ fs.lookup links' x [name] = some p := by
  obtain ⟨rfl, hn⟩ := List.append_inj' (hall.symm.trans (List.nil_append [n]).symm) rfl
  rw [hn]
  exact ⟨d, links, by rw [FileSystem.walk, if_pos (isDir_of_lookup h)], h⟩

/-- The names before the last lead to a directory, and the last is looked up there. -/
theorem lookup_concat {all : List Name} {p : Inode × Name} (h : fs.lookup links d all = some p)
    (hall : all = names ++ [name]) :
    ∃ x links', fs.walk links d names = some x ∧ fs.lookup links' x [name] = some p := by
  induction links, d, all using FileSystem.lookup.induct fs generalizing names with
  | case1 => simp at hall
  | case2 links d n rest he hr =>
    rw [hr.1] at hall h
    exact lookup_single h hall
  | case3 links d n rest he hr =>
    rw [FileSystem.lookup, he] at h
    simp only [if_neg hr] at h
    cases h
  | case4 links d n rest i he hn =>
    rw [FileSystem.lookup, he] at h
    simp only [hn] at h
    cases h
  | case5 => exact lookup_single h hall
  | case6 links d n rest i he data mode hn hr =>
    rw [FileSystem.lookup, he] at h
    simp only [hn, if_neg hr] at h
    cases h
  | case7 => exact lookup_single h hall
  | case9 d n rest i he target hn =>
    rw [FileSystem.lookup, he] at h
    simp only [hn] at h
    cases h
  | case8 links d n rest i he parent entries hn hr ih =>
    cases names with
    | nil =>
      rw [hall] at h
      exact lookup_single h rfl
    | cons n' names =>
      obtain ⟨rfl, rfl⟩ := List.cons.inj hall
      rw [FileSystem.lookup, he] at h
      simp only [hn, if_neg hr] at h
      rw [walk_dir he (isDir_iff.mpr ⟨parent, entries, hn⟩)]
      exact ih h rfl
  | case10 d n rest i he target hn links ih =>
    cases names with
    | nil =>
      rw [hall] at h
      exact lookup_single h rfl
    | cons n' names =>
      obtain ⟨rfl, rfl⟩ := List.cons.inj hall
      rw [FileSystem.lookup, he] at h
      simp only [hn] at h
      rw [walk_symlink he hn, ← walk_steps]
      exact ih h (List.append_assoc _ _ _).symm

theorem lookup_free (he : fs.entry d name = none) {p : Inode × Name}
    (h : fs.lookup links d [name] = some p) : p = (d, name) := by
  rw [FileSystem.lookup, he] at h
  dsimp only at h
  split_ifs at h
  exact (Option.some.inj h).symm

theorem steps_of_not_trailing (h : trailing path = false) : steps path = components path := by
  rw [steps, h]
  exact List.append_nil _

/-- Where a path names a free entry, a lookup comes to that entry, if anywhere. -/
theorem lookup_of_locate (hl : fs.locate path = some (d, name))
    (ht : trailing path = false) {p : Inode × Name}
    (h : fs'.lookup fs'.maxLinks (fs'.start path) (steps path) = some p)
    (hg : Grows fs' fs) (he : fs'.entry d name = none) : p = (d, name) := by
  obtain ⟨names, hc, hw⟩ := locate_eq_some.mp hl
  rw [steps_of_not_trailing ht] at h
  obtain ⟨y, links', hy, hp⟩ := lookup_concat h hc
  rw [hg.maxLinks, hg.start] at hw
  obtain rfl := Option.some.inj ((hg.walk hy).symm.trans hw)
  exact lookup_free he hp

theorem stat_of_free (hl : fs.locate path = some (d, name)) (ht : trailing path = false)
    (he : fs.entry d name = none) : fs.stat path = none := by
  rw [FileSystem.stat, FileSystem.reach]
  cases h : fs.lookup fs.maxLinks (fs.start path) (steps path) with
  | none => rfl
  | some p =>
    rw [lookup_of_locate hl ht h (Grows.refl fs) he]
    exact he

theorem head_mem_trail (rest : List Name) : (d, name) ∈ fs.trail links d (name :: rest) := by
  rw [FileSystem.trail]
  exact List.mem_cons_self

theorem trail_dir {parent : Inode} {entries : List (Name × Inode)} {rest : List Name}
    (he : fs.entry d name = some i) (hi : fs.nodes i = some (.dir parent entries)) :
    fs.trail links d (name :: rest) = (d, name) :: fs.trail links i rest := by
  rw [FileSystem.trail, he]
  simp only [hi]

theorem trail_file {data : List UInt8} {mode : ℕ} {rest : List Name}
    (he : fs.entry d name = some i) (hi : fs.nodes i = some (.file data mode)) :
    fs.trail links d (name :: rest) = [(d, name)] := by
  rw [FileSystem.trail, he]
  simp only [hi]

theorem trail_symlink {target : Path} {rest : List Name}
    (he : fs.entry d name = some i) (hi : fs.nodes i = some (.symlink target)) :
    fs.trail (links + 1) d (name :: rest) =
      (d, name) :: fs.trail links (fs.linkBase d target) (steps target ++ rest) := by
  rw [FileSystem.trail, he]
  simp only [hi]

theorem lookup_dir {parent : Inode} {entries : List (Name × Inode)} {rest : List Name}
    (he : fs.entry d name = some i) (hi : fs.nodes i = some (.dir parent entries)) :
    fs.lookup links d (name :: rest) =
      if rest = [] then some (d, name) else fs.lookup links i rest := by
  rw [FileSystem.lookup, he]
  simp only [hi]

theorem lookup_file {data : List UInt8} {mode : ℕ} {rest : List Name}
    (he : fs.entry d name = some i) (hi : fs.nodes i = some (.file data mode)) :
    fs.lookup links d (name :: rest) = if rest = [] then some (d, name) else none := by
  rw [FileSystem.lookup, he]
  simp only [hi]

theorem lookup_symlink {target : Path} {rest : List Name}
    (he : fs.entry d name = some i) (hi : fs.nodes i = some (.symlink target)) :
    fs.lookup (links + 1) d (name :: rest) =
      fs.lookup links (fs.linkBase d target) (steps target ++ rest) := by
  rw [FileSystem.lookup, he]
  simp only [hi]

/-- A path whose entry has been removed leads nowhere. -/
theorem stat_remove (hl : fs.locate path = some (d, name)) (ht : trailing path = false)
    (h₁ : name ≠ dot) (h₂ : name ≠ dotDot) : (fs.remove d name).stat path = none := by
  have he : (fs.remove d name).entry d name = none := by
    rw [entry_eq_child h₁ h₂, child_remove, if_pos ⟨rfl, rfl⟩]
  rw [FileSystem.stat, FileSystem.reach]
  cases h : (fs.remove d name).lookup (fs.remove d name).maxLinks
      ((fs.remove d name).start path) (steps path) with
  | none => rfl
  | some p =>
    rw [lookup_of_locate hl ht h (grows_remove d name) he]
    exact he

/-- Whoever keeps the entries of its trail keeps a resolution. -/
theorem Retains.reach (hk : Retains fs fs')
    (ht : ∀ p ∈ fs.trail links d names, ∀ j, fs.entry p.1 p.2 = some j → fs'.entry p.1 p.2 = some j)
    (hr : fs.reach links d names = some i) :
    fs'.reach links d names = some i ∧ fs'.trail links d names = fs.trail links d names := by
  unfold FileSystem.reach at hr ⊢
  induction links, d, names using FileSystem.lookup.induct fs with
  | case1 => rw [FileSystem.lookup] at hr; cases hr
  | case2 links d n rest he hc =>
    rw [FileSystem.lookup, he] at hr
    simp only [if_pos hc, Option.bind_some, he] at hr
    cases hr
  | case3 links d n rest he hc =>
    rw [FileSystem.lookup, he] at hr
    simp only [if_neg hc, Option.bind_none] at hr
    cases hr
  | case4 links d n rest j he hn =>
    rw [FileSystem.lookup, he] at hr
    simp only [hn, Option.bind_none] at hr
    cases hr
  | case5 links d n j he data mode hn =>
    have he' := ht (d, n) (head_mem_trail []) j he
    obtain ⟨_, hn', ha⟩ := hk.nodes j _ hn
    cases ha
    rw [lookup_file he hn, if_pos rfl, Option.bind_some, he] at hr
    rw [lookup_file he' hn', if_pos rfl, Option.bind_some, he', trail_file he hn,
      trail_file he' hn']
    exact ⟨hr, rfl⟩
  | case6 links d n rest j he data mode hn hrest =>
    rw [lookup_file he hn, if_neg hrest] at hr
    cases hr
  | case7 links d n j he parent entries hn =>
    have he' := ht (d, n) (head_mem_trail []) j he
    obtain ⟨_, hn', ha⟩ := hk.nodes j _ hn
    cases ha
    rw [lookup_dir he hn, if_pos rfl, Option.bind_some, he] at hr
    rw [lookup_dir he' hn', if_pos rfl, Option.bind_some, he', trail_dir he hn, trail_dir he' hn',
      FileSystem.trail, FileSystem.trail]
    exact ⟨hr, rfl⟩
  | case8 links d n rest j he parent entries hn hrest ih =>
    have he' := ht (d, n) (head_mem_trail rest) j he
    obtain ⟨_, hn', ha⟩ := hk.nodes j _ hn
    cases ha
    rw [lookup_dir he hn, if_neg hrest] at hr
    obtain ⟨hr', htrail⟩ :=
      ih (fun p hp => ht p (by rw [trail_dir he hn]; exact List.mem_cons_of_mem _ hp)) hr
    rw [lookup_dir he' hn', if_neg hrest, trail_dir he hn, trail_dir he' hn', htrail]
    exact ⟨hr', rfl⟩
  | case9 d n rest j he target hn =>
    rw [FileSystem.lookup, he] at hr
    simp only [hn, Option.bind_none] at hr
    cases hr
  | case10 d n rest j he target hn links ih =>
    have he' := ht (d, n) (head_mem_trail rest) j he
    have hn' := hk.symlink hn
    rw [lookup_symlink he hn] at hr
    obtain ⟨hr', htrail⟩ :=
      ih (fun p hp => ht p (by rw [trail_symlink he hn]; exact List.mem_cons_of_mem _ hp)) hr
    rw [lookup_symlink he' hn', trail_symlink he hn, trail_symlink he' hn', hk.linkBase, htrail]
    exact ⟨hr', rfl⟩

/-! ### Paths of entries -/

theorem isDir_of_child (h : fs.child d name = some i) : fs.isDir d = true := by
  unfold FileSystem.child at h
  split at h
  · rename_i parent entries hd
    exact isDir_iff.mpr ⟨parent, entries, hd⟩
  · cases h

theorem Grows.child (h : Grows fs fs') (hc : fs.child d name = some i) :
    fs'.child d name = some i := by
  unfold FileSystem.child at hc ⊢
  split at hc
  · rename_i parent entries hd
    obtain ⟨entries', hd', hl⟩ := h.dirs d parent entries hd
    rw [hd']
    exact hl name i hc
  · cases hc

theorem Grows.descend (h : Grows fs fs') (hp : fs.descend d names = some i) :
    fs'.descend d names = some i := by
  induction names generalizing d with
  | nil => exact hp
  | cons name rest ih =>
    rw [FileSystem.descend, Option.bind_eq_some_iff] at hp ⊢
    obtain ⟨x, hx, hp⟩ := hp
    exact ⟨x, h.child hx, ih hp⟩

/-- What is removed is no directory, so it ends the one path it is on. -/
theorem descend_remove {root j : Inode} (hj : fs.child d name = some j) (hl : fs.isDir j = false)
    (hp : fs.descend root names = some i)
    (hlast : ∀ q, names = q ++ [name] → fs.descend root q ≠ some d) :
    (fs.remove d name).descend root names = some i := by
  induction names using List.reverseRecOn generalizing i with
  | nil => exact hp
  | append_singleton q n ih =>
    rw [descend_snoc, Option.bind_eq_some_iff] at hp ⊢
    obtain ⟨x, hx, hc⟩ := hp
    refine ⟨x, ih hx fun q' hq' hd => ?_, ?_⟩
    · rw [hq', descend_snoc, hd, Option.bind_some, hj] at hx
      rw [Option.some.inj hx, isDir_of_child hc] at hl
      cases hl
    · rw [child_remove, if_neg]
      · exact hc
      · rintro ⟨rfl, rfl⟩
        exact hlast q rfl hx

/-- Names that lead down to a file through directories do so without a link to follow. -/
theorem reach_of_descend (links : ℕ) {data : List UInt8} {mode : ℕ}
    (hn : ∀ n ∈ names, n ≠ dot ∧ n ≠ dotDot) (hne : names ≠ [])
    (hd : fs.descend d names = some i) (hi : fs.nodes i = some (.file data mode)) :
    fs.reach links d names = some i := by
  induction names generalizing d with
  | nil => exact (hne rfl).elim
  | cons n rest ih =>
    obtain ⟨⟨h₁, h₂⟩, hrest⟩ := List.forall_mem_cons.mp hn
    obtain ⟨j, hj, hd⟩ := Option.bind_eq_some_iff.mp hd
    have he : fs.entry d n = some j := by rw [entry_eq_child h₁ h₂, hj]
    cases rest with
    | nil =>
      obtain rfl : j = i := Option.some.inj hd
      rw [FileSystem.reach, lookup_file he hi, if_pos rfl]
      exact he
    | cons m rest =>
      obtain ⟨k, hk, -⟩ := Option.bind_eq_some_iff.mp hd
      obtain ⟨parent, entries, hnode⟩ := isDir_iff.mp (isDir_of_child hk)
      rw [FileSystem.reach, lookup_dir he hnode, if_neg (List.cons_ne_nil _ _)]
      exact ih hrest (List.cons_ne_nil _ _) hd

/-! ### Calls -/

theorem unlink_eq_ok {e : Effect Unit} (h : fs.unlink path = .ok e) :
    ∃ d name i, fs.locate path = some (d, name) ∧ trailing path = false ∧ name ≠ dot ∧
      name ≠ dotDot ∧ fs.child d name = some i ∧ fs.isDir i = false ∧
      e = ⟨(), fs.remove d name, []⟩ := by
  unfold FileSystem.unlink at h
  split at h
  · cases h
  · rename_i d name hl
    split_ifs at h with hn
    obtain ⟨ht, hn⟩ := not_or.mp hn
    obtain ⟨h₁, h₂⟩ := not_or.mp hn
    split at h
    · cases h
    · rename_i i he
      split_ifs at h with hd
      cases h
      rw [entry_eq_child h₁ h₂] at he
      exact ⟨d, name, i, hl, Bool.eq_false_iff.mpr ht, h₁, h₂, he, Bool.eq_false_iff.mpr hd, rfl⟩

theorem symlink_eq_ok {target : Path} {e : Effect Unit} :
    fs.symlink target path = .ok e ↔ ∃ d name, fs.locate path = some (d, name) ∧
      fs.entry d name = none ∧ trailing path = false ∧ target ≠ [] ∧
      e = ⟨(), fs.link d name (.symlink target), [⟨.symlink, d, name⟩]⟩ := by
  unfold FileSystem.symlink
  cases hl : fs.locate path with
  | none => simp
  | some p =>
    obtain ⟨d, name⟩ := p
    cases he : fs.entry d name with
    | some i => simp [he]
    | none =>
      cases ht : trailing path with
      | true => simp [he]
      | false =>
        by_cases htarget : target = []
        · simp [htarget, he]
        · simp [htarget, he, eq_comm]

/-- Opening for writing makes a new file, or empties the one that the path leads to. -/
theorem openTrunc_eq_ok {mode : ℕ} {e : Effect Handle} (h : fs.openTrunc path mode = .ok e) :
    (∃ d name, fs.lookup fs.maxLinks (fs.start path) (steps path) = some (d, name) ∧
      fs.entry d name = none ∧
      e = ⟨⟨fs.next, d, name⟩, fs.link d name (.file [] mode), [⟨.file, d, name⟩]⟩) ∨
    (∃ d name i, fs.stat path = some i ∧
      e = ⟨⟨i, d, name⟩, fs.setFile i fun _ mode => .file [] mode, [⟨.file, d, name⟩]⟩) := by
  unfold FileSystem.openTrunc at h
  split at h
  · cases h
  · rename_i d name hl
    split at h
    · rename_i he
      cases h
      exact .inl ⟨d, name, hl, he, rfl⟩
    · rename_i i he
      split at h
      · cases h
        refine .inr ⟨d, name, i, ?_, rfl⟩
        rw [FileSystem.stat, FileSystem.reach, hl, Option.bind_some, he]
      · cases h

/-- Where nothing is at the end of a path, opening it makes the file there and nowhere else. -/
theorem openTrunc_free {mode : ℕ} {e : Effect Handle} (hfree : fs.Free path)
    (h : fs.openTrunc path mode = .ok e) :
    ∃ d name, fs.locate path = some (d, name) ∧ fs.entry d name = none ∧
      e = ⟨⟨fs.next, d, name⟩, fs.link d name (.file [] mode), [⟨.file, d, name⟩]⟩ := by
  rw [FileSystem.openTrunc] at h
  cases hl : fs.lookup fs.maxLinks (fs.start path) (steps path) with
  | none =>
    rw [hl] at h
    cases h
  | some p =>
    rw [hl] at h
    dsimp only at h
    cases ht : trailing path with
    | true =>
      -- the last name is `.`, which is a directory
      obtain ⟨x, links', hx, hp⟩ := lookup_concat hl (show steps path = components path ++ [dot] by
        rw [steps, ht, if_pos rfl])
      have hdot := entry_dot (walk_isDir hx)
      obtain ⟨parent, entries, hn⟩ := isDir_iff.mp (walk_isDir hx)
      rw [lookup_dir hdot hn, if_pos rfl] at hp
      obtain rfl := Option.some.inj hp
      simp only [hdot, hn] at h
      cases h
    | false =>
      rw [steps_of_not_trailing ht] at hl
      rcases List.eq_nil_or_concat (components path) with hc | ⟨names, name, hc⟩
      · rw [hc, FileSystem.lookup] at hl
        cases hl
      · obtain ⟨x, links', hx, hp⟩ := lookup_concat hl (hc.trans List.concat_eq_append)
        have hlocate : fs.locate path = some (x, name) :=
          locate_eq_some.mpr ⟨names, hc.trans List.concat_eq_append, hx⟩
        have he := hfree _ hlocate
        obtain rfl := lookup_free he hp
        dsimp only at h
        rw [he] at h
        cases h
        exact ⟨x, name, hlocate, he, rfl⟩

theorem openRead_none (h : fs.stat path = none) :
    fs.openRead path = .error .other := by
  unfold FileSystem.openRead
  unfold FileSystem.stat FileSystem.reach at h
  cases hl : fs.lookup fs.maxLinks (fs.start path) (steps path) with
  | none => rfl
  | some p =>
    rw [hl, Option.bind_some] at h
    simp only [h]

end PosixFileSystem

namespace PosixCalls

open PosixFileSystem StatefulCall

section
variable (faults : ℕ → Fault)

def stat (path : Path) : Call World Errno Node := syscall faults fun fs =>
  match (fs.stat path).bind fs.nodes with
  | some node => .ok ⟨node, fs, []⟩
  | none => .error .other

/-- `access` with `F_OK`. -/
def access (path : Path) : Call World Errno Unit := syscall faults fun fs =>
  match fs.stat path with
  | some _ => .ok ⟨(), fs, []⟩
  | none => .error .other

def unlink (path : Path) : Call World Errno Unit := syscall faults fun fs => fs.unlink path

def openRead (path : Path) : Call World Errno Handle := syscall faults fun fs => fs.openRead path

def openTrunc (path : Path) (mode : ℕ) : Call World Errno Handle :=
  syscall faults fun fs => fs.openTrunc path mode

def fstat (fd : Handle) : Call World Errno Node := syscall faults fun fs =>
  match fs.nodes fd.inode with
  | some node => .ok ⟨node, fs, []⟩
  | none => .error .other

/-- One `read`; what it returns is left to the caller. -/
def read (_fd : Handle) : Call World Errno Unit := syscall faults fun fs => .ok ⟨(), fs, []⟩

/-- What the reads of an open file return in all; a directory cannot be read. -/
def contents (fd : Handle) : Call World Errno (List UInt8) := syscall faults fun fs =>
  match fs.nodes fd.inode with
  | some (.file data _) => .ok ⟨data, fs, []⟩
  | _ => .error .other

end

variable {α : Type} {faults : ℕ → Fault}

/-- Rule for one call: an error leaves its effect in place or has none. -/
theorem syscall_rule {op : FileSystem → Except Errno (Effect α)} {P E : World → Prop}
    {Q : α → World → Prop} (hu : ∀ w, P w → E w.unchanged)
    (ho : ∀ w e, P w → op w.fs = .ok e → Q e.value (w.after e) ∧ E (w.after e)) :
    Triple P (syscall faults op) Q E := by
  intro w hw
  rw [syscall, from_ofStep]
  cases he : op w.fs with
  | error e => cases faults w.calls <;> exact hu w hw
  | ok e =>
    cases faults w.calls with
    | none => exact (ho w e hw he).1
    | refused => exact hu w hw
    | late => exact (ho w e hw he).2

/-- Rule for calls that only look. -/
theorem syscall_silent {op : FileSystem → Except Errno (Effect α)}
    (hop : ∀ fs e, op fs = .ok e → e.fs = fs ∧ e.touched = [])
    (I : FileSystem → List Touch → Prop) :
    Triple (fun w => I w.fs w.touched) (syscall faults op) (fun _ w => I w.fs w.touched)
      (fun w => I w.fs w.touched) := by
  apply syscall_rule
  · exact fun _ hw => hw
  · intro w e hw he
    obtain ⟨hfs, htouched⟩ := hop w.fs e he
    have hafter : I (w.after e).fs (w.after e).touched := by
      rw [World.after, hfs, htouched, List.append_nil]
      exact hw
    exact ⟨hafter, hafter⟩

section
variable (I : FileSystem → List Touch → Prop) (path : Path) (fd : Handle)

theorem stat_silent : Triple (fun w => I w.fs w.touched) (stat faults path)
    (fun _ w => I w.fs w.touched) (fun w => I w.fs w.touched) := by
  apply syscall_silent
  intro fs e he
  split at he <;> cases he
  exact ⟨rfl, rfl⟩

theorem openRead_silent : Triple (fun w => I w.fs w.touched) (openRead faults path)
    (fun _ w => I w.fs w.touched) (fun w => I w.fs w.touched) := by
  apply syscall_silent
  intro fs e he
  unfold FileSystem.openRead at he
  split at he
  · cases he
  · split at he <;> cases he
    exact ⟨rfl, rfl⟩

theorem fstat_silent : Triple (fun w => I w.fs w.touched) (fstat faults fd)
    (fun _ w => I w.fs w.touched) (fun w => I w.fs w.touched) := by
  apply syscall_silent
  intro fs e he
  split at he <;> cases he
  exact ⟨rfl, rfl⟩

theorem read_silent : Triple (fun w => I w.fs w.touched) (read faults fd)
    (fun _ w => I w.fs w.touched) (fun w => I w.fs w.touched) := by
  apply syscall_silent
  intro fs e he
  cases he
  exact ⟨rfl, rfl⟩

theorem contents_silent : Triple (fun w => I w.fs w.touched) (contents faults fd)
    (fun _ w => I w.fs w.touched) (fun w => I w.fs w.touched) := by
  apply syscall_silent
  intro fs e he
  split at he <;> cases he
  exact ⟨rfl, rfl⟩

end

/-- `access` finds the path. -/
def Accessible (faults : ℕ → Fault) (w : World) (path : Path) : Prop :=
  faults w.calls = .none ∧ (w.fs.stat path).isSome

theorem access_spec (w : World) (path : Path) :
    Triple (· = w) (access faults path)
      (fun _ w' => (w'.fs = w.fs ∧ w'.touched = w.touched) ∧ Accessible faults w path)
      (fun w' => (w'.fs = w.fs ∧ w'.touched = w.touched) ∧ ¬ Accessible faults w path) := by
  rintro s rfl
  have hsame : (s.after ⟨(), s.fs, []⟩).fs = s.fs ∧
      (s.after ⟨(), s.fs, []⟩).touched = s.touched := ⟨rfl, List.append_nil _⟩
  rw [access, syscall, from_ofStep]
  unfold Accessible
  cases hs : s.fs.stat path with
  | none => cases faults s.calls <;> exact ⟨⟨rfl, rfl⟩, by simp⟩
  | some i =>
    cases hf : faults s.calls with
    | none => exact ⟨hsame, rfl, rfl⟩
    | refused => exact ⟨⟨rfl, rfl⟩, by simp⟩
    | late => exact ⟨hsame, by simp⟩

end PosixCalls
