import Overthinkin.PosixFileSystem
import Mathlib.Data.List.Induction

/-! What lies under a directory. Paths are lists of names, each the name of an entry, and no link
is followed on the way; `.` and `..` are no entries of their own. -/
namespace PosixFileSystem

namespace FileSystem

variable (fs : FileSystem)

def child (d : Inode) (name : Name) : Option Inode :=
  match fs.nodes d with
  | some (.dir _ entries) => entries.lookup name
  | _ => none

def descend (d : Inode) : List Name → Option Inode
  | [] => some d
  | name :: rest => (fs.child d name).bind fun i => descend i rest

def nodeAt (d : Inode) (path : List Name) : Option Node := (fs.descend d path).bind fs.nodes

end FileSystem

variable {fs fs' : FileSystem} {root d i : Inode} {name : Name} {path : List Name} {node : Node}

theorem entry_eq_child (h : name ≠ dot) (h' : name ≠ dotDot) (d : Inode) :
    fs.entry d name = fs.child d name := by
  unfold FileSystem.entry FileSystem.child
  cases fs.nodes d with
  | none => rfl
  | some node =>
    cases node with
    | dir parent entries =>
      dsimp only
      rw [if_neg h, if_neg h']
    | file => rfl
    | symlink => rfl

theorem descend_append (d : Inode) (a b : List Name) :
    fs.descend d (a ++ b) = (fs.descend d a).bind fun i => fs.descend i b := by
  induction a generalizing d with
  | nil => rfl
  | cons name rest ih =>
    rw [List.cons_append, FileSystem.descend, FileSystem.descend, Option.bind_assoc]
    exact Option.bind_congr fun i _ => ih i

theorem descend_snoc (d : Inode) (path : List Name) (name : Name) :
    fs.descend d (path ++ [name]) = (fs.descend d path).bind fun i => fs.child i name := by
  rw [descend_append]
  refine Option.bind_congr fun i _ => ?_
  change (fs.child i name).bind some = fs.child i name
  cases fs.child i name <;> rfl

/-- Under `root` every node has one path, and no entry leads to nothing. -/
structure Tidy (fs : FileSystem) (root : Inode) : Prop where
  isDir : fs.isDir root = true
  unique : ∀ p q i, fs.descend root p = some i → fs.descend root q = some i → p = q
  live : ∀ p i, fs.descend root p = some i → (fs.nodes i).isSome

theorem descend_empty {parent : Inode} (h : fs.nodes root = some (.dir parent []))
    (hp : fs.descend root path = some i) : path = [] := by
  cases path with
  | nil => rfl
  | cons name rest =>
    rw [FileSystem.descend, FileSystem.child, h] at hp
    cases hp

theorem tidy_empty {parent : Inode} (h : fs.nodes root = some (.dir parent [])) : Tidy fs root where
  isDir := isDir_iff.mpr ⟨parent, [], h⟩
  unique p q i hp hq := (descend_empty h hp).trans (descend_empty h hq).symm
  live p i hp := by
    obtain rfl := descend_empty h hp
    cases hp
    rw [h]
    rfl

/-! ### A new entry -/

/-- A node under which nothing lies. -/
def Bare (node : Node) : Prop := ∀ parent entries, node = .dir parent entries → entries = []

theorem ne_next_of_isDir (h : fs.isDir d = true) : d ≠ fs.next := by
  rintro rfl
  rw [isDir_next] at h
  cases h

theorem child_next (name : Name) : fs.child fs.next name = none := by
  rw [FileSystem.child, fs.fresh _ (Nat.le_refl _)]

theorem child_link (hd : fs.isDir d = true) (hb : Bare node) (x : Inode) (n : Name) :
    (fs.link d name node).child x n = if x = d ∧ n = name then some fs.next else fs.child x n := by
  by_cases hx : x = fs.next
  · subst hx
    rw [if_neg fun h => ne_next_of_isDir hd h.1.symm, child_next, FileSystem.child, nodes_link_next]
    cases node with
    | dir parent entries =>
      rw [hb parent entries rfl]
      rfl
    | file => rfl
    | symlink => rfl
  · by_cases hxd : x = d
    · subst hxd
      obtain ⟨parent, entries, hn⟩ := isDir_iff.mp hd
      simp only [FileSystem.child, FileSystem.link, if_neg hx, hn, true_and, if_true]
      rw [List.lookup_cons]
      by_cases hname : n = name
      · rw [if_pos hname, hname, beq_self_eq_true]
      · rw [if_neg hname, beq_false_of_ne hname]
    · rw [if_neg fun h => hxd h.1]
      simp only [FileSystem.child, FileSystem.link, if_neg hx]
      cases fs.nodes x with
      | none => rfl
      | some other =>
        cases other with
        | dir parent entries => simp only [if_neg hxd]
        | file => rfl
        | symlink => rfl

/-- The paths under `root` stay what they were; one is added. -/
theorem Tidy.descend_link (h : Tidy fs root) (hd : fs.isDir d = true) (hb : Bare node)
    (hp : fs.descend root path = some d) (hfree : fs.child d name = none) (q : List Name) :
    (fs.link d name node).descend root q =
      if q = path ++ [name] then some fs.next else fs.descend root q := by
  induction q using List.reverseRecOn with
  | nil => rw [if_neg (by simp)]; rfl
  | append_singleton q n ih =>
    rw [descend_snoc, descend_snoc, ih]
    by_cases hq : q = path ++ [name]
    · -- nothing lies under the new node yet
      have hnone : fs.descend root q = none := by
        rw [hq, descend_snoc, hp]
        exact hfree
      have hne : q ++ [n] ≠ path ++ [name] := fun he => by
        have := congrArg List.length (hq ▸ he)
        simp at this
      rw [if_pos hq, if_neg hne, hnone]
      change (fs.link d name node).child fs.next n = none
      rw [child_link hd hb, if_neg fun h => ne_next_of_isDir hd h.1.symm, child_next]
    · rw [if_neg hq]
      cases hx : fs.descend root q with
      | none =>
        refine (if_neg fun he => ?_).symm
        rw [(List.append_singleton_inj.mp he).1, hp] at hx
        cases hx
      | some x =>
        have hiff : (x = d ∧ n = name) ↔ q ++ [n] = path ++ [name] := by
          rw [List.append_singleton_inj]
          constructor
          · rintro ⟨rfl, hn⟩
            exact ⟨h.unique q path x hx hp, hn⟩
          · rintro ⟨rfl, hn⟩
            exact ⟨Option.some.inj (hx.symm.trans hp), hn⟩
        exact (child_link hd hb x n).trans (if_congr hiff rfl rfl)

/-- What a new entry leaves of the other nodes: a directory may have one entry more. -/
theorem nodes_link (d : Inode) (name : Name) (node : Node) {j : Inode} {other : Node}
    (hj : fs.nodes j = some other) :
    ∃ other', (fs.link d name node).nodes j = some other' ∧
      (other' = other ∨ ∃ parent entries entries', other = .dir parent entries ∧
        other' = .dir parent entries') := by
  have hne : j ≠ fs.next := by
    rintro rfl
    rw [fs.fresh _ (Nat.le_refl _)] at hj
    cases hj
  simp only [FileSystem.link, if_neg hne, hj]
  cases other with
  | dir parent entries =>
    by_cases hd : j = d
    · exact ⟨_, if_pos hd, .inr ⟨parent, entries, _, rfl, rfl⟩⟩
    · exact ⟨_, if_neg hd, .inl rfl⟩
  | file => exact ⟨_, rfl, .inl rfl⟩
  | symlink => exact ⟨_, rfl, .inl rfl⟩

theorem Tidy.link (h : Tidy fs root) (hd : fs.isDir d = true) (hb : Bare node)
    (hp : fs.descend root path = some d) (hfree : fs.child d name = none) :
    Tidy (fs.link d name node) root := by
  have hold : ∀ q i, fs.descend root q = some i → i ≠ fs.next := by
    rintro q i hq rfl
    have hlive := h.live q _ hq
    rw [fs.fresh _ (Nat.le_refl _)] at hlive
    cases hlive
  constructor
  · obtain ⟨parent, entries, hn⟩ := isDir_iff.mp h.isDir
    obtain ⟨other, ho, rfl | ⟨p, _, es, -, rfl⟩⟩ := nodes_link d name node hn
    · exact isDir_iff.mpr ⟨_, _, ho⟩
    · exact isDir_iff.mpr ⟨_, _, ho⟩
  · intro p q i hpi hqi
    rw [h.descend_link hd hb hp hfree] at hpi hqi
    split_ifs at hpi hqi with h₁ h₂ h₂
    · exact h₁.trans h₂.symm
    · cases hpi
      exact (hold q _ hqi rfl).elim
    · cases hqi
      exact (hold p _ hpi rfl).elim
    · exact h.unique p q i hpi hqi
  · intro p i hpi
    rw [h.descend_link hd hb hp hfree] at hpi
    split_ifs at hpi with h₁
    · cases hpi
      rw [nodes_link_next]
      rfl
    · obtain ⟨other, ho⟩ := Option.isSome_iff_exists.mp (h.live p i hpi)
      obtain ⟨other', ho', -⟩ := nodes_link d name node ho
      rw [ho']
      rfl

/-- A file that has just been made and is then changed might have been made so. -/
theorem setFile_link (d : Inode) (name : Name) (data : List UInt8) (mode : ℕ)
    (change : List UInt8 → ℕ → Node) :
    (fs.link d name (.file data mode)).setFile fs.next change =
      fs.link d name (change data mode) := by
  have hn : ((fs.link d name (.file data mode)).setFile fs.next change).nodes =
      (fs.link d name (change data mode)).nodes := by
    funext i
    by_cases hi : i = fs.next
    · simp only [FileSystem.setFile, FileSystem.link, if_pos hi]
    · simp only [FileSystem.setFile, FileSystem.link, if_neg hi]
      cases fs.nodes i with
      | none => rfl
      | some other =>
        cases other with
        | dir parent entries => by_cases hd : i = d <;> simp [hd]
        | file => simp
        | symlink => rfl
  rw [FileSystem.mk.injEq]
  exact ⟨hn, rfl, rfl, rfl, rfl⟩

/-! ### A file that changes -/

section
variable {change : List UInt8 → ℕ → Node}

theorem child_setFile (hc : ∀ data mode, ∃ data' mode', change data mode = .file data' mode')
    (i x : Inode) (name : Name) : (fs.setFile i change).child x name = fs.child x name := by
  simp only [FileSystem.child, FileSystem.setFile]
  cases fs.nodes x with
  | none => rfl
  | some node =>
    cases node with
    | dir => rfl
    | symlink => rfl
    | file data mode =>
      obtain ⟨data', mode', h⟩ := hc data mode
      by_cases hx : x = i
      · simp only [if_pos hx, h]
      · simp only [if_neg hx]

theorem descend_setFile (hc : ∀ data mode, ∃ data' mode', change data mode = .file data' mode')
    (i d : Inode) (path : List Name) :
    (fs.setFile i change).descend d path = fs.descend d path := by
  induction path generalizing d with
  | nil => rfl
  | cons name rest ih =>
    rw [FileSystem.descend, FileSystem.descend, child_setFile hc]
    exact Option.bind_congr fun x _ => ih x

theorem Tidy.setFile (h : Tidy fs root)
    (hc : ∀ data mode, ∃ data' mode', change data mode = .file data' mode') (i : Inode) :
    Tidy (fs.setFile i change) root where
  isDir := (grows_setFile i change).isDir h.isDir
  unique p q j hp hq := by
    rw [descend_setFile hc] at hp hq
    exact h.unique p q j hp hq
  live p j hp := by
    rw [descend_setFile hc] at hp
    obtain ⟨node, hn⟩ := Option.isSome_iff_exists.mp (h.live p j hp)
    rw [FileSystem.setFile]
    dsimp only
    rw [hn]
    cases node with
    | dir => rfl
    | symlink => rfl
    | file => dsimp only; split <;> rfl

theorem nodes_setFile_of_ne {i j : Inode} (h : j ≠ i) (change : List UInt8 → ℕ → Node) :
    (fs.setFile i change).nodes j = fs.nodes j := by
  rw [FileSystem.setFile]
  dsimp only
  cases fs.nodes j with
  | none => rfl
  | some node =>
    cases node with
    | dir => rfl
    | symlink => rfl
    | file => exact if_neg h

theorem nodes_setFile_self {i : Inode} {data : List UInt8} {mode : ℕ}
    (h : fs.nodes i = some (.file data mode)) (change : List UInt8 → ℕ → Node) :
    (fs.setFile i change).nodes i = some (change data mode) := by
  rw [FileSystem.setFile]
  dsimp only
  rw [h]
  exact if_pos rfl

/-- Of two changes to a file the later one goes on from the earlier one. -/
theorem setFile_setFile {content : List UInt8 → ℕ → List UInt8} {bits : List UInt8 → ℕ → ℕ}
    (i : Inode) :
    (fs.setFile i fun data mode => .file (content data mode) (bits data mode)).setFile i change =
      fs.setFile i fun data mode => change (content data mode) (bits data mode) := by
  rw [FileSystem.mk.injEq]
  refine ⟨funext fun j => ?_, rfl, rfl, rfl, rfl⟩
  simp only [FileSystem.setFile]
  cases fs.nodes j with
  | none => rfl
  | some node =>
    cases node with
    | dir => rfl
    | symlink => rfl
    | file data mode =>
      by_cases hj : j = i
      · simp only [if_pos hj]
      · simp only [if_neg hj]

end

/-- There is nothing but the root directory. -/
def vacant : FileSystem where
  nodes i := [.dir 0 []][i]?
  next := 1
  root := 0
  cwd := 0
  maxLinks := 40
  fresh _ h := List.getElem?_eq_none h

theorem vacant_child (d : Inode) (name : Name) : vacant.child d name = none := by
  have hn : vacant.nodes d = none ∨ vacant.nodes d = some (.dir 0 []) := by
    cases d with
    | zero => exact .inr rfl
    | succ d => exact .inl rfl
  rcases hn with hn | hn <;> rw [FileSystem.child, hn]
  rfl

end PosixFileSystem
