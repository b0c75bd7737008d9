import Overthinkin.GitpContainment
import Overthinkin.GitpTreeCodec

/-! When a checkout leaves its output directory. `ensureDir` makes the directory that the given
text names, and entries go where the cleaned text leads: `..` after a symbolic link parts the
two, and a tree of one symbolic link is enough to show it. -/
namespace GitpEscape

open GoRuntime GoRuntime.Outcome GitpObject GitpTree PosixFileSystem PosixCalls StatefulCall
  GoFilepath GitpCheckout GitpContainment

/-- No call fails that need not fail. -/
def quiet : ℕ → Fault := fun _ => .none

theorem exists_length_bound (entries : List (Name × Inode)) :
    ∃ k, ∀ p ∈ entries, p.1.length ≤ k := by
  induction entries with
  | nil => exact ⟨0, by simp⟩
  | cons q rest ih =>
    obtain ⟨k, hk⟩ := ih
    exact ⟨q.1.length + k, by grind⟩

/-- A directory never has all names. -/
theorem exists_free_name {fs : FileSystem} {d : Inode} (hd : fs.isDir d = true) :
    ∃ name, Ordinary name ∧ 0 ∉ name ∧ fs.entry d name = none := by
  obtain ⟨parent, entries, hn⟩ := isDir_iff.mp hd
  obtain ⟨k, hk⟩ := exists_length_bound entries
  have hmem : ∀ c ∈ List.replicate (k + 1) 97, c = (97 : UInt8) := fun c => List.eq_of_mem_replicate
  have ho : Ordinary (List.replicate (k + 1) 97) := by
    refine ⟨by simp, fun h => ?_, fun h => ?_, fun h => ?_⟩
    · exact absurd (hmem _ h) (by decide)
    · exact absurd (hmem 46 (h ▸ by decide)) (by decide)
    · exact absurd (hmem 46 (h ▸ by decide)) (by decide)
  refine ⟨_, ho, fun h => absurd (hmem _ h) (by decide), ?_⟩
  rw [FileSystem.entry, hn]
  dsimp only
  rw [if_neg ho.ne_dot, if_neg ho.ne_dotDot, List.lookup_eq_none_iff]
  intro p hp
  have hl := hk p hp
  rw [bne_iff_ne]
  intro he
  rw [← he, List.length_replicate] at hl
  omega

def sha1 : HashAlgorithm := ⟨"sha1", 20, 40, fun _ => List.replicate 20 0⟩

def oidOf (byte : UInt8) : OID := ⟨sha1, encodeToString (List.replicate 20 byte)⟩

/-- The mode, a space, the name, a zero byte and the object identifier. -/
def linkTree (name : Name) : List UInt8 :=
  [49, 50, 48, 48, 48, 48, 32] ++ (name ++ 0 :: List.replicate 20 0)

/-- A tree with one symbolic link, and the target of the link. -/
def linkStore (name : Name) : ObjectStore :=
  ((newObjectStore sha1).record ⟨ObjBlob, oidOf 0, [97], 12⟩).record
    ⟨ObjTree, oidOf 1, linkTree name, 40⟩

section
variable {name : Name}

theorem linkStore_tree (name : Name) :
    treeData (linkStore name) (oidOf 1) = ok (linkTree name) := by
  have hg : (linkStore name).get (oidOf 1) = some ⟨ObjTree, oidOf 1, linkTree name, 40⟩ := by
    simp [linkStore, ObjectStore.get, ObjectStore.record]
  rw [treeData, hg]
  rfl

theorem linkStore_blob (name : Name) :
    (linkStore name).get (oidOf 0) = some ⟨ObjBlob, oidOf 0, [97], 12⟩ := by
  have hne : (oidOf 0).hex ≠ (oidOf 1).hex := by decide
  simp [linkStore, ObjectStore.get, ObjectStore.record, Finmap.lookup_insert_of_ne _ hne]

theorem nextTreeEntry_linkTree (h : Ordinary name) (h0 : 0 ∉ name) :
    nextTreeEntry (linkTree name) 0 sha1 =
      ok (some (⟨name, modeSymlink, oidOf 0⟩, (linkTree name).length)) := by
  have hoctal : ∀ c ∈ [49, 50, 48, 48, 48, 48], (48 : UInt8) ≤ c ∧ c ≤ 55 :=
    List.forall_iff_forall_mem.mp (by decide)
  let e : GitpTreeCodec.RawEntry sha1 := ⟨[49, 50, 48, 48, 48, 48], name, List.replicate 20 0,
    by decide, hoctal, h.ne_nil, h0, rfl⟩
  have hbytes : (linkTree name).drop 0 = e.bytes ++ [] := (List.append_nil e.bytes).symm
  have hmode : e.entry = ⟨name, modeSymlink, oidOf 0⟩ := rfl
  rw [GitpTreeCodec.nextTreeEntry_bytes e hbytes, hmode, Nat.zero_add]
  rfl

theorem nextTreeEntry_end (data : List UInt8) (algo : HashAlgorithm) :
    nextTreeEntry data data.length algo = ok none := if_pos (Nat.le_refl _)

theorem valid_of_ordinary (h : Ordinary name) : validEntryName name = true := by
  have hs : (47 : UInt8) ∉ name := h.separator
  have hd : name ≠ [46] := h.ne_dot
  have hdd : name ≠ [46, 46] := h.ne_dotDot
  simp [validEntryName, h.ne_nil, hs, hd, hdd]

theorem count_linkTree (h : Ordinary name) (h0 : 0 ∉ name) :
    countMaterializedEntries (linkStore name) 3 (oidOf 1) = some (ok 1) := by
  have hn : nextTreeEntry (linkTree name) 0 (linkStore name).algo = _ :=
    nextTreeEntry_linkTree h h0
  rw [countMaterializedEntries, linkStore_tree]
  dsimp only
  rw [countLoop, hn]
  dsimp only
  rw [if_neg (by decide), if_pos (by decide), countLoop, nextTreeEntry_end]

end

/-- The symbolic link `name` was made in the directory `d` of `fs`. -/
structure Linked (fs : FileSystem) (d : Inode) (name : Name) (w : World) : Prop where
  fs : w.fs = fs.link d name (.symlink [97])
  touched : ⟨.symlink, d, name⟩ ∈ w.touched

section
variable {w : World} {d root : Inode} {name : Name} {path outDir : Path}

theorem returned_ok {α : Type} (a : α) : returned (ok a) = (pure a : Call World Stop α) := rfl

theorem syscall_quiet {α : Type} {op : FileSystem → Except Errno (Effect α)} {e : Effect α}
    (h : op w.fs = .ok e) :
    Triple (· = w) (syscall quiet op) (fun a w' => a = e.value ∧ w' = w.after e)
      (fun _ => False) := by
  rintro s rfl
  rw [syscall, from_ofStep, h]
  exact ⟨rfl, rfl⟩

theorem ensureDir_quiet (h : IsDirectory (made w.fs path) path) :
    Triple (· = w) (ensureDir quiet path) (fun _ w' => w'.fs = made w.fs path)
      (fun _ => False) := by
  obtain ⟨i, hi, hd⟩ := h
  obtain ⟨parent, entries, hn⟩ := isDir_iff.mp hd
  apply Triple.bind (Q := fun r w' => w'.fs = made w.fs path ∧ r ≠ .error .other)
  · rintro s rfl
    rw [from_attempt, mkdir, syscall, from_ofStep]
    cases hm : s.fs.mkdir path with
    | ok e => exact ⟨by rw [made, hm]; rfl, by simp [quiet]⟩
    | error e =>
      have hs : made s.fs path = s.fs := by rw [made, hm]
      obtain rfl : e = .alreadyExists := mkdir_error hm (hs ▸ hi)
      exact ⟨hs.symm, by simp [quiet]⟩
  · rintro (e | _)
    · cases e with
      | other => exact Triple.throw fun _ h => h.2 rfl
      | alreadyExists =>
        apply Triple.bind (Q := fun r w' => r = .ok (.dir parent entries) ∧
          w'.fs = made w.fs path)
        · rintro s ⟨hs, -⟩
          have hl : (s.fs.lstat path).bind s.fs.nodes = some (.dir parent entries) := by
            rw [hs, hi]
            exact hn
          rw [from_attempt, lstat, syscall, from_ofStep]
          simp only [hl]
          exact ⟨rfl, hs⟩
        · intro r
          apply Triple.assuming
          rintro rfl
          exact Triple.pure fun _ h => h
    · exact Triple.pure fun _ h => h.1

theorem writeEntry_quiet (hn : Ordinary name) (hd : outDir ≠ []) (hh : home w.fs outDir = some d)
    (he : w.fs.entry d name = none) :
    Triple (· = w)
      (writeEntry quiet (linkStore name) ⟨name, modeSymlink, oidOf 0⟩ (join [outDir, name]))
      (fun _ => Linked w.fs d name) (fun _ => False) := by
  have hs : w.fs.symlink [97] (join [outDir, name]) =
      .ok ⟨(), w.fs.link d name (.symlink [97]), [⟨.symlink, d, name⟩]⟩ := by
    rw [FileSystem.symlink, locate_home hd hn hh]
    dsimp only
    rw [he]
    exact if_neg (by simp [trailing_join hd hn])
  have hm : ¬ (modeSymlink = modeFile ∨ modeSymlink = modeExecutable) := by decide
  rw [writeEntry, if_neg hm, if_pos rfl, linkStore_blob]
  apply Triple.bind (Q := fun _ w' => w' = w.after ⟨(), w.fs.link d name (.symlink [97]),
    [⟨.symlink, d, name⟩]⟩)
  · exact ((syscall_quiet hs).post (fun _ _ h => h.2) fun _ h => h).orElse _
  · intro ⟨⟩
    apply Triple.pure
    rintro s rfl
    exact ⟨rfl, by simp [World.after]⟩

/-- The link goes where the joined name leads. -/
theorem materialize_link (hl : IsDirectory (made w.fs outDir) outDir)
    (hh : home (made w.fs outDir) outDir = some d) (hn : Ordinary name) (h0 : 0 ∉ name)
    (he : (made w.fs outDir).entry d name = none) :
    Triple (· = w) (materialize quiet (linkStore name) 3 (oidOf 1) outDir)
      (fun _ => Linked (made w.fs outDir) d name) (fun _ => False) := by
  have hd : outDir ≠ [] := by
    rintro rfl
    obtain ⟨i, hi, -⟩ := hl
    cases hi
  have ht : nextTreeEntry (linkTree name) 0 (linkStore name).algo = _ :=
    nextTreeEntry_linkTree hn h0
  have hv : ¬ validEntryName name = false := by simp [valid_of_ordinary hn]
  rw [materialize, count_linkTree hn h0]
  dsimp only
  rw [returned_ok, pure_bind]
  apply Triple.bind (ensureDir_quiet hl)
  intro ⟨⟩
  apply Triple.fixed
  intro s hs
  rw [← hs] at hh he ⊢
  apply Triple.bind (Q := fun _ => Linked s.fs d name)
  · rw [materializeTree, linkStore_tree, returned_ok, pure_bind, materializeLoop, ht, returned_ok,
      pure_bind]
    dsimp only
    rw [if_neg hv, if_neg (by decide)]
    apply Triple.bind (writeEntry_quiet hn hd hh he)
    intro one
    rw [materializeLoop, nextTreeEntry_end, returned_ok, pure_bind]
    exact Triple.pure fun _ h => h
  · intro _
    exact Triple.pure fun _ h => h


theorem Linked.not_contained {fs : FileSystem} (h : Linked fs d name w)
    (he : fs.entry d name = none) (hl : fs.lstat outDir = some root)
    (hb : ¬ Below fs root d) : ¬ Contained w.fs outDir ⟨.symlink, d, name⟩ := by
  rw [h.fs]
  rintro (⟨hc, _⟩ | ⟨root', hl', _, hb'⟩)
  · cases hc
  · have hr : root' = root :=
      Option.some.inj (hl'.symm.trans ((grows_link he _).lstat hl))
    rw [hr] at hb'
    exact hb (below_of_link (by simp [Leaf]) hb')

end

/-- The state that a checkout leaves behind, however it ends. -/
def checkout (faults : ℕ → Fault) (store : ObjectStore) (fuel : ℕ) (treeOID : OID) (outDir : Path)
    (fs : FileSystem) : World :=
  ((materialize faults store fuel treeOID outDir).from ⟨fs, [], 0⟩).2

/-- A link leaves the output directory when the joined name leads out of it. -/
theorem checkout_leaves {fs : FileSystem} {outDir : Path} {root d : Inode} {name : Name}
    (hl : (made fs outDir).lstat outDir = some root) (hr : (made fs outDir).isDir root = true)
    (hh : home (made fs outDir) outDir = some d) (hb : ¬ Below (made fs outDir) root d)
    (hn : Ordinary name) (h0 : 0 ∉ name) (he : (made fs outDir).entry d name = none) :
    ∃ t ∈ (checkout quiet (linkStore name) 3 (oidOf 1) outDir fs).touched,
      ¬ Contained (checkout quiet (linkStore name) 3 (oidOf 1) outDir fs).fs outDir t := by
  have hm : Linked (made fs outDir) d name
      (checkout quiet (linkStore name) 3 (oidOf 1) outDir fs) :=
    (materialize_link (w := ⟨fs, [], 0⟩) ⟨root, hl, hr⟩ hh hn h0 he).always rfl
      (fun _ _ h => h) fun _ h => h.elim
  exact ⟨_, hm.touched, hm.not_contained he hl hb⟩

/-- Every checkout into `outDir` stays inside it exactly when the two texts agree on it. -/
theorem contained_iff (fs : FileSystem) (outDir : Path) :
    (∀ faults store fuel treeOID, ∀ t ∈ (checkout faults store fuel treeOID outDir fs).touched,
      Contained (checkout faults store fuel treeOID outDir fs).fs outDir t) ↔
      Aligned fs outDir := by
  constructor
  · intro h root d hl hr hh
    by_contra hb
    obtain ⟨name, hn, h0, he⟩ := exists_free_name (walk_isDir hh)
    obtain ⟨t, ht, hc⟩ := checkout_leaves hl hr hh hb hn h0 he
    exact hc (h _ _ _ _ t ht)
  · intro h faults store fuel treeOID
    exact (materialize_contained (w := ⟨fs, [], 0⟩) h rfl store fuel treeOID).always rfl
      (fun _ _ h => h) fun _ h => h

/-- In `/w`, `a` is a symbolic link to `/s` and `b` one to `/v`. -/
def detour : FileSystem where
  nodes i := [
    .dir 0 [([119], 1), ([115], 4), ([118], 5)],
    .dir 0 [([97], 2), ([98], 3)],
    .symlink [47, 115],
    .symlink [47, 118],
    .dir 0 [],
    .dir 0 []][i]?
  next := 6
  root := 0
  cwd := 1
  maxLinks := 40
  fresh _ h := List.getElem?_eq_none h

/-- `a/../b`, which the kernel takes for `/b` and `filepath.Join` for `b`. -/
def detourDir : Path := [97, 47, 46, 46, 47, 98]

theorem detour_mkdir : detour.mkdir detourDir =
    .ok ⟨(), detour.link 0 [98] (.dir 0 []), [⟨.directory, 0, [98]⟩]⟩ := by
  have hw : detour.walk 40 1 [[97], [46, 46]] = some 0 := by
    rw [walk_symlink (i := 2) rfl rfl]
    change detour.walk 39 0 [[115], [46, 46]] = some 0
    rw [walk_dir (i := 4) rfl rfl, walk_dir (i := 0) rfl rfl, FileSystem.walk]
    rfl
  exact mkdir_eq_ok.mpr ⟨0, [98], locate_eq_some.mpr ⟨_, by decide, hw⟩, rfl, rfl⟩

theorem detour_locate : detour.locate detourDir = some (0, [98]) := by
  obtain ⟨d, name, hl, -, he⟩ := mkdir_eq_ok.mp detour_mkdir
  simp only [Effect.mk.injEq, List.cons.injEq, Touch.mk.injEq] at he
  rw [hl, ← he.2.2.1.2.1, ← he.2.2.1.2.2]

theorem detour_lstat : detour.lstat detourDir = none := by
  rw [FileSystem.lstat, detour_locate]
  rfl

theorem detour_made : made detour detourDir = detour.link 0 [98] (.dir 0 []) := by
  rw [made, detour_mkdir]

theorem detour_made_lstat : (made detour detourDir).lstat detourDir = some 6 :=
  detour_made ▸ (mkdir_lstat detour_mkdir).1

theorem detour_made_isDir : (made detour detourDir).isDir 6 = true :=
  detour_made ▸ (mkdir_lstat detour_mkdir).2

theorem detour_home : home (made detour detourDir) detourDir = some 5 := by
  rw [detour_made]
  change FileSystem.walk _ 40 1 [[98]] = some 5
  rw [walk_symlink (i := 3) rfl rfl]
  change FileSystem.walk _ 39 0 [[118]] = some 5
  rw [walk_dir (i := 5) rfl rfl, FileSystem.walk]
  rfl

theorem detour_apart : ¬ Below (made detour detourDir) 6 5 := by
  rw [detour_made]
  intro h
  cases below_empty rfl h

theorem detour_free : (made detour detourDir).entry 5 [102] = none := detour_made ▸ rfl

/-- The link is made in `/v`, and the directory made for the checkout is `/b`. -/
theorem checkout_detour :
    ∃ t ∈ (checkout quiet (linkStore [102]) 3 (oidOf 1) detourDir detour).touched,
      ¬ Contained (checkout quiet (linkStore [102]) 3 (oidOf 1) detourDir detour).fs detourDir t :=
  checkout_leaves detour_made_lstat detour_made_isDir detour_home detour_apart
    ⟨by decide, by decide, by decide, by decide⟩ (by decide) detour_free

end GitpEscape
