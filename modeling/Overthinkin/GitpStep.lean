import Overthinkin.GitpListing
import Overthinkin.GitpEscape
import Overthinkin.PosixDescent

/-! What one step of a checkout does: the call that matters decides whether it succeeds, and a step
that succeeds under a free name is a new entry there. -/
namespace GitpPlan

open GoRuntime GoRuntime.Outcome GitpObject GitpTree PosixFileSystem PosixCalls StatefulCall
  GoFilepath GitpCheckout GitpContainment GitpEscape

def fileMode (executable : Bool) : ℕ := if executable then 0o755 else 0o644

/-- The node that stands for a step in the directory `d`. -/
def node (d : Inode) : Kind → Node
  | .directory => .dir d []
  | .file data executable => .file data (fileMode executable)
  | .symlink target => .symlink target

/-! ### Calls and their effects -/

section
variable {faults : ℕ → Fault} {w : World} {d : Inode} {name : Name} {path : Path}

/-- A call that succeeds has its effect; without faults it fails only if it has to. -/
theorem syscall_spec {α : Type} (op : FileSystem → Except Errno (Effect α)) (w : World) :
    Triple (· = w) (syscall faults op)
      (fun a w' => ∃ e, op w.fs = .ok e ∧ a = e.value ∧ w'.fs = e.fs ∧
        w'.touched = w.touched ++ e.touched)
      (fun _ => faults = quiet → ∀ e, op w.fs ≠ .ok e) := by
  rintro s rfl
  rw [syscall, from_ofStep]
  cases ho : op s.fs with
  | error e =>
    have hno : faults = quiet → ∀ e' : Effect α, Except.error e ≠ Except.ok e' := by simp
    cases faults s.calls <;> exact hno
  | ok e =>
    cases hf : faults s.calls with
    | none => exact ⟨e, rfl, rfl, rfl, rfl⟩
    | refused =>
      rintro rfl
      cases hf
    | late =>
      rintro rfl
      cases hf

theorem syscall_fails {α : Type} {op : FileSystem → Except Errno (Effect α)} {e : Errno}
    (h : op w.fs = .error e) :
    Triple (· = w) (syscall faults op) (fun _ _ => False) (fun _ => True) := by
  apply (syscall_untouched h).mono _ (fun _ _ h => h) fun _ _ => trivial
  rintro s rfl
  exact ⟨rfl, rfl⟩

theorem closing_spec {α : Type} {P : World → Prop} {Q : α → World → Prop} {p : Prop}
    {x : Call World Errno α} (h : Triple P x Q fun _ => p) (fd : Handle) (message : GoString) :
    Triple P (closing faults fd x message) Q (fun _ => p) := by
  apply Triple.bind (Triple.attempt h)
  rintro (e | a)
  · refine Triple.bind (Q := fun _ _ => p) (fun s hs => ?_) fun _ => Triple.throw fun _ hp => hp
    rw [from_attempt]
    exact hs
  · exact Triple.pure fun _ hq => hq

/-- The effect of the calls after `open`: the file gets its content and its mode. -/
def filled (e : Effect Handle) (data : List UInt8) (executable : Bool) : FileSystem :=
  (e.fs.setFile e.value.inode fun old mode => .file (old ++ data) mode).setFile e.value.inode
    fun data _ => .file data (fileMode executable)

/-- A file that was there has nothing left of what it was. -/
theorem filled_taken (fs : FileSystem) (i : Inode) (touched : List Touch) (data : List UInt8)
    (executable : Bool) :
    filled ⟨⟨i, d, name⟩, fs.setFile i fun _ mode => .file [] mode, touched⟩ data executable =
      fs.setFile i fun _ _ => .file data (fileMode executable) := by
  rw [filled, setFile_setFile, setFile_setFile]
  rfl

/-- Only `open` can stand in the way of a blob. -/
theorem writeBlob_spec {blob : Object} (ht : blob.type = ObjBlob) (executable : Bool) :
    Triple (· = w) (writeBlob faults (some blob) path executable)
      (fun _ w' => ∃ e, w.fs.openNoFollow path (fileMode executable) = .ok e ∧
        w'.fs = filled e blob.data executable ∧ ∀ t ∈ e.touched, t ∈ w'.touched)
      (fun _ => faults = quiet →
        ∀ e, w.fs.openNoFollow path (fileMode executable) ≠ .ok e) := by
  -- the calls after `open` cannot fail without a fault
  have hnever : ∀ {α : Type} {op : Effect α}, (faults = quiet → ∀ e : Effect α,
      (Except.ok op : Except Errno _) ≠ .ok e) → faults = quiet →
      ∀ e, w.fs.openNoFollow path (fileMode executable) ≠ .ok e :=
    fun h hq => (h hq _ rfl).elim
  rw [writeBlob, if_neg (not_not.mpr ht)]
  apply Triple.bind (Q := fun fd w' => ∃ e, w.fs.openNoFollow path (fileMode executable) = .ok e ∧
    fd = e.value ∧ w'.fs = e.fs ∧ ∀ t ∈ e.touched, t ∈ w'.touched)
  · apply Triple.orElse
    apply (syscall_spec _ w).post _ fun _ h => h
    rintro fd w' ⟨e, ho, hv, hw, htouched⟩
    exact ⟨e, ho, hv, hw, fun t hmem => htouched ▸ List.mem_append_right _ hmem⟩
  intro fd
  apply Triple.fixed
  rintro s ⟨e, ho, rfl, hs, htouched⟩
  apply Triple.bind (Q := fun _ w' => w'.fs =
    (e.fs.setFile e.value.inode fun old mode => .file (old ++ blob.data) mode) ∧
    ∀ t ∈ e.touched, t ∈ w'.touched)
  · apply closing_spec
    apply (syscall_spec _ s).post _ fun _ => hnever
    rintro ⟨⟩ w' ⟨e', ho', -, hw, ht'⟩
    cases ho'
    refine ⟨by rw [hw, FileSystem.write, hs], fun t hmem => ?_⟩
    exact ht' ▸ List.mem_append_left _ (htouched t hmem)
  intro ⟨⟩
  apply Triple.fixed
  rintro s ⟨hs, htouched⟩
  apply Triple.bind (Q := fun _ w' => w'.fs = filled e blob.data executable ∧
    ∀ t ∈ e.touched, t ∈ w'.touched)
  · apply closing_spec
    apply (syscall_spec _ s).post _ fun _ => hnever
    rintro ⟨⟩ w' ⟨e', ho', -, hw, ht'⟩
    cases ho'
    refine ⟨by rw [hw, FileSystem.fchmod, hs]; rfl, fun t hmem => ?_⟩
    exact ht' ▸ List.mem_append_left _ (htouched t hmem)
  intro ⟨⟩
  apply Triple.fixed
  rintro s ⟨hs, htouched⟩
  apply Triple.orElse
  apply (syscall_spec _ s).post _ fun _ => hnever
  rintro ⟨⟩ w' ⟨e', ho', -, hw, ht'⟩
  cases ho'
  exact ⟨e, ho, hw.trans hs, fun t hmem => ht' ▸ List.mem_append_left _ (htouched t hmem)⟩

theorem writeSymlink_spec {blob : Object} (ht : blob.type = ObjBlob)
    (hv : ¬ (blob.data = [] ∨ 0 ∈ blob.data)) :
    Triple (· = w) (writeSymlink faults (some blob) path)
      (fun _ w' => ∃ e, w.fs.symlink blob.data path = .ok e ∧ w'.fs = e.fs ∧
        ∀ t ∈ e.touched, t ∈ w'.touched)
      (fun _ => faults = quiet → ∀ e, w.fs.symlink blob.data path ≠ .ok e) := by
  rw [writeSymlink, if_neg (not_not.mpr ht), if_neg hv]
  apply Triple.orElse
  apply (syscall_spec _ w).post _ fun _ h => h
  rintro ⟨⟩ w' ⟨e, ho, -, hw, htouched⟩
  exact ⟨e, ho, hw, fun t hmem => htouched ▸ List.mem_append_right _ hmem⟩

/-- A directory that can be made is made. -/
theorem ensureDir_spec {e : Effect Unit} (hm : w.fs.mkdir path = .ok e) :
    Triple (· = w) (ensureDir faults path)
      (fun _ w' => w'.fs = e.fs ∧ ∀ t ∈ e.touched, t ∈ w'.touched) (fun _ => faults ≠ quiet) := by
  apply Triple.bind (Q := fun r w' => match r with
    | .ok _ => w'.fs = e.fs ∧ ∀ t ∈ e.touched, t ∈ w'.touched
    | .error e' => e' = .other ∧ faults ≠ quiet)
  · rintro s rfl
    rw [from_attempt, mkdir, syscall, from_ofStep, hm]
    have htouched : ∀ t ∈ e.touched, t ∈ (s.after e).touched :=
      fun t ht => List.mem_append_right _ ht
    cases hf : faults s.calls with
    | none => exact ⟨rfl, htouched⟩
    | refused => exact ⟨rfl, fun hq => by rw [hq] at hf; cases hf⟩
    | late => exact ⟨rfl, fun hq => by rw [hq] at hf; cases hf⟩
  · rintro (e' | _)
    · apply Triple.assuming
      rintro rfl
      exact Triple.throw fun _ h => h
    · exact Triple.pure fun _ h => h

/-- A step under a free name is a new entry there. -/
theorem create_new (hl : w.fs.locate path = some (d, name)) (he : w.fs.entry d name = none)
    (htrail : trailing path = false) (kind : Kind) :
    Triple (· = w) (create faults path kind)
      (fun _ w' => w'.fs = w.fs.link d name (node d kind) ∧ ∃ t ∈ w'.touched, t.name = name)
      (fun _ => faults = quiet → ¬ kind.Valid) := by
  have ht : ¬ trailing path = true := Bool.eq_false_iff.mp htrail
  cases kind with
  | directory =>
    rw [create]
    apply (ensureDir_spec (mkdir_eq_ok.mpr ⟨d, name, hl, he, rfl⟩)).post _
      fun _ hne hq => (hne hq).elim
    rintro ⟨⟩ w' ⟨hw, hmem⟩
    exact ⟨hw, _, hmem _ List.mem_cons_self, rfl⟩
  | file data executable =>
    have ho : w.fs.openNoFollow path (fileMode executable) = .ok ⟨⟨w.fs.next, d, name⟩,
        w.fs.link d name (.file [] (fileMode executable)), [⟨.file, d, name⟩]⟩ := by
      rw [FileSystem.openNoFollow, hl]
      dsimp only
      rw [if_neg ht, he]
    rw [create]
    apply (writeBlob_spec rfl executable).post _ fun _ hno hq => (hno hq _ ho).elim
    rintro ⟨⟩ w' ⟨e, ho', hw, hmem⟩
    cases ho.symm.trans ho'
    refine ⟨?_, _, hmem _ List.mem_cons_self, rfl⟩
    rw [hw, filled, setFile_link, setFile_link]
    rfl
  | symlink target =>
    by_cases hv : target = [] ∨ 0 ∈ target
    · rw [create, writeSymlink, if_neg (not_not.mpr rfl), if_pos hv]
      exact Triple.throw fun _ _ _ hvalid => hv.elim hvalid.1 hvalid.2
    · have ho : w.fs.symlink target path =
          .ok ⟨(), w.fs.link d name (.symlink target), [⟨.symlink, d, name⟩]⟩ := by
        rw [FileSystem.symlink, hl]
        dsimp only
        rw [he]
        exact if_neg fun h => h.elim ht fun h => hv (.inl h)
      rw [create]
      apply (writeSymlink_spec rfl hv).post _ fun _ hno hq => (hno hq _ ho).elim
      rintro ⟨⟩ w' ⟨e, ho', hw, hmem⟩
      cases ho.symm.trans ho'
      exact ⟨hw, _, hmem _ List.mem_cons_self, rfl⟩

end

/-! ### All steps -/

/-- A way to look at nodes: it knows what a step makes, and not what a directory contains. -/
structure Reading (R : Kind → Node → Prop) : Prop where
  made : ∀ d kind, R kind (node d kind)
  entries : ∀ kind parent es es', R kind (.dir parent es) → R kind (.dir parent es')

/-- What the steps in `done` have made of the empty directory `root`. Entries of a directory in
`dirs` go to where its names lead. -/
structure Built (R : Kind → Node → Prop) (outDir : Path) (root : Inode) (dirs : List (List Name))
    (done : List Step) (fs : FileSystem) : Prop where
  tidy : Tidy fs root
  dirs : ∀ p ∈ dirs, place outDir p ≠ [] ∧
    ∃ d, fs.descend root p = some d ∧ home fs (place outDir p) = some d ∧ fs.isDir d = true
  shown : ∀ s ∈ done, ∃ n, fs.nodeAt root s.path = some n ∧ R s.kind n
  only : ∀ path i, fs.descend root path = some i → path = [] ∨ path ∈ done.map Step.path

theorem bare_node (d : Inode) (kind : Kind) : Bare (node d kind) := by
  intro parent entries h
  cases kind <;> cases h
  rfl

section
variable {R : Kind → Node → Prop} {outDir : Path} {root d : Inode} {dirs : List (List Name)}
  {done : List Step} {fs : FileSystem} {s : Step}

/-- The name of a step that is still to come is free. -/
theorem Built.free (h : Built R outDir root dirs done fs) (hp : fs.descend root s.above = some d)
    (hnew : s.path ∉ done.map Step.path) : fs.child d s.name = none := by
  refine Option.eq_none_iff_forall_ne_some.mpr fun i hi => ?_
  have hpath : fs.descend root s.path = some i := by
    rw [Step.path, descend_snoc, hp]
    exact hi
  rcases h.only _ i hpath with h | h
  · simp [Step.path] at h
  · exact hnew h

theorem Built.link (h : Built R outDir root dirs done fs) (hR : Reading R)
    (ha : place outDir s.above ≠ [])
    (hp : fs.descend root s.above = some d) (hh : home fs (place outDir s.above) = some d)
    (hd : fs.isDir d = true) (hn : Ordinary s.name) (hnew : s.path ∉ done.map Step.path) :
    Built R outDir root (s.opened ++ dirs) (done ++ [s]) (fs.link d s.name (node d s.kind)) := by
  have hfree := h.free hp hnew
  have hb := bare_node d s.kind
  have hentry : fs.entry d s.name = none := (entry_eq_child hn.ne_dot hn.ne_dotDot d).trans hfree
  have hgrow : Grows fs (fs.link d s.name (node d s.kind)) := grows_link hentry _
  have hlink := h.tidy.descend_link hd hb hp hfree
  have hold : ∀ {q i}, fs.descend root q = some i →
      (fs.link d s.name (node d s.kind)).descend root q = some i := by
    intro q i hq
    rw [hlink, if_neg fun he => ?_, hq]
    rw [he, descend_snoc, hp] at hq
    cases hfree.symm.trans hq
  refine ⟨h.tidy.link hd hb hp hfree, ?_, ?_, ?_⟩
  · intro p hmem
    rcases List.mem_append.mp hmem with hmem | hmem
    · cases hk : s.kind with
      | directory =>
        rw [Step.opened, hk, List.mem_singleton] at hmem
        have hdir : (fs.link d s.name (.dir d [])).isDir fs.next = true :=
          isDir_iff.mpr ⟨d, [], nodes_link_next d s.name _⟩
        rw [hk] at hgrow hlink
        rw [hmem, Step.path, place_snoc]
        refine ⟨join_ne_nil ha hn, fs.next, ?_, ?_, hdir⟩
        · rw [hlink, if_pos rfl]
        · exact home_join ha hn (home_grows hgrow hh) (entry_link hd hentry _) hdir
      | file => rw [Step.opened, hk] at hmem; cases hmem
      | symlink => rw [Step.opened, hk] at hmem; cases hmem
    · obtain ⟨hne, d', hd', hh', hdir⟩ := h.dirs p hmem
      exact ⟨hne, d', hold hd', home_grows hgrow hh', hgrow.isDir hdir⟩
  · intro t ht
    rcases List.mem_append.mp ht with ht | ht
    · obtain ⟨n, hn', hs⟩ := h.shown t ht
      obtain ⟨i, hi, hni⟩ := Option.bind_eq_some_iff.mp hn'
      obtain ⟨n', hni', hsame⟩ := nodes_link d s.name (node d s.kind) hni
      refine ⟨n', Option.bind_eq_some_iff.mpr ⟨i, hold hi, hni'⟩, ?_⟩
      rcases hsame with rfl | ⟨parent, entries, entries', rfl, rfl⟩
      · exact hs
      · exact hR.entries _ _ _ _ hs
    · rw [List.mem_singleton.mp ht]
      refine ⟨_, Option.bind_eq_some_iff.mpr ⟨fs.next, ?_, nodes_link_next d s.name _⟩,
        hR.made d s.kind⟩
      exact (hlink s.path).trans (if_pos rfl)
  · intro q i hq
    rw [hlink] at hq
    rw [List.map_append, List.mem_append]
    split_ifs at hq with he
    · exact .inr (.inr (List.mem_singleton.mpr he))
    · exact (h.only q i hq).imp_right .inl

end

section
variable {R : Kind → Node → Prop} {faults : ℕ → Fault} {outDir : Path} {root : Inode}
  {dirs : List (List Name)} {done : List Step} {w : World} {s : Step}

theorem perform_built (hR : Reading R) (h : Built R outDir root dirs done w.fs)
    (hs : s.above ∈ dirs) (hn : Ordinary s.name) (hnew : s.path ∉ done.map Step.path) :
    Triple (· = w) (perform faults outDir s)
      (fun one w' => one = s.kind.weight ∧ Grows w.fs w'.fs ∧
        Built R outDir root (s.opened ++ dirs) (done ++ [s]) w'.fs ∧
          ∃ t ∈ w'.touched, t.name = s.name)
      (fun _ => faults = quiet → ¬ s.kind.Valid) := by
  obtain ⟨hne, d, hp, hh, hd⟩ := h.dirs _ hs
  have hentry : w.fs.entry d s.name = none :=
    (entry_eq_child hn.ne_dot hn.ne_dotDot d).trans (h.free hp hnew)
  apply Triple.bind (create_new (locate_home hne hn hh) hentry (trailing_join hne hn) s.kind)
  intro ⟨⟩
  apply Triple.pure
  rintro w' ⟨hw, ht⟩
  rw [hw]
  exact ⟨rfl, grows_link hentry _, h.link hR hne hp hh hd hn hnew, ht⟩

end

/-! ### Names that are taken -/

/-- The steps that still show after `s`: of two with one path, the later one. -/
def settle (done : List Step) (s : Step) : List Step := done.filter (·.path ≠ s.path) ++ [s]

def settled (steps : List Step) : List Step := steps.foldl settle []

theorem mem_settle {done : List Step} {s t : Step} :
    t ∈ settle done s ↔ t ∈ done ∧ t.path ≠ s.path ∨ t = s := by
  simp [settle]

theorem mem_map_settle {done : List Step} {s : Step} {path : List Name} :
    path ∈ (settle done s).map Step.path ↔ path ∈ done.map Step.path ∨ path = s.path := by
  simp only [List.mem_map, mem_settle]
  constructor
  · rintro ⟨t, ⟨ht, -⟩ | rfl, rfl⟩
    · exact .inl ⟨t, ht, rfl⟩
    · exact .inr rfl
  · intro h
    by_cases hp : path = s.path
    · exact ⟨s, .inr rfl, hp.symm⟩
    · obtain ⟨t, ht, rfl⟩ := h.resolve_right hp
      exact ⟨t, .inl ⟨ht, hp⟩, rfl⟩

theorem settle_of_new {done : List Step} {s : Step} (h : s.path ∉ done.map Step.path) :
    settle done s = done ++ [s] := by
  rw [settle, List.filter_eq_self.mpr]
  intro t ht
  exact decide_eq_true fun hp => h (hp ▸ List.mem_map_of_mem ht)

theorem foldl_settle_of_nodup {done steps : List Step}
    (h : ((done ++ steps).map Step.path).Nodup) : steps.foldl settle done = done ++ steps := by
  induction steps generalizing done with
  | nil => rw [List.append_nil, List.foldl_nil]
  | cons s rest ih =>
    have hnew : s.path ∉ done.map Step.path := by
      rw [List.map_append, List.nodup_append] at h
      exact fun hm => h.2.2 _ hm _ List.mem_cons_self rfl
    have hsplit : done ++ s :: rest = (done ++ [s]) ++ rest := by simp
    rw [hsplit] at h ⊢
    rw [List.foldl_cons, settle_of_new hnew, ih h]

theorem settled_of_nodup {steps : List Step} (h : (steps.map Step.path).Nodup) :
    settled steps = steps := by
  rw [settled, @foldl_settle_of_nodup [] steps h, List.nil_append]

section
variable {faults : ℕ → Fault} {w : World} {d i : Inode} {name : Name} {path : Path}

/-- A name that is taken is written once more only by what is of the same kind, and not a link. -/
theorem create_taken (hl : w.fs.locate path = some (d, name)) (he : w.fs.entry d name = some i)
    (hlstat : w.fs.lstat path = some i) (kind : Kind) :
    Triple (· = w) (create faults path kind)
      (fun _ w' => (kind = .directory ∧ w.fs.isDir i = true ∧ w'.fs = w.fs) ∨
        ∃ data executable, kind = .file data executable ∧
          (∃ old mode, w.fs.nodes i = some (.file old mode)) ∧
          w'.fs = w.fs.setFile i fun _ _ => .file data (fileMode executable))
      (fun _ => True) := by
  cases kind with
  | directory =>
    have hmade : made w.fs path = w.fs := by rw [made, mkdir_taken hl he]
    apply (ensureDir_triple w).mono (fun _ h => h) _ fun _ _ => trivial
    rintro ⟨⟩ w' ⟨hfs, ⟨j, hj, hdir⟩, -⟩
    rw [hmade] at hfs
    rw [hfs, hlstat, Option.some.injEq] at hj
    exact .inl ⟨rfl, by rw [hj, ← hfs]; exact hdir, hfs⟩
  | file data executable =>
    rw [create]
    apply (writeBlob_spec rfl executable).mono (fun _ h => h) _ fun _ _ => trivial
    rintro ⟨⟩ w' ⟨e, ho, hw, -⟩
    obtain ⟨-, hfile, rfl⟩ := (openNoFollow_taken hl he).mp ho
    exact .inr ⟨data, executable, rfl, hfile, hw.trans (filled_taken _ _ _ _ _)⟩
  | symlink target =>
    rw [create, writeSymlink, if_neg (not_not.mpr rfl)]
    split
    · exact Triple.throw fun _ _ => trivial
    · exact ((syscall_fails (symlink_taken hl he target)).orElse _).post
        (fun _ _ h => h.elim) fun _ h => h

end

section
variable {R : Kind → Node → Prop} {faults : ℕ → Fault} {outDir : Path} {root d i : Inode}
  {dirs : List (List Name)} {done : List Step} {fs : FileSystem} {w : World} {s : Step}

theorem Built.again (h : Built R outDir root dirs done fs) (hR : Reading R)
    (hk : s.kind = .directory) (ha : place outDir s.above ≠ [])
    (hp : fs.descend root s.above = some d) (hh : home fs (place outDir s.above) = some d)
    (hn : Ordinary s.name) (hi : fs.child d s.name = some i) (hdir : fs.isDir i = true) :
    Built R outDir root (s.opened ++ dirs) (settle done s) fs := by
  have hpath : fs.descend root s.path = some i := by
    rw [Step.path, descend_snoc, hp]
    exact hi
  refine ⟨h.tidy, ?_, ?_, ?_⟩
  · intro p hmem
    rcases List.mem_append.mp hmem with hmem | hmem
    · rw [Step.opened, hk, List.mem_singleton] at hmem
      subst hmem
      refine ⟨?_, i, hpath, ?_, hdir⟩ <;> rw [Step.path, place_snoc]
      · exact join_ne_nil ha hn
      · exact home_join ha hn hh ((entry_eq_child hn.ne_dot hn.ne_dotDot d).trans hi) hdir
    · exact h.dirs p hmem
  · intro t ht
    rcases mem_settle.mp ht with ⟨ht, -⟩ | rfl
    · exact h.shown t ht
    · obtain ⟨parent, entries, hni⟩ := isDir_iff.mp hdir
      refine ⟨_, Option.bind_eq_some_iff.mpr ⟨i, hpath, hni⟩, ?_⟩
      rw [hk]
      exact hR.entries _ _ _ _ (hR.made parent .directory)
  · intro q j hq
    exact (h.only q j hq).imp_right fun hm => mem_map_settle.mpr (.inl hm)

theorem Built.overwrite (h : Built R outDir root dirs done fs) (hR : Reading R)
    {data : List UInt8} {executable : Bool} (hk : s.kind = .file data executable)
    (hpath : fs.descend root s.path = some i)
    (hfile : ∃ old mode, fs.nodes i = some (.file old mode)) :
    Built R outDir root (s.opened ++ dirs) (settle done s)
      (fs.setFile i fun _ _ => .file data (fileMode executable)) := by
  have hc : ∀ (_ : List UInt8) (_ : ℕ), ∃ data' mode',
      Node.file data (fileMode executable) = .file data' mode' := fun _ _ => ⟨_, _, rfl⟩
  have hg : Grows fs (fs.setFile i fun _ _ => .file data (fileMode executable)) :=
    grows_setFile i _
  refine ⟨h.tidy.setFile hc i, ?_, ?_, ?_⟩
  · intro p hmem
    rw [Step.opened, hk] at hmem
    obtain ⟨hne, d, hd, hh, hdir⟩ := h.dirs p hmem
    exact ⟨hne, d, (descend_setFile hc i root p).trans hd, home_grows hg hh, hg.isDir hdir⟩
  · intro t ht
    rcases mem_settle.mp ht with ⟨ht, hne⟩ | rfl
    · obtain ⟨n, hn, hs⟩ := h.shown t ht
      obtain ⟨j, hj, hnj⟩ := Option.bind_eq_some_iff.mp hn
      -- every node has one path
      have hji : j ≠ i := by
        rintro rfl
        exact hne (h.tidy.unique _ _ _ hj hpath)
      refine ⟨n, Option.bind_eq_some_iff.mpr ⟨j, ?_, ?_⟩, hs⟩
      · exact (descend_setFile hc i root _).trans hj
      · exact (nodes_setFile_of_ne hji _).trans hnj
    · obtain ⟨old, mode, hni⟩ := hfile
      refine ⟨_, Option.bind_eq_some_iff.mpr ⟨i, ?_, nodes_setFile_self hni _⟩, ?_⟩
      · exact (descend_setFile hc i root _).trans hpath
      · rw [hk]
        exact hR.made 0 (.file data executable)
  · intro q j hq
    rw [descend_setFile hc] at hq
    exact (h.only q j hq).imp_right fun hm => mem_map_settle.mpr (.inl hm)

/-- A step that succeeds shows, whether or not its name was taken. -/
theorem perform_settled (hR : Reading R) (h : Built R outDir root dirs done w.fs)
    (hs : s.above ∈ dirs) (hn : Ordinary s.name) :
    Triple (· = w) (perform faults outDir s)
      (fun one w' => one = s.kind.weight ∧ Grows w.fs w'.fs ∧
        Built R outDir root (s.opened ++ dirs) (settle done s) w'.fs) (fun _ => True) := by
  by_cases hnew : s.path ∈ done.map Step.path
  · obtain ⟨t, ht, hpath⟩ := List.mem_map.mp hnew
    obtain ⟨n, hnode, -⟩ := h.shown t ht
    obtain ⟨i, hi, -⟩ := Option.bind_eq_some_iff.mp (hpath ▸ hnode)
    obtain ⟨hne, d, hp, hh, -⟩ := h.dirs _ hs
    have hchild : w.fs.child d s.name = some i := by
      rw [Step.path, descend_snoc, hp] at hi
      exact hi
    have hentry := (entry_eq_child hn.ne_dot hn.ne_dotDot d).trans hchild
    have hlstat := (lstat_join hne hn hh).trans hentry
    apply Triple.bind (create_taken (locate_home hne hn hh) hentry hlstat s.kind)
    intro ⟨⟩
    apply Triple.pure
    rintro w' (⟨hk, hdir, hfs⟩ | ⟨data, executable, hk, hfile, hfs⟩) <;> rw [hfs]
    · exact ⟨rfl, Grows.refl _, h.again hR hk hne hp hh hn hchild hdir⟩
    · exact ⟨rfl, grows_setFile i _, h.overwrite hR hk hi hfile⟩
  · apply (perform_built hR h hs hn hnew).mono (fun _ h => h) _ fun _ _ => trivial
    rintro one w' ⟨hone, hg, hb, -⟩
    rw [settle_of_new hnew]
    exact ⟨hone, hg, hb⟩

end

end GitpPlan
