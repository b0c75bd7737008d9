import Overthinkin.KeyiEdit

/-! What is left of an edit when `keyi -e` exits: where the edited text is, and when it is lost. -/
namespace KeyiEdit

open AsciiText PosixCalls

theorem Transfer.moved_of_sent {t : Transfer} {n : ℕ} (h : t.sent n = some n) : t.moved n = n := by
  cases t with
  | complete => rfl
  | short k => simpa [sent] using h
  | broken k => simp [sent] at h

theorem writeAt_empty (data : Bytes) : writeAt [] 0 data = data := by
  unfold writeAt
  split
  · rename_i h
    exact h.symm
  · simp [resize]

/-- The editor gets to see a copy. -/
structure Started (c : Session) : Prop where
  command : (c.editor ++ ascii " \"$@\"").length < 256
  openSrc : c.faults.openSrc = false
  fstatSrc : c.faults.fstatSrc = false
  regular : c.regular = true
  path : (tempPath (ascii "/tmp") c.srcPath (ascii "XXXXXX")).length < PATH_MAX
  mkostemps : c.faults.mkostemps = false
  small : c.original.length ≤ MAX_FILE_SIZE
  sendOut : c.faults.sendOut.sent c.original.length = some c.original.length
  fchown : c.faults.fchown = false

/-- The temporary file as the editor finds it. -/
def Session.copy (c : Session) : TempFile := ⟨c.original, c.created, c.ino, c.ino_pos⟩

/-- The temporary path as the editor leaves it. -/
def Session.edited (c : Session) : Option TempFile := c.actions.foldl EditorAction.apply c.copy

/-- The file that the program keeps a note of, with the stamp of the copy or with none. -/
def Session.file (c : Session) : KeyiFile :=
  let tmpPath := tempPath (ascii "/tmp") c.srcPath c.unique
  if c.faults.fstatTmp then ⟨c.srcPath, tmpPath, 0, ⟨0, 0⟩⟩
  else ⟨c.srcPath, tmpPath, c.ino, c.created⟩

variable {c : Session}

theorem copyOne_of_started (h : Started c) :
    copyOne c (ascii "/tmp") c.start = (some c.file, { c.start with temp := some c.copy }) := by
  have hmoved := Transfer.moved_of_sent h.sendOut
  unfold copyOne
  rw [if_neg (by simp [h.openSrc]), if_neg (by simp [h.fstatSrc]), if_neg (by simp [h.regular])]
  simp only
  rw [if_neg (by have := h.path; omega), if_neg (by simp [h.mkostemps]),
    if_neg (by have := h.small; simp only [Session.start]; omega),
    if_neg (by simpa [Session.start] using h.sendOut), if_neg (by simp [h.fchown])]
  simp only [Session.start, hmoved, List.take_length, Session.file, Session.copy]
  split_ifs <;> rfl

/-- A copy that fails leaves the source alone; one that does not has started the editor. -/
theorem copyOne_cases (hcmd : (c.editor ++ ascii " \"$@\"").length < 256) :
    Started c ∨ (∃ w, copyOne c (ascii "/tmp") c.start = (none, w) ∧ w.source = c.original) := by
  by_cases hs : Started c
  · exact .inl hs
  right
  unfold copyOne
  by_cases h₁ : c.faults.openSrc = true
  · rw [if_pos h₁]
    exact ⟨_, rfl, rfl⟩
  rw [if_neg h₁]
  by_cases h₂ : c.faults.fstatSrc = true
  · rw [if_pos h₂]
    exact ⟨_, rfl, rfl⟩
  rw [if_neg h₂]
  by_cases h₃ : c.regular = false
  · rw [if_pos (by simp [h₃])]
    exact ⟨_, rfl, rfl⟩
  rw [if_neg (by simp [h₃])]
  dsimp only
  by_cases h₄ : PATH_MAX ≤ (tempPath (ascii "/tmp") c.srcPath (ascii "XXXXXX")).length
  · rw [if_pos h₄]
    exact ⟨_, rfl, rfl⟩
  rw [if_neg h₄]
  by_cases h₅ : c.faults.mkostemps = true
  · rw [if_pos h₅]
    exact ⟨_, rfl, rfl⟩
  rw [if_neg h₅]
  by_cases h₆ : MAX_FILE_SIZE < c.start.source.length
  · rw [if_pos h₆]
    exact ⟨_, rfl, rfl⟩
  rw [if_neg h₆]
  by_cases h₇ : c.faults.sendOut.sent c.start.source.length = some c.start.source.length
  · rw [if_neg (not_not.mpr h₇)]
    by_cases h₈ : c.faults.fchown = true
    · rw [if_pos h₈]
      exact ⟨_, rfl, rfl⟩
    · exact (hs ⟨hcmd, Bool.eq_false_iff.mpr h₁, Bool.eq_false_iff.mpr h₂, by simpa using h₃,
        Nat.lt_of_not_le h₄, Bool.eq_false_iff.mpr h₅, Nat.le_of_not_lt h₆, h₇,
        Bool.eq_false_iff.mpr h₈⟩).elim
  · rw [if_pos h₇]
    exact ⟨_, rfl, rfl⟩

theorem edit_of_started (h : Started c) :
    c.edit = c.finish c.file { c.start with temp := c.edited } := by
  have hcmd := h.command
  unfold Session.edit
  rw [if_neg (by omega), copyOne_of_started h]
  rfl

theorem edit_of_not_started (h : ¬ Started c) :
    c.edit.exitCode = 1 ∧ c.edit.edited = none ∧ c.edit.world.source = c.original := by
  unfold Session.edit
  split_ifs with hcmd
  · exact ⟨rfl, rfl, rfl⟩
  · obtain ⟨w, hw, hsrc⟩ := (copyOne_cases (by omega)).resolve_left h
    rw [hw]
    exact ⟨rfl, rfl, hsrc⟩

/-! ### The way back -/

/-- The stamp in the program's note is that of the file now at the temporary path. -/
def SameStamp (f : KeyiFile) (tmp : TempFile) : Prop := f.time = tmp.mtime ∧ f.ino = tmp.ino

/-- Nothing keeps `save_one` from comparing the stamps of the file at the temporary path. -/
structure Compared (c : Session) (tmp : TempFile) : Prop where
  openTmp : c.faults.openTmp = false
  fstatNew : c.faults.fstatNew = false
  small : tmp.content.length ≤ MAX_FILE_SIZE

theorem stamp_iff {f : KeyiFile} {tmp : TempFile} :
    (f.time.sec = tmp.mtime.sec ∧ f.time.nsec = tmp.mtime.nsec ∧ f.ino = tmp.ino) ↔
      SameStamp f tmp := by
  unfold SameStamp
  cases f.time
  cases tmp.mtime
  simp [and_assoc]

/-- The ways in which `save_one` ends. It never touches the temporary path. -/
inductive Saved (c : Session) (f : KeyiFile) (w : World) : Bool × World → Prop where
  | failed {w' : World} (temp : w'.temp = w.temp) (unlinked : w'.unlinked = w.unlinked)
    (source : w.temp = none → w'.source = w.source) : Saved c f w (false, w')
  | skipped {w' : World} {tmp : TempFile} (temp : w.temp = some tmp) (compared : Compared c tmp)
    (stamp : SameStamp f tmp) (source : w'.source = w.source) : Saved c f w (true, w')
  | copied {w' : World} {tmp : TempFile} (temp : w.temp = some tmp) (stamp : ¬ SameStamp f tmp)
    (source : w'.source = tmp.content) : Saved c f w (true, w')

theorem saveOne_saved (c : Session) (f : KeyiFile) (w : World) : Saved c f w (saveOne c f w) := by
  unfold saveOne
  split
  · exact .failed rfl rfl (fun _ => rfl)
  · rename_i tmp htmp
    have hsome : ∀ {p : Prop}, w.temp = none → p := fun hn => by
      rw [htmp] at hn
      cases hn
    dsimp only
    by_cases h₁ : c.faults.openTmp = true
    · rw [if_pos h₁]
      exact .failed rfl rfl hsome
    rw [if_neg h₁]
    by_cases h₂ : c.faults.fstatNew = true
    · rw [if_pos h₂]
      exact .failed rfl rfl hsome
    rw [if_neg h₂]
    by_cases h₃ : tmp.content.length > MAX_FILE_SIZE
    · rw [if_pos h₃]
      exact .failed rfl rfl hsome
    rw [if_neg h₃]
    generalize hw : (if tmp.content.length = 0 then
      w.warn "zero length temporary file" [f.tmpPath] else w) = w'
    obtain ⟨ht, hu, hsrc⟩ : w'.temp = w.temp ∧ w'.unlinked = w.unlinked ∧ w'.source = w.source := by
      rw [← hw]
      split <;> exact ⟨rfl, rfl, rfl⟩
    by_cases h₄ : f.time.sec = tmp.mtime.sec ∧ f.time.nsec = tmp.mtime.nsec ∧ f.ino = tmp.ino
    · rw [if_pos h₄]
      exact .skipped htmp ⟨Bool.eq_false_iff.mpr h₁, Bool.eq_false_iff.mpr h₂, Nat.le_of_not_lt h₃⟩
        (stamp_iff.mp h₄) hsrc
    rw [if_neg h₄]
    by_cases h₅ : c.faults.lseek = true
    · rw [if_pos h₅]
      exact .failed ht hu hsome
    rw [if_neg h₅]
    by_cases h₆ : c.faults.ftruncate = .refused
    · rw [if_pos h₆]
      exact .failed ht hu hsome
    rw [if_neg h₆]
    by_cases h₇ : c.faults.ftruncate = .late
    · rw [if_pos h₇]
      exact .failed ht hu hsome
    rw [if_neg h₇]
    by_cases h₈ : c.faults.sendBack.sent tmp.content.length = some tmp.content.length
    · rw [if_neg (not_not.mpr h₈)]
      by_cases h₉ : c.faults.fsync = true
      · rw [if_pos h₉]
        exact .failed ht hu hsome
      rw [if_neg h₉]
      refine .copied htmp (fun hst => h₄ (stamp_iff.mpr hst)) ?_
      dsimp only
      rw [Transfer.moved_of_sent h₈, List.take_length, writeAt_empty]
    · rw [if_pos h₈]
      exact .failed ht hu hsome

theorem saveOne_of_sameStamp {f : KeyiFile} {w : World} {tmp : TempFile} (ht : w.temp = some tmp)
    (hc : Compared c tmp) (hst : SameStamp f tmp) :
    (saveOne c f w).1 = true ∧ (saveOne c f w).2.source = w.source := by
  have hsmall := hc.small
  simp only [saveOne, ht]
  rw [if_neg (by simp [hc.openTmp]), if_neg (by simp [hc.fstatNew]), if_neg (by omega),
    if_pos (stamp_iff.mpr hst)]
  refine ⟨rfl, ?_⟩
  simp only [World.warn]
  split <;> rfl

/-! ### The whole program -/

/-- The ways in which the program ends once the editor has started. -/
inductive Finished (c : Session) (edited : Option TempFile) : Outcome → Prop where
  | failed {w : World} (temp : w.temp = edited) (unlinked : w.unlinked = false)
    (source : edited = none → w.source = c.original) : Finished c edited ⟨1, w, some edited⟩
  | skipped {w : World} {tmp : TempFile} (temp : edited = some tmp) (compared : Compared c tmp)
    (stamp : SameStamp c.file tmp) (status : c.status = .exited 0)
    (source : w.source = c.original) :
    Finished c edited ⟨0, w, some edited⟩
  | copied {w : World} {tmp : TempFile} (temp : edited = some tmp)
    (source : w.source = tmp.content) :
    Finished c edited ⟨0, w, some edited⟩

theorem unlink_source (w : World) (fault : Fault) (b : Bool) :
    (if b then w.unlink fault else w).source = w.source := by
  split <;> rfl

theorem edit_finished (h : Started c) : Finished c c.edited c.edit := by
  rw [edit_of_started h]
  simp only [Session.finish]
  by_cases hstatus : c.status = .exited 0
  · rw [if_pos hstatus]
    generalize hr : saveOne c c.file { c.start with temp := c.edited } = r
    have hsaved := saveOne_saved c c.file { c.start with temp := c.edited }
    rw [hr] at hsaved
    cases hsaved with
    | failed temp unlinked source =>
      rw [if_neg (by simp)]
      exact .failed temp unlinked source
    | skipped temp compared stamp source =>
      rw [if_pos rfl]
      exact .skipped temp compared stamp hstatus ((unlink_source _ _ _).trans source)
    | copied temp _ source =>
      rw [if_pos rfl]
      exact .copied temp ((unlink_source _ _ _).trans source)
  · rw [if_neg hstatus, if_neg (by simp)]
    exact .failed rfl rfl (fun _ => rfl)

/-- The program's note is zero if the stamp could not be read, and no file has that stamp. -/
theorem sameStamp_iff {tmp : TempFile} : SameStamp c.file tmp ↔
    c.faults.fstatTmp = false ∧ tmp.mtime = c.created ∧ tmp.ino = c.ino := by
  simp only [SameStamp, Session.file]
  split_ifs with h
  · have hpos := tmp.ino_pos
    simp only [h, Bool.true_eq_false, false_and, iff_false]
    intro hst
    omega
  · simp only [Bool.not_eq_true] at h
    simp only [h, true_and, @eq_comm _ c.created, @eq_comm _ c.ino]

/-- If the program exits with status 0, the source has the text that the editor left. -/
def EditKept (c : Session) : Prop :=
  c.edit.exitCode = 0 → ∃ tmp, c.edit.edited = some (some tmp) ∧ c.edit.world.source = tmp.content

/-- The editor changed the text under the times and the inode number that the copy had, and the
program gets as far as to compare them. -/
structure Overlooked (c : Session) : Prop where
  started : Started c
  stamped : c.faults.fstatTmp = false
  status : c.status = .exited 0
  file : ∃ tmp, c.edited = some tmp ∧ Compared c tmp ∧ tmp.mtime = c.created ∧ tmp.ino = c.ino ∧
    tmp.content ≠ c.original

theorem edit_of_overlooked (h : Overlooked c) : ¬ EditKept c := by
  obtain ⟨tmp, ht, hc, hm, hi, hne⟩ := h.file
  have hst : SameStamp c.file tmp := sameStamp_iff.mpr ⟨h.stamped, hm, hi⟩
  obtain ⟨htrue, hsrc⟩ :=
    saveOne_of_sameStamp (f := c.file) (w := { c.start with temp := c.edited })
    ht hc hst
  intro hkept
  rw [EditKept, edit_of_started h.started] at hkept
  simp only [Session.finish, if_pos h.status, htrue, if_true, unlink_source] at hkept
  obtain ⟨tmp', ht', hs'⟩ := hkept trivial
  rw [ht, Option.some.injEq, Option.some.injEq] at ht'
  rw [hsrc, ← ht'] at hs'
  exact hne hs'.symm

theorem edit_kept_iff (c : Session) : EditKept c ↔ ¬ Overlooked c := by
  constructor
  · intro hkept hover
    exact edit_of_overlooked hover hkept
  · intro hnot hexit
    by_cases hs : Started c
    · have hfin := edit_finished hs
      generalize hr : c.edit = r at hfin hexit
      cases hfin with
      | failed => cases hexit
      | @skipped w tmp temp compared stamp status source =>
        obtain ⟨hstamped, hm, hi⟩ := sameStamp_iff.mp stamp
        refine ⟨tmp, congrArg some temp, ?_⟩
        by_contra hne
        rw [source] at hne
        exact hnot ⟨hs, hstamped, status, tmp, temp, compared, hm, hi, fun h => hne h.symm⟩
      | @copied w tmp temp source => exact ⟨tmp, congrArg some temp, source⟩
    · rw [(edit_of_not_started hs).1] at hexit
      cases hexit

def noFaults : Faults :=
  ⟨false, false, false, .complete, false, false, false, false, false, .none, .complete,
   false, .none⟩

/-- An editor that writes within one tick of the file clock, in place. -/
def coarseClock : Session :=
  ⟨ascii "motd", ascii "ed", true, ascii "old", true, ascii "abcdef", ⟨100, 0⟩, 7, by decide,
    [.write 0 (ascii "new") ⟨100, 0⟩], .exited 0, noFaults⟩

theorem edit_discarded : ¬ EditKept coarseClock ∧ coarseClock.edit.exitCode = 0 ∧
    coarseClock.edit.world.source = ascii "old" ∧ coarseClock.edit.world.temp.isNone = true := by
  have h : Overlooked coarseClock :=
    ⟨⟨by decide, rfl, rfl, rfl, by decide, rfl, by decide, rfl, rfl⟩, rfl, rfl,
      _, rfl, ⟨rfl, rfl, by decide⟩, rfl, rfl, by decide⟩
  exact ⟨edit_of_overlooked h, by decide, by decide, by decide⟩

/-- An edit shows in the times or the inode number of the temporary file. -/
def EditStamped (c : Session) : Prop :=
  ∀ tmp, c.edited = some tmp → tmp.content ≠ c.original → tmp.mtime ≠ c.created ∨ tmp.ino ≠ c.ino

theorem edit_recoverable (c : Session) (h : EditStamped c) :
    (c.edit.world.source = c.original ∨
      ∃ tmp, c.edit.edited = some (some tmp) ∧
        (c.edit.world.source = tmp.content ∨
          c.edit.world.temp = some tmp ∧ c.edit.world.unlinked = false)) ∧
    (∀ tmp, c.edit.edited = some (some tmp) → c.edit.world.source = tmp.content ∨
      c.edit.world.temp = some tmp ∧ c.edit.world.unlinked = false) ∧
    (c.edit.exitCode ≠ 0 → c.edit.edited ≠ none → c.edit.world.unlinked = false) := by
  by_cases hs : Started c
  · have hfin := edit_finished hs
    generalize hr : c.edit = r at hfin
    cases hfin with
    | @failed w temp unlinked source =>
      refine ⟨?_, ?_, fun _ _ => unlinked⟩
      · cases hed : c.edited with
        | none => exact Or.inl (source hed)
        | some tmp => exact Or.inr ⟨tmp, by simp, Or.inr ⟨temp.trans hed, unlinked⟩⟩
      · intro tmp htmp
        simp only [Option.some.injEq] at htmp
        exact Or.inr ⟨temp.trans htmp, unlinked⟩
    | @skipped w tmp temp compared stamp status source =>
      obtain ⟨-, hm, hi⟩ := sameStamp_iff.mp stamp
      refine ⟨Or.inl source, ?_, fun hne => (hne rfl).elim⟩
      intro tmp' htmp'
      simp only [Option.some.injEq] at htmp'
      obtain rfl : tmp = tmp' := by
        rw [temp] at htmp'
        exact Option.some.inj htmp'
      refine Or.inl (source.trans ?_)
      by_contra hne
      rcases h tmp temp (fun he => hne he.symm) with hm' | hi'
      · exact hm' hm
      · exact hi' hi
    | @copied w tmp temp source =>
      refine ⟨Or.inr ⟨tmp, congrArg some temp, Or.inl source⟩, ?_, fun hne => (hne rfl).elim⟩
      intro tmp' htmp'
      simp only [Option.some.injEq] at htmp'
      rw [temp] at htmp'
      exact Or.inl (source.trans (congrArg TempFile.content (Option.some.inj htmp')))
  · obtain ⟨hexit, hed, hsrc⟩ := edit_of_not_started hs
    refine ⟨Or.inl hsrc, ?_, fun _ hne => (hne hed).elim⟩
    intro tmp htmp
    rw [hed] at htmp
    cases htmp

/-- The copy back breaks off after one byte of the new text. -/
def brokenCopy : Session :=
  { coarseClock with
    actions := [.write 0 (ascii "new") ⟨101, 0⟩]
    faults := { noFaults with sendBack := .broken 1 } }

theorem edit_recoverable_broken_copy :
    brokenCopy.edit.world.source = ascii "n" ∧
      ∃ tmp, brokenCopy.edit.world.temp = some tmp ∧ tmp.content = ascii "new" := by
  have h : EditStamped brokenCopy := by
    intro tmp ht _
    cases ht
    exact Or.inl (by decide)
  have hleft := (edit_recoverable brokenCopy h).2.1 _ rfl
  refine ⟨by decide, _, (hleft.resolve_left (by decide)).1, by decide⟩

end KeyiEdit
