import Overthinkin.PosixFileSystem
import Overthinkin.StatefulCall

/-! System calls of a program that is alone on a file system. Any call can fail for reasons
outside the model, with or without its effect. -/
namespace PosixCalls

open PosixFileSystem StatefulCall

inductive Fault where
  | none
  | refused
  | late
  deriving DecidableEq, Repr

/-- `touched` collects the entries that were created, written or changed in mode. -/
structure World where
  fs : FileSystem
  touched : List Touch
  calls : ℕ

def World.after {α : Type} (w : World) (e : Effect α) : World :=
  ⟨e.fs, w.touched ++ e.touched, w.calls + 1⟩

def World.unchanged (w : World) : World := { w with calls := w.calls + 1 }

/-- The n-th call meets the n-th fault. -/
def syscall {α : Type} (faults : ℕ → Fault) (op : FileSystem → Except Errno (Effect α)) :
    Call World Errno α :=
  ofStep fun w => match faults w.calls, op w.fs with
    | .refused, _ => (.error .other, w.unchanged)
    | _, .error e => (.error e, w.unchanged)
    | .none, .ok e => (.ok e.value, w.after e)
    | .late, .ok e => (.error .other, w.after e)

section
variable (faults : ℕ → Fault)

def mkdir (path : Path) : Call World Errno Unit := syscall faults fun fs => fs.mkdir path

def lstat (path : Path) : Call World Errno Node := syscall faults fun fs =>
  match (fs.lstat path).bind fs.nodes with
  | some node => .ok ⟨node, fs, []⟩
  | none => .error .other

def openNoFollow (path : Path) (mode : ℕ) : Call World Errno Handle :=
  syscall faults fun fs => fs.openNoFollow path mode

def write (fd : Handle) (data : List UInt8) : Call World Errno Unit :=
  syscall faults fun fs => .ok (fs.write fd data)

def fchmod (fd : Handle) (mode : ℕ) : Call World Errno Unit :=
  syscall faults fun fs => .ok (fs.fchmod fd mode)

def close (_fd : Handle) : Call World Errno Unit :=
  syscall faults fun fs => .ok ⟨(), fs, []⟩

def symlink (target path : Path) : Call World Errno Unit :=
  syscall faults fun fs => fs.symlink target path

end

/-- Between `w` and `w'` at most the entry `name` of `d` was touched. -/
structure Confined (d : Inode) (name : Name) (w w' : World) : Prop where
  grows : Grows w.fs w'.fs
  touched : ∃ more, w'.touched = w.touched ++ more ∧ ∀ t ∈ more, t.dir = d ∧ t.name = name

/-- What an effect does stays at the entry `name` of `d`. -/
structure Stays {α : Type} (d : Inode) (name : Name) (fs : FileSystem) (e : Effect α) : Prop where
  grows : Grows fs e.fs
  touched : ∀ t ∈ e.touched, t.dir = d ∧ t.name = name

variable {α : Type} {faults : ℕ → Fault} {d : Inode} {name : Name} {w w' w'' : World}

theorem Confined.refl (d : Inode) (name : Name) (w : World) : Confined d name w w :=
  ⟨Grows.refl _, [], by simp, by simp⟩

theorem Confined.trans (h : Confined d name w w') (k : Confined d name w' w'') :
    Confined d name w w'' where
  grows := h.grows.trans k.grows
  touched := by
    obtain ⟨a, ha, hta⟩ := h.touched
    obtain ⟨b, hb, htb⟩ := k.touched
    refine ⟨a ++ b, by rw [hb, ha, List.append_assoc], ?_⟩
    intro t ht
    rcases List.mem_append.mp ht with ht | ht
    · exact hta t ht
    · exact htb t ht

theorem confined_unchanged (d : Inode) (name : Name) (w : World) :
    Confined d name w w.unchanged :=
  ⟨Grows.refl _, [], by simp [World.unchanged], by simp⟩

theorem Stays.confined {e : Effect α} (h : Stays d name w.fs e) : Confined d name w (w.after e) :=
  ⟨h.grows, e.touched, rfl, h.touched⟩

/-- A call whose effect stays at an entry touches nothing else, however it ends. -/
theorem syscall_confined {op : FileSystem → Except Errno (Effect α)}
    (h : ∀ s, Confined d name w s → ∀ e, op s.fs = .ok e → Stays d name s.fs e) :
    Triple (Confined d name w) (syscall faults op)
      (fun a s => Confined d name w s ∧
        ∃ s', Confined d name w s' ∧ ∃ e, op s'.fs = .ok e ∧ a = e.value)
      (Confined d name w) := by
  intro s hs
  rw [syscall, from_ofStep]
  have hu : Confined d name w s.unchanged := hs.trans (confined_unchanged d name s)
  cases ho : op s.fs with
  | error e => cases faults s.calls <;> exact hu
  | ok e =>
    have hc : Confined d name w (s.after e) := hs.trans (h s hs e ho).confined
    cases faults s.calls with
    | none => exact ⟨hc, s, hs, e, ho, rfl⟩
    | refused => exact hu
    | late => exact hc

/-- A call that no state of the file system can refuse. -/
theorem syscall_kept {op : FileSystem → Effect α} (h : ∀ fs, Stays d name fs (op fs)) :
    Triple (Confined d name w) (syscall faults fun fs => .ok (op fs))
      (fun _ => Confined d name w) (Confined d name w) := by
  apply (syscall_confined _).post (fun _ _ h => h.1) fun _ h => h
  intro s _ e he
  cases he
  exact h s.fs

theorem symlink_stays {fs : FileSystem} {target path : Path} {e : Effect Unit}
    (hl : fs.locate path = some (d, name)) (h : fs.symlink target path = .ok e) :
    Stays d name fs e := by
  unfold FileSystem.symlink at h
  rw [hl] at h
  dsimp only at h
  cases he : fs.entry d name with
  | some i => rw [he] at h; cases h
  | none =>
    rw [he] at h
    dsimp only at h
    split at h
    · cases h
    · cases h
      exact ⟨grows_link he _, by simp⟩

theorem openNoFollow_stays {fs : FileSystem} {path : Path} {mode : ℕ}
    {e : Effect Handle} (hl : fs.locate path = some (d, name))
    (h : fs.openNoFollow path mode = .ok e) :
    Stays d name fs e ∧ e.value.dir = d ∧ e.value.name = name := by
  unfold FileSystem.openNoFollow at h
  rw [hl] at h
  dsimp only at h
  split at h
  · cases h
  · cases he : fs.entry d name with
    | none =>
      rw [he] at h
      cases h
      exact ⟨⟨grows_link he _, by simp⟩, rfl, rfl⟩
    | some i =>
      rw [he] at h
      dsimp only at h
      split at h
      · cases h
        exact ⟨⟨grows_setFile i _, by simp⟩, rfl, rfl⟩
      · cases h

theorem write_stays (fs : FileSystem) (fd : Handle) (data : List UInt8) :
    Stays fd.dir fd.name fs (fs.write fd data) :=
  ⟨grows_setFile _ _, by simp [FileSystem.write]⟩

theorem fchmod_stays (fs : FileSystem) (fd : Handle) (mode : ℕ) :
    Stays fd.dir fd.name fs (fs.fchmod fd mode) :=
  ⟨grows_setFile _ _, by simp [FileSystem.fchmod]⟩

end PosixCalls
