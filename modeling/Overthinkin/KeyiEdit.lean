import Mathlib.Data.Int.Notation
import Overthinkin.AsciiText
import Overthinkin.PosixCalls

/-! `keyi -e` of `keyi.c`: the copy that the editor gets, the editor, and the way back. The calls
of the program can fail, transfers can stop early, and the editor does what it likes with the
temporary file. What `debugx` prints in builds without `NDEBUG` is left out of `stderr`. -/
namespace KeyiEdit

open AsciiText PosixCalls

abbrev Bytes := List UInt8

def MAX_FILE_SIZE : ℕ := 0x7FFFF000

def PATH_MAX : ℕ := 4096

structure Timespec where
  sec : ℤ
  nsec : ℤ
  deriving DecidableEq

/-- A regular file at the temporary path. Inode number zero is never given to a file. -/
structure TempFile where
  content : Bytes
  mtime : Timespec
  ino : ℕ
  ino_pos : 0 < ino

/-- How a `sendfile` goes: all of it, or less with the true count or with an error. -/
inductive Transfer where
  | complete
  | short (moved : ℕ)
  | broken (moved : ℕ)

def Transfer.moved (t : Transfer) (count : ℕ) : ℕ :=
  match t with
  | .complete => count
  | .short n | .broken n => min n count

/-- The value returned; `none` is -1. -/
def Transfer.sent (t : Transfer) (count : ℕ) : Option ℕ :=
  match t with
  | .broken _ => none
  | t => some (t.moved count)

/-- Which calls fail, in the order of the program; one that can fail after its effect has a
fault in place of a yes or no. -/
structure Faults where
  openSrc : Bool
  fstatSrc : Bool
  mkostemps : Bool
  sendOut : Transfer
  fchown : Bool
  fstatTmp : Bool
  openTmp : Bool
  fstatNew : Bool
  lseek : Bool
  ftruncate : Fault
  sendBack : Transfer
  fsync : Bool
  unlink : Fault

/-- `ftruncate` on a file of any length: cut, or filled up with zeros. -/
def resize (content : Bytes) (length : ℕ) : Bytes :=
  content.take length ++ List.replicate (length - content.length) 0

def writeAt (content : Bytes) (offset : ℕ) (data : Bytes) : Bytes :=
  if data = [] then content
  else resize content offset ++ data ++ content.drop (offset + data.length)

/-- What the editor does to the temporary path. The clock gives any times, and a file renamed
over the path may have any inode number, also one that was free again. -/
inductive EditorAction where
  | write (offset : ℕ) (data : Bytes) (mtime : Timespec)
  | truncate (length : ℕ) (mtime : Timespec)
  | setTimes (mtime : Timespec)
  | rename (file : TempFile)
  | remove

def EditorAction.apply : Option TempFile → EditorAction → Option TempFile
  | some t, .write offset data mtime =>
      some { t with content := writeAt t.content offset data, mtime }
  | some t, .truncate length mtime => some { t with content := resize t.content length, mtime }
  | some t, .setTimes mtime => some { t with mtime }
  | none, .write .. | none, .truncate .. | none, .setTimes .. => none
  | _, .rename file => some file
  | _, .remove => none

inductive WaitStatus where
  | exited (code : ℕ)
  | signaled
  deriving DecidableEq

/-- Everything that a run of `keyi -e` meets. -/
structure Session where
  srcPath : Bytes
  editor : Bytes
  ndebug : Bool
  original : Bytes
  regular : Bool
  /-- What `mkostemps` puts for `XXXXXX`. -/
  unique : Bytes
  /-- The times and the inode number of the file that `mkostemps` makes, once it is filled. -/
  created : Timespec
  ino : ℕ
  ino_pos : 0 < ino
  actions : List EditorAction
  status : WaitStatus
  faults : Faults

structure KeyiFile where
  srcPath : Bytes
  tmpPath : Bytes
  ino : ℕ
  time : Timespec

structure World where
  source : Bytes
  srcOffset : ℕ
  temp : Option TempFile
  /-- The program has called `unlink` on the temporary path. -/
  unlinked : Bool
  stderr : List (String × List Bytes)

def World.warn (w : World) (text : String) (paths : List Bytes) : World :=
  { w with stderr := w.stderr ++ [(text, paths)] }

def World.unlink (w : World) (fault : Fault) : World :=
  { w with temp := if fault = .refused then w.temp else none, unlinked := true }

/-- What follows the last `/`. -/
def baseName (path : Bytes) : Bytes := (path.reverse.takeWhile fun c => c ≠ 47).reverse

def tempPath (dir path unique : Bytes) : Bytes := dir ++ ascii "/keyi." ++ unique ++ baseName path

def copyOne (c : Session) (dir : Bytes) (w : World) : Option KeyiFile × World :=
  let path := c.srcPath
  if c.faults.openSrc then (none, w.warn "cannot open file" [path])
  else if c.faults.fstatSrc then (none, w.warn "cannot get file status" [path])
  else if !c.regular then (none, w.warn "not a regular file" [path])
  else
    let template := tempPath dir path (ascii "XXXXXX")
    if template.length ≥ PATH_MAX then
      (none, w.warn "path too long for temporary file" [template.take (PATH_MAX - 1)])
    else if c.faults.mkostemps then (none, w.warn "cannot create temporary file" [template])
    else
      let tmpPath := tempPath dir path c.unique
      let w := { w with temp := some ⟨[], c.created, c.ino, c.ino_pos⟩ }
      let count := w.source.length
      if count > MAX_FILE_SIZE then (none, (w.warn "file too large" [path]).unlink c.faults.unlink)
      else
        let moved := w.source.take (c.faults.sendOut.moved count)
        let w := { w with temp := some ⟨moved, c.created, c.ino, c.ino_pos⟩ }
        if c.faults.sendOut.sent count ≠ some count then
          (none, (w.warn "cannot copy" [path, tmpPath]).unlink c.faults.unlink)
        else if c.faults.fchown then
          (none, (w.warn "cannot change ownership" [tmpPath]).unlink c.faults.unlink)
        -- The result of this `fstat` is not looked at: if it fails, the stamp stays zero.
        else if c.faults.fstatTmp then (some ⟨path, tmpPath, 0, ⟨0, 0⟩⟩, w)
        else (some ⟨path, tmpPath, c.ino, c.created⟩, w)

def saveOne (c : Session) (f : KeyiFile) (w : World) : Bool × World :=
  match w.temp with
  | none => (false, w.warn "cannot open temporary file" [f.tmpPath])
  | some tmp =>
    if c.faults.openTmp then (false, w.warn "cannot open temporary file" [f.tmpPath])
    else if c.faults.fstatNew then (false, w.warn "cannot get temporary file status" [f.tmpPath])
    else
      let count := tmp.content.length
      if count > MAX_FILE_SIZE then (false, w.warn "file too large" [f.tmpPath])
      else
        let w := if count = 0 then w.warn "zero length temporary file" [f.tmpPath] else w
        if f.time.sec = tmp.mtime.sec ∧ f.time.nsec = tmp.mtime.nsec ∧ f.ino = tmp.ino then
          (true, w.warn "unchanged" [f.srcPath])
        else if c.faults.lseek then (false, w.warn "cannot seek in file" [f.srcPath])
        else
          let w := { w with srcOffset := 0 }
          if c.faults.ftruncate = .refused then (false, w.warn "cannot truncate file" [f.srcPath])
          else
            let w := { w with source := [] }
            if c.faults.ftruncate = .late then (false, w.warn "cannot truncate file" [f.srcPath])
            else
              let moved := tmp.content.take (c.faults.sendBack.moved count)
              let w := { w with source := writeAt w.source w.srcOffset moved
                                srcOffset := w.srcOffset + moved.length }
              if c.faults.sendBack.sent count ≠ some count then
                (false, w.warn "cannot copy" [f.tmpPath, f.srcPath])
              else if c.faults.fsync then (false, w.warn "cannot sync file" [f.srcPath])
              else (true, w)

structure Outcome where
  exitCode : ℕ
  world : World
  /-- The temporary path when the editor exited, if there was an editor. -/
  edited : Option (Option TempFile)

def Session.start (c : Session) : World := ⟨c.original, 0, none, false, []⟩

/-- `main` once `waitpid` has returned. -/
def Session.finish (c : Session) (f : KeyiFile) (w : World) : Outcome :=
  let saved := if c.status = .exited 0 then saveOne c f w else (false, w)
  if saved.1 then ⟨0, if c.ndebug then saved.2.unlink c.faults.unlink else saved.2, some w.temp⟩
  else ⟨1, saved.2.warn "backup retained at" [f.tmpPath], some w.temp⟩

/-- `main` from `KEYI_EDIT` on. -/
def Session.edit (c : Session) : Outcome :=
  if (c.editor ++ ascii " \"$@\"").length ≥ 256 then
    ⟨1, c.start.warn "editor command too long" [c.editor], none⟩
  else match copyOne c (ascii "/tmp") c.start with
    | (none, w) => ⟨1, w, none⟩
    | (some f, w) => c.finish f { w with temp := c.actions.foldl EditorAction.apply w.temp }

end KeyiEdit
