import Overthinkin.GitpTree
import Overthinkin.GoFilepath
import Overthinkin.PosixCalls

/-! `materialize` of `writer.go` with the Unix half of it: a tree object becomes files,
directories and symbolic links under the output directory. Progress is left out. -/
namespace GitpCheckout

open GoRuntime GoRuntime.Outcome GitpObject GitpTree PosixFileSystem PosixCalls StatefulCall
  GoFilepath

/-- Why a checkout ends early; `exhausted` belongs to the model, when its recursion is cut off. -/
inductive Stop where
  | error (message : GoString)
  | panic
  | exhausted

def returned {α : Type} : Outcome α → Call World Stop α
  | ok a => pure a
  | error e => throw (.error (ascii e))
  | .panic => throw .panic

section
variable (faults : ℕ → Fault)

def ensureDir (path : Path) : Call World Stop Unit := do
  match ← attempt (mkdir faults path) with
  | .ok _ => return ()
  | .error .other => throw (.error (ascii "cannot create directory " ++ path))
  | .error .alreadyExists =>
    match ← attempt (lstat faults path) with
    | .ok (.dir _ _) => return ()
    | _ => throw (.error (path ++ ascii " exists and is not a directory"))

/-- The error path closes the file and keeps its own error. -/
def closing {α : Type} (fd : Handle) (x : Call World Errno α) (message : GoString) :
    Call World Stop α := do
  match ← attempt x with
  | .ok a => return a
  | .error _ =>
    let _ ← attempt (close faults fd)
    throw (.error message)

def writeBlob (blob : Option Object) (path : Path) (executable : Bool) : Call World Stop Unit :=
  match blob with
  | none => throw (.error (ascii "write_blob: invalid blob"))
  | some blob =>
    if blob.type ≠ ObjBlob then throw (.error (ascii "write_blob: invalid blob"))
    else do
      let mode := if executable then 0o755 else 0o644
      let fd ← orElse (openNoFollow faults path mode) (.error (ascii "cannot create file " ++ path))
      closing faults fd (write faults fd blob.data) (ascii "write failed for " ++ path)
      closing faults fd (fchmod faults fd mode) (ascii "fchmod failed for " ++ path)
      orElse (close faults fd) (.error (ascii "close failed for " ++ path))

def writeSymlink (blob : Option Object) (path : Path) : Call World Stop Unit :=
  match blob with
  | none => throw (.error (ascii "write_symlink: invalid blob"))
  | some blob =>
    if blob.type ≠ ObjBlob then throw (.error (ascii "write_symlink: invalid blob"))
    else if blob.data = [] ∨ 0 ∈ blob.data then
      throw (.error (ascii "write_symlink: invalid symlink target"))
    else
      orElse (symlink faults blob.data path) (.error (ascii "cannot create symlink " ++ path))

/-- One entry that is not a tree; the result says whether it counts as written. -/
def writeEntry (store : ObjectStore) (entry : TreeEntry) (path : Path) : Call World Stop ℕ :=
  if entry.mode = modeFile ∨ entry.mode = modeExecutable then do
    writeBlob faults (store.get entry.oid) path (entry.mode = modeExecutable)
    return 1
  else if entry.mode = modeSymlink then do
    writeSymlink faults (store.get entry.oid) path
    return 1
  else return 0

mutual
def materializeTree (store : ObjectStore) (fuel : ℕ) (treeOID : OID) (dir : Path) (written : ℕ) :
    Call World Stop ℕ :=
  match fuel with
  | 0 => throw .exhausted
  | fuel + 1 => do
    let data ← returned (treeData store treeOID)
    materializeLoop store fuel data 0 dir written
def materializeLoop (store : ObjectStore) (fuel : ℕ) (data : List UInt8) (pos : ℕ) (dir : Path)
    (written : ℕ) : Call World Stop ℕ :=
  match fuel with
  | 0 => throw .exhausted
  | fuel + 1 => do
    match ← returned (nextTreeEntry data pos store.algo) with
    | none => return written
    | some (entry, nextPos) =>
      if validEntryName entry.name = false then throw (.error (ascii "invalid tree entry name"))
      else
        let path := join [dir, entry.name]
        if entry.mode = modeTree then do
          ensureDir faults path
          let written ← materializeTree store fuel entry.oid path written
          materializeLoop store fuel data nextPos dir written
        else do
          let one ← writeEntry faults store entry path
          materializeLoop store fuel data nextPos dir (written + one)
end

def materialize (store : ObjectStore) (fuel : ℕ) (treeOID : OID) (outDir : Path) :
    Call World Stop ℕ :=
  match countMaterializedEntries store fuel treeOID with
  | none => throw .exhausted
  | some total => do
    let total ← returned total
    ensureDir faults outDir
    let _ ← materializeTree faults store fuel treeOID outDir 0
    return total

end

end GitpCheckout
