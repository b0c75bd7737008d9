import Overthinkin.GitpObject

/-! Tree objects as `writer.go` reads them, entry by entry. -/
namespace GitpTree

open GoRuntime GoRuntime.Outcome GitpObject

structure TreeEntry where
  name : GoString
  mode : UInt32
  oid : OID

/-- `bytes.IndexByte`, with `none` for -1. -/
def indexByte (data : List UInt8) (c : UInt8) : Option ℕ := data.findIdx? (· = c)

theorem indexByte_append {before : List UInt8} {c : UInt8} (h : c ∉ before) (rest : List UInt8) :
    indexByte (before ++ c :: rest) c = some before.length := by
  have hnone : before.findIdx? (fun b => decide (b = c)) = none := by
    rw [List.findIdx?_eq_none_iff]
    intro b hb
    exact decide_eq_false fun he => h (he ▸ hb)
  rw [indexByte, List.findIdx?_append, hnone, List.findIdx?_cons]
  simp

def modeDigit (mode : UInt32) (c : UInt8) : Outcome UInt32 := do
  failIf (c < 48 ∨ c > 55) "malformed tree entry: invalid mode digit"
  ok (mode <<< 3 ||| (c - 48).toUInt32)

/-- The entry at `pos` and the position after it, or `none` at the end of the data. -/
def nextTreeEntry (data : List UInt8) (pos : ℕ) (algo : HashAlgorithm) :
    Outcome (Option (TreeEntry × ℕ)) :=
  if pos ≥ data.length then ok none
  else do
    match indexByte (← slice data pos data.length) 32 with
    | none => error "malformed tree entry: missing mode terminator"
    | some i =>
      let space := i + pos
      let modeBytes ← slice data pos space
      failIf (modeBytes.length = 0 ∨ modeBytes.length ≥ 7)
        "malformed tree entry: invalid mode length"
      let mode ← modeBytes.foldlM modeDigit 0
      match indexByte (← slice data (space + 1) data.length) 0 with
      | none => error "malformed tree entry: missing name terminator"
      | some j =>
        let nul := j + space + 1
        let name ← slice data (space + 1) nul
        failIf (name = []) "malformed tree entry: empty name"
        let oidStart := nul + 1
        let oidEnd := oidStart + algo.rawSize
        failIf (oidEnd > data.length) "malformed tree entry: truncated object ID"
        let oid ← algo.fromBytes (← slice data oidStart oidEnd)
        ok (some (⟨name, mode, oid⟩, oidEnd))

def validEntryName (name : GoString) : Bool :=
  !(name = [] || name = [46] || name = [46, 46]) && !name.contains 47

def modeTree : UInt32 := 0o040000
def modeFile : UInt32 := 0o100644
def modeExecutable : UInt32 := 0o100755
def modeSymlink : UInt32 := 0o120000

/-- `store.Get`, if that is a tree. -/
def treeData (store : ObjectStore) (oid : OID) : Outcome (List UInt8) :=
  match store.get oid with
  | some tree => if tree.type = ObjTree then ok tree.data else error "tree object not found"
  | none => error "tree object not found"

mutual
/-- The recursion is as deep as trees nest; `none` means that `fuel` steps were not enough. -/
def countMaterializedEntries (store : ObjectStore) (fuel : ℕ) (treeOID : OID) :
    Option (Outcome ℕ) :=
  match fuel with
  | 0 => none
  | fuel + 1 => match treeData store treeOID with
    | ok data => countLoop store fuel data 0 0
    | error e => some (error e)
    | .panic => some .panic
def countLoop (store : ObjectStore) (fuel : ℕ) (data : List UInt8) (pos count : ℕ) :
    Option (Outcome ℕ) :=
  match fuel with
  | 0 => none
  | fuel + 1 => match nextTreeEntry data pos store.algo with
    | error e => some (error e)
    | .panic => some .panic
    | ok none => some (ok count)
    | ok (some (entry, nextPos)) =>
      if entry.mode = modeTree then
        match countMaterializedEntries store fuel entry.oid with
        | some (ok nested) => countLoop store fuel data nextPos (count + nested)
        | stopped => stopped
      else if entry.mode = modeFile ∨ entry.mode = modeExecutable ∨ entry.mode = modeSymlink then
        countLoop store fuel data nextPos (count + 1)
      else countLoop store fuel data nextPos count
end

end GitpTree
