import Overthinkin.GitpCheckout

/-! A checkout as a list of steps. What `materializeTree` is going to create depends on the store
alone: the plan lists it in the order of the traversal, up to the first entry that no file system
can help with. -/
namespace GitpPlan

open GoRuntime GoRuntime.Outcome GitpObject GitpTree PosixFileSystem PosixCalls StatefulCall
  GoFilepath GitpCheckout

inductive Kind where
  | directory
  | file (data : List UInt8) (executable : Bool)
  | symlink (target : Path)
  deriving DecidableEq

/-- Something to create: the names that lead to its directory from the output directory, its own
name, and what it is. -/
structure Step where
  above : List Name
  name : Name
  kind : Kind
  deriving DecidableEq

def Step.path (s : Step) : List Name := s.above ++ [s.name]

/-- Directories are not counted as written. -/
def Kind.weight : Kind → ℕ
  | .directory => 0
  | .file _ _ | .symlink _ => 1

/-- What `symlink` takes for a target. -/
def Kind.Valid : Kind → Prop
  | .directory | .file _ _ => True
  | .symlink target => target ≠ [] ∧ 0 ∉ target

/-- The steps, and what ends the traversal after them if it does not come to its end. -/
structure Plan where
  steps : List Step
  stop : Option Stop

namespace Plan

def done : Plan := ⟨[], none⟩

def stopped (stop : Stop) : Plan := ⟨[], some stop⟩

def one (s : Step) : Plan := ⟨[s], none⟩

def «then» (p q : Plan) : Plan :=
  match p.stop with
  | some _ => p
  | none => ⟨p.steps ++ q.steps, q.stop⟩

end Plan

/-- What an entry other than a tree asks for; a mode that is none of the four asks for nothing. -/
def leafKind (store : ObjectStore) (entry : TreeEntry) : Except Stop (Option Kind) :=
  if entry.mode = modeFile ∨ entry.mode = modeExecutable then
    match store.get entry.oid with
    | none => .error (.error (ascii "write_blob: invalid blob"))
    | some blob =>
      if blob.type ≠ ObjBlob then .error (.error (ascii "write_blob: invalid blob"))
      else .ok (some (.file blob.data (entry.mode = modeExecutable)))
  else if entry.mode = modeSymlink then
    match store.get entry.oid with
    | none => .error (.error (ascii "write_symlink: invalid blob"))
    | some blob =>
      if blob.type ≠ ObjBlob then .error (.error (ascii "write_symlink: invalid blob"))
      else if blob.data = [] ∨ 0 ∈ blob.data then
        .error (.error (ascii "write_symlink: invalid symlink target"))
      else .ok (some (.symlink blob.data))
  else .ok none

def leafPlan (store : ObjectStore) (entry : TreeEntry) (above : List Name) : Plan :=
  match leafKind store entry with
  | .error stop => .stopped stop
  | .ok none => .done
  | .ok (some kind) => .one ⟨above, entry.name, kind⟩

mutual
def planTree (store : ObjectStore) (fuel : ℕ) (treeOID : OID) (above : List Name) : Plan :=
  match fuel with
  | 0 => .stopped .exhausted
  | fuel + 1 => match treeData store treeOID with
    | ok data => planLoop store fuel data 0 above
    | error e => .stopped (.error (ascii e))
    | .panic => .stopped .panic
def planLoop (store : ObjectStore) (fuel : ℕ) (data : List UInt8) (pos : ℕ) (above : List Name) :
    Plan :=
  match fuel with
  | 0 => .stopped .exhausted
  | fuel + 1 => match nextTreeEntry data pos store.algo with
    | error e => .stopped (.error (ascii e))
    | .panic => .stopped .panic
    | ok none => .done
    | ok (some (entry, nextPos)) =>
      if validEntryName entry.name = false then .stopped (.error (ascii "invalid tree entry name"))
      else if entry.mode = modeTree then
        (Plan.one ⟨above, entry.name, .directory⟩).then
          ((planTree store fuel entry.oid (above ++ [entry.name])).then
            (planLoop store fuel data nextPos above))
      else (leafPlan store entry above).then (planLoop store fuel data nextPos above)
end

/-! ### The steps taken -/

/-- The path that the joins make of names below `outDir`. -/
def place (outDir : Path) (above : List Name) : Path :=
  above.foldl (fun dir name => join [dir, name]) outDir

theorem place_snoc (outDir : Path) (above : List Name) (name : Name) :
    place outDir (above ++ [name]) = join [place outDir above, name] := by
  rw [place, List.foldl_concat, place]

section
variable (faults : ℕ → Fault) (outDir : Path)

def create (path : Path) : Kind → Call World Stop Unit
  | .directory => ensureDir faults path
  | .file data executable => writeBlob faults (some ⟨ObjBlob, zeroOID, data, 0⟩) path executable
  | .symlink target => writeSymlink faults (some ⟨ObjBlob, zeroOID, target, 0⟩) path

def perform (s : Step) : Call World Stop ℕ := do
  create faults (join [place outDir s.above, s.name]) s.kind
  return s.kind.weight

def performAll (written : ℕ) : List Step → Call World Stop ℕ
  | [] => pure written
  | s :: rest => do
    let one ← perform faults outDir s
    performAll (written + one) rest

def Plan.run (written : ℕ) (p : Plan) : Call World Stop ℕ := do
  let written ← performAll faults outDir written p.steps
  match p.stop with
  | none => return written
  | some stop => throw stop

variable {faults outDir}

theorem performAll_append (written : ℕ) (a b : List Step) :
    performAll faults outDir written (a ++ b) =
      performAll faults outDir written a >>= fun w => performAll faults outDir w b := by
  induction a generalizing written with
  | nil => rw [List.nil_append, performAll, pure_bind]
  | cons s rest ih =>
    rw [List.cons_append, performAll, performAll, bind_assoc]
    exact bind_congr fun one => ih _

theorem run_done (written : ℕ) : Plan.done.run faults outDir written = pure written := by
  rw [Plan.run, Plan.done, performAll, pure_bind]

theorem run_stopped (stop : Stop) (written : ℕ) :
    (Plan.stopped stop).run faults outDir written = throw stop := by
  rw [Plan.run, Plan.stopped, performAll, pure_bind]

theorem run_one (s : Step) (written : ℕ) :
    (Plan.one s).run faults outDir written =
      perform faults outDir s >>= fun one => pure (written + one) := by
  rw [Plan.run, Plan.one, performAll, bind_assoc]
  exact bind_congr fun one => by rw [performAll, pure_bind]

theorem run_then (p q : Plan) (written : ℕ) :
    (p.then q).run faults outDir written =
      p.run faults outDir written >>= fun w => q.run faults outDir w := by
  unfold Plan.then
  cases hp : p.stop with
  | some stop =>
    simp only [Plan.run, hp, bind_assoc]
    rfl
  | none =>
    simp only [Plan.run, hp, performAll_append, bind_assoc, pure_bind]

/-- `writeBlob` looks at nothing but the data of the blob. -/
theorem writeBlob_create {blob : Object} (h : blob.type = ObjBlob) (path : Path)
    (executable : Bool) :
    writeBlob faults (some blob) path executable =
      create faults path (.file blob.data executable) := by
  simp only [create, writeBlob, h, ne_eq, not_true_eq_false, if_false]

theorem writeSymlink_create {blob : Object} (h : blob.type = ObjBlob) (path : Path) :
    writeSymlink faults (some blob) path = create faults path (.symlink blob.data) := by
  simp only [create, writeSymlink, h, ne_eq, not_true_eq_false, if_false]

theorem perform_one (above : List Name) (name : Name) (kind : Kind) (written : ℕ) :
    (Plan.one ⟨above, name, kind⟩).run faults outDir written =
      create faults (join [place outDir above, name]) kind >>= fun _ =>
        pure (written + kind.weight) := by
  rw [run_one, perform, bind_assoc]
  exact bind_congr fun _ => by rw [pure_bind]

theorem writeEntry_plan (store : ObjectStore) (entry : TreeEntry) (above : List Name)
    (written : ℕ) :
    (writeEntry faults store entry (join [place outDir above, entry.name]) >>= fun one =>
      pure (written + one)) = (leafPlan store entry above).run faults outDir written := by
  unfold writeEntry leafPlan leafKind
  by_cases hf : entry.mode = modeFile ∨ entry.mode = modeExecutable
  · rw [if_pos hf, if_pos hf]
    cases hb : store.get entry.oid with
    | none => exact (run_stopped _ _).symm
    | some blob =>
      dsimp only
      by_cases ht : blob.type = ObjBlob
      · rw [if_neg (not_not.mpr ht), perform_one, bind_assoc, writeBlob_create ht]
        exact bind_congr fun _ => by rw [pure_bind]; rfl
      · rw [if_pos ht, writeBlob, if_pos ht, run_stopped]
        rfl
  · rw [if_neg hf, if_neg hf]
    by_cases hs : entry.mode = modeSymlink
    · rw [if_pos hs, if_pos hs]
      cases hb : store.get entry.oid with
      | none => exact (run_stopped _ _).symm
      | some blob =>
        dsimp only
        by_cases ht : blob.type = ObjBlob
        · rw [if_neg (not_not.mpr ht)]
          by_cases hd : blob.data = [] ∨ 0 ∈ blob.data
          · rw [if_pos hd, writeSymlink, if_neg (not_not.mpr ht), if_pos hd, run_stopped]
            rfl
          · rw [if_neg hd, perform_one, bind_assoc, writeSymlink_create ht]
            exact bind_congr fun _ => by rw [pure_bind]; rfl
        · rw [if_pos ht, writeSymlink, if_pos ht, run_stopped]
          rfl
    · rw [if_neg hs, if_neg hs, pure_bind, run_done]
      rfl

theorem returned_bind {α β : Type} (x : Outcome α) (f : α → Call World Stop β) :
    (returned x >>= f) = match x with
      | ok a => f a
      | error e => throw (.error (ascii e))
      | .panic => throw .panic := by
  cases x <;> rfl

/-- The traversal carries out its plan. -/
theorem materialize_plan (store : ObjectStore) (fuel : ℕ) :
    (∀ treeOID above written,
      materializeTree faults store fuel treeOID (place outDir above) written =
      (planTree store fuel treeOID above).run faults outDir written) ∧
    (∀ data pos above written,
      materializeLoop faults store fuel data pos (place outDir above) written =
        (planLoop store fuel data pos above).run faults outDir written) := by
  induction fuel with
  | zero =>
    constructor
    · intro treeOID above written
      rw [materializeTree, planTree, run_stopped]
    · intro data pos above written
      rw [materializeLoop, planLoop, run_stopped]
  | succ fuel ih =>
    obtain ⟨ihTree, ihLoop⟩ := ih
    constructor
    · intro treeOID above written
      rw [materializeTree, planTree, returned_bind]
      cases treeData store treeOID with
      | ok data => exact ihLoop data 0 above written
      | error e => exact (run_stopped _ _).symm
      | panic => exact (run_stopped _ _).symm
    · intro data pos above written
      rw [materializeLoop, planLoop, returned_bind]
      cases nextTreeEntry data pos store.algo with
      | error e => exact (run_stopped _ _).symm
      | panic => exact (run_stopped _ _).symm
      | ok next =>
        rcases next with _ | ⟨entry, nextPos⟩
        · exact (run_done written).symm
        dsimp only
        by_cases hv : validEntryName entry.name = false
        · rw [if_pos hv, if_pos hv, run_stopped]
        rw [if_neg hv, if_neg hv]
        by_cases hm : entry.mode = modeTree
        · rw [if_pos hm, if_pos hm, run_then, perform_one, bind_assoc]
          refine bind_congr fun _ => ?_
          rw [pure_bind, run_then, ← place_snoc, ihTree]
          exact bind_congr fun w => ihLoop data nextPos above w
        · rw [if_neg hm, if_neg hm, run_then, ← writeEntry_plan, bind_assoc]
          exact bind_congr fun one => by rw [pure_bind, ihLoop]

/-- So it does from the root. -/
theorem materializeTree_run (faults : ℕ → Fault) (store : ObjectStore) (fuel : ℕ)
    (treeOID : OID) (outDir : Path) :
    materializeTree faults store fuel treeOID outDir 0 =
      (planTree store fuel treeOID []).run faults outDir 0 :=
  (materialize_plan store fuel).1 treeOID [] 0

end

end GitpPlan
