import Overthinkin.GitpCheckout
import Overthinkin.LoggedCall

/-! `materialize` with the progress it reports. The reports go to a log beside the file system and
change nothing else. -/
namespace GitpProgress

open GoRuntime GoRuntime.Outcome GitpObject GitpTree PosixFileSystem PosixCalls StatefulCall
  LoggedCall GoFilepath GitpCheckout

inductive Report where
  | stage (name : GoString)
  | writing (done total : ℕ)
  deriving DecidableEq

abbrev Session := World × List Report

section
variable (faults : ℕ → Fault) (progress : Bool)

mutual
def materializeTree (store : ObjectStore) (fuel : ℕ) (treeOID : OID) (dir : Path)
    (total written : ℕ) : Call Session Stop ℕ :=
  match fuel with
  | 0 => throw .exhausted
  | fuel + 1 => do
    let data ← silent (returned (treeData store treeOID))
    materializeLoop store fuel data 0 dir total written
def materializeLoop (store : ObjectStore) (fuel : ℕ) (data : List UInt8) (pos : ℕ) (dir : Path)
    (total written : ℕ) : Call Session Stop ℕ :=
  match fuel with
  | 0 => throw .exhausted
  | fuel + 1 => do
    match ← silent (returned (nextTreeEntry data pos store.algo)) with
    | none => return written
    | some (entry, nextPos) =>
      if validEntryName entry.name = false then throw (.error (ascii "invalid tree entry name"))
      else
        let path := join [dir, entry.name]
        if entry.mode = modeTree then do
          silent (ensureDir faults path)
          let written ← materializeTree store fuel entry.oid path total written
          materializeLoop store fuel data nextPos dir total written
        else if
          entry.mode = modeFile ∨ entry.mode = modeExecutable ∨ entry.mode = modeSymlink then do
          let _ ← silent (writeEntry faults store entry path)
          record progress (.writing (written + 1) total)
          materializeLoop store fuel data nextPos dir total (written + 1)
        else materializeLoop store fuel data nextPos dir total written
end

def materialize (store : ObjectStore) (fuel : ℕ) (treeOID : OID) (outDir : Path) :
    Call Session Stop ℕ :=
  match countMaterializedEntries store fuel treeOID with
  | none => throw .exhausted
  | some total => do
    let total ← silent (returned total)
    record progress (.stage (ascii "writing files"))
    record progress (.writing 0 total)
    silent (ensureDir faults outDir)
    let _ ← materializeTree faults progress store fuel treeOID outDir total 0
    return total

end

/-! ### Without the log -/

section
variable {α : Type} {faults : ℕ → Fault} {progress : Bool}

/-- But for the log, `x` is `y`. -/
abbrev Mirrors (progress : Bool) (x : Call Session Stop α) (y : Call World Stop α) : Prop :=
  Follows progress x y (fun _ _ => True) fun _ => True

theorem mirrors_silent (x : Call World Stop α) : Mirrors progress (silent x) x :=
  (follows_silent x).mono (fun _ _ _ => trivial) fun _ _ => trivial

/-- What an entry counts for is settled by its mode. -/
theorem writeEntry_bind (store : ObjectStore) (entry : TreeEntry) (path : Path)
    (f : ℕ → Call World Stop α) :
    writeEntry faults store entry path >>= f = writeEntry faults store entry path >>= fun _ =>
      f (if entry.mode = modeFile ∨ entry.mode = modeExecutable ∨ entry.mode = modeSymlink then 1
        else 0) := by
  unfold writeEntry
  by_cases hf : entry.mode = modeFile ∨ entry.mode = modeExecutable
  · have hc : entry.mode = modeFile ∨ entry.mode = modeExecutable ∨ entry.mode = modeSymlink :=
      hf.imp_right .inl
    simp only [if_pos hf, if_pos hc, bind_assoc, pure_bind]
  · by_cases hs : entry.mode = modeSymlink
    · have hc : entry.mode = modeFile ∨ entry.mode = modeExecutable ∨ entry.mode = modeSymlink :=
        .inr (.inr hs)
      simp only [if_neg hf, if_pos hs, if_pos hc, bind_assoc, pure_bind]
    · have hc :
          ¬ (entry.mode = modeFile ∨ entry.mode = modeExecutable ∨ entry.mode = modeSymlink) := by
        rw [not_or] at hf
        simp [hf, hs]
      simp only [if_neg hf, if_neg hs, if_neg hc, pure_bind]

theorem materializeTree_follows (store : ObjectStore) (fuel total : ℕ) :
    (∀ treeOID dir written,
      Mirrors progress (materializeTree faults progress store fuel treeOID dir total written)
        (GitpCheckout.materializeTree faults store fuel treeOID dir written)) ∧
    (∀ data pos dir written,
      Mirrors progress (materializeLoop faults progress store fuel data pos dir total written)
        (GitpCheckout.materializeLoop faults store fuel data pos dir written)) := by
  induction fuel with
  | zero =>
    constructor
    · intro treeOID dir written
      rw [materializeTree, GitpCheckout.materializeTree]
      exact follows_throw trivial
    · intro data pos dir written
      rw [materializeLoop, GitpCheckout.materializeLoop]
      exact follows_throw trivial
  | succ fuel ih =>
    obtain ⟨ihTree, ihLoop⟩ := ih
    constructor
    · intro treeOID dir written
      rw [materializeTree, GitpCheckout.materializeTree]
      exact (mirrors_silent _).bind fun data _ _ => ihLoop data 0 dir written
    · intro data pos dir written
      rw [materializeLoop, GitpCheckout.materializeLoop]
      refine (mirrors_silent _).bind fun next _ _ => ?_
      rcases next with _ | ⟨entry, nextPos⟩
      · exact follows_pure trivial
      dsimp only
      split
      · exact follows_throw trivial
      split
      · refine (mirrors_silent _).bind fun _ _ _ => ?_
        exact (ihTree _ _ _).bind fun w _ _ => ihLoop _ _ _ _
      split
      · rename_i hc
        rw [writeEntry_bind, if_pos hc]
        exact (mirrors_silent _).bind fun _ _ _ => (ihLoop _ _ _ _).record
      · rename_i hc
        rw [writeEntry, if_neg fun h => hc (h.imp_right .inl), if_neg fun h => hc (.inr (.inr h)),
          pure_bind]
        exact ihLoop _ _ _ _

/-- Reporting leaves the checkout as it is. -/
theorem materialize_follows (faults : ℕ → Fault) (progress : Bool)
    (store : ObjectStore) (fuel : ℕ) (treeOID : OID) (outDir : Path) :
    Mirrors progress (materialize faults progress store fuel treeOID outDir)
      (GitpCheckout.materialize faults store fuel treeOID outDir) := by
  unfold materialize GitpCheckout.materialize
  cases countMaterializedEntries store fuel treeOID with
  | none => exact follows_throw trivial
  | some total =>
    refine (mirrors_silent _).bind fun total _ _ => Follows.record (Follows.record ?_)
    refine (mirrors_silent _).bind fun _ _ _ => ?_
    exact ((materializeTree_follows store fuel total).1 treeOID outDir 0).bind fun _ _ _ =>
      follows_pure trivial

/-! ### The log -/

/-- The reports on the first `n` entries of `total`. -/
def reports (progress : Bool) (total n : ℕ) : List Report :=
  if progress then (List.range n).map fun k => .writing (k + 1) total else []

theorem record_reports {base : List Report} (total written : ℕ) {E : Session → Prop} :
    Triple (fun s => s.2 = base ++ reports progress total written)
      (record progress (.writing (written + 1) total) : Call Session Stop Unit)
      (fun _ s => s.2 = base ++ reports progress total (written + 1)) E := by
  refine (record_log _).post (fun _ s hs => hs.trans ?_) fun _ h => h
  rw [reports, reports]
  cases progress <;> simp [List.range_succ]

theorem materializeTree_reports (faults : ℕ → Fault) (base : List Report)
    (store : ObjectStore) (fuel total : ℕ) :
    (∀ treeOID dir written, Triple (fun s => s.2 = base ++ reports progress total written)
      (materializeTree faults progress store fuel treeOID dir total written)
      (fun w s => s.2 = base ++ reports progress total w) (fun _ => True)) ∧
    (∀ data pos dir written, Triple (fun s => s.2 = base ++ reports progress total written)
      (materializeLoop faults progress store fuel data pos dir total written)
      (fun w s => s.2 = base ++ reports progress total w) (fun _ => True)) := by
  induction fuel with
  | zero =>
    constructor
    · intro treeOID dir written
      rw [materializeTree]
      exact Triple.throw fun _ _ => trivial
    · intro data pos dir written
      rw [materializeLoop]
      exact Triple.throw fun _ _ => trivial
  | succ fuel ih =>
    obtain ⟨ihTree, ihLoop⟩ := ih
    constructor
    · intro treeOID dir written
      rw [materializeTree]
      exact ((silent_log _).onError fun _ _ => trivial).bind fun data => ihLoop data 0 dir written
    · intro data pos dir written
      rw [materializeLoop]
      apply ((silent_log _).onError fun _ _ => trivial).bind
      rintro (_ | ⟨entry, nextPos⟩)
      · exact Triple.pure fun _ h => h
      dsimp only
      split
      · exact Triple.throw fun _ _ => trivial
      split
      · apply ((silent_log _).onError fun _ _ => trivial).bind
        intro ⟨⟩
        exact (ihTree _ _ _).bind fun w => ihLoop _ _ _ _
      split
      · apply ((silent_log _).onError fun _ _ => trivial).bind
        intro one
        exact (record_reports total written).bind fun _ => ihLoop _ _ _ _
      · exact ihLoop _ _ _ _

end

end GitpProgress
