import Overthinkin.AlsaApplets

/-! The applet `recover`: it makes the device run into XRUNs and counts how it comes out of them. -/
namespace AlsaRecover

open StatefulCall WatchedCall AlsaStream AlsaSession AlsaApplets

open AlsaOptions (PcmSetup)

/-- `struct recover_stats`. -/
structure RecoverStats where
  xrunsInduced : ℕ
  inductionFailed : ℕ
  recoveriesOk : ℕ
  recoveriesFailed : ℕ
  returnedUsable : ℕ
  lastState : PcmState
  deriving DecidableEq

section
variable (world : World Reply)

def pcmState : Pcm RecoverStats PcmState := ask world .state

def tally (f : RecoverStats → RecoverStats) : Pcm RecoverStats Unit := keep fun _ => f

def usable (st : PcmState) : Bool := st = .prepared || st = .running

/-- The state before an attempt. A stream that is not ready is prepared again. -/
def readyState : Pcm RecoverStats PcmState := do
  let st ← pcmState world
  if usable st then return st
  doPrepare world
  pcmState world

end

/-- The counters after `i` attempts. Each attempt counts as one failed induction, or as one recovery
that succeeded or failed; and one that failed may have done so before its XRUN. -/
structure Balanced (i : ℕ) (s : RecoverStats) : Prop where
  each : s.recoveriesOk + s.recoveriesFailed + s.inductionFailed = i
  induced : s.xrunsInduced + s.inductionFailed ≤ i
  missed : i ≤ s.xrunsInduced + s.inductionFailed + s.recoveriesFailed
  usable : s.returnedUsable = s.recoveriesOk
  ok : s.recoveriesOk ≤ s.xrunsInduced

/-- The counters in the middle of an attempt, once its XRUN was induced. -/
structure Pending (i : ℕ) (s : RecoverStats) : Prop where
  each : s.recoveriesOk + s.recoveriesFailed + s.inductionFailed = i
  induced : s.xrunsInduced + s.inductionFailed ≤ i + 1
  missed : i + 1 ≤ s.xrunsInduced + s.inductionFailed + s.recoveriesFailed
  usable : s.returnedUsable = s.recoveriesOk
  ok : s.recoveriesOk + 1 ≤ s.xrunsInduced

section
variable {i : ℕ} {o : Stream} {P R : RecoverStats → Prop} {b : Prop}
  {F : UInt64 → List UInt64 → Prop} {E : Stream × RecoverStats → Session → Prop}
  {I : Stream × RecoverStats → Session → Prop} {world : World Reply} {s : RecoverStats}

/-- The invariant of an open stream, with a condition on the counters. -/
abbrev Holds (o : Stream) (P : RecoverStats → Prop) : Stream × RecoverStats → Session → Prop :=
  Inv o (fun _ s => P s) True (Chained o)

theorem Balanced.failed (h : Balanced i s) :
    Balanced (i + 1) { s with recoveriesFailed := s.recoveriesFailed + 1 } := by
  obtain ⟨heach, hinduced, hmissed, husable, hok⟩ := h
  constructor <;> dsimp only <;> omega

theorem Balanced.pending (h : Balanced i s) :
    Pending i { s with xrunsInduced := s.xrunsInduced + 1 } := by
  obtain ⟨heach, hinduced, hmissed, husable, hok⟩ := h
  constructor <;> dsimp only <;> omega

theorem Pending.failed (h : Pending i s) :
    Balanced (i + 1) { s with recoveriesFailed := s.recoveriesFailed + 1 } := by
  obtain ⟨heach, hinduced, hmissed, husable, hok⟩ := h
  constructor <;> dsimp only <;> omega

theorem Balanced.content (h : Balanced i s) :
    (s.xrunsInduced = i ∧ s.recoveriesOk = i) ↔
      ¬ (0 < s.inductionFailed ∨ 0 < s.recoveriesFailed) := by
  obtain ⟨heach, hinduced, hmissed, husable, hok⟩ := h
  omega

end

end AlsaRecover
