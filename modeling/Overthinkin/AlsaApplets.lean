import Overthinkin.AlsaHistogram
import Overthinkin.AlsaSession

/-! The applets `play`, `xrun` and `latency` from the opening of the device to the report. -/
namespace AlsaApplets

open StatefulCall WatchedCall AlsaStream AlsaSession AlsaDeadline

open AlsaOptions (PcmSetup)

section
variable {γ : Type}

/-- What an applet keeps for itself. -/
def keep (f : Stream → γ → γ) : Pcm γ Unit := change fun s => (s.1, f s.1 s.2)

variable (world : World Reply)

/-- `now_ns`. -/
def nowNs : Pcm γ UInt64 := ask world .clock

def stopRequested : Pcm γ Bool := ask world .stopRequested

/-- `end_ns`. The clock is read if there is a duration. -/
def deadline (durationSec : UInt32) : Pcm γ UInt64 := do
  let start ← (if durationSec ≠ 0 then nowNs world else pure 0)
  return endNs start durationSec

/-- `!stop_requested() && now_ns() < end_ns`. -/
def goesOn (endNs : UInt64) : Pcm γ Bool := do
  if ← stopRequested world then return false
  let now ← nowNs world
  return decide (now < endNs)

def remaining (endNs : UInt64) : Pcm γ Int32 := do
  let now ← (if endNs ≠ uint64Max then nowNs world else pure 0)
  return remainingMs endNs now

variable (hooks : Hooks γ)

/-- The loop of an applet: the runtime error it ends with, or 0, or nothing when it is not over
after that many passes. `early` is what the applet does on an early wakeup. -/
def loop (early : γ → γ) (endNs : UInt64) : ℕ → Pcm γ (Option Int32)
  | 0 => return none
  | passes + 1 => do
    if !(← goesOn world endNs) then return some 0
    let remainingMs ← remaining world endNs
    if remainingMs ≤ 0 then return some 0
    let res ← code (pcmSinkIterate world hooks remainingMs)
    if res = -AlsaStream.eintr ∨ res = -AlsaStream.etimedout then
      let stop ← (if endNs = uint64Max then stopRequested world else pure true)
      if stop then return some 0
      loop early endNs passes
    else if res = -AlsaStream.eagain then
      keep fun _ => early
      loop early endNs passes
    else if res < 0 then return some res
    else loop early endNs passes

inductive Termination where
  | runtimeError
  | interrupted
  | durationReached
  deriving DecidableEq

/-- What a report is printed from. -/
structure Report (γ : Type) where
  runtimeError : Int32
  termination : Termination
  elapsedNs : UInt64
  stream : Stream
  stats : γ
  exit : Int32

def termination (runtimeError : Int32) : Pcm γ Termination := do
  if runtimeError ≠ 0 then return .runtimeError
  if ← stopRequested world then return .interrupted
  return .durationReached

/-- `print_report`, with the exit code of the applet. -/
def report (runtimeError : Int32) (elapsedNs : UInt64) (fails : Stream → γ → Bool) :
    Pcm γ (Report γ) := do
  let termination ← termination world runtimeError
  look fun s => ⟨runtimeError, termination, elapsedNs, s.1, s.2,
    if runtimeError ≠ 0 ∨ fails s.1 s.2 = true then 1 else 0⟩

/-- Whether the result is less than 0, as that of a call that stops at an error is. -/
def fails {α : Type} (x : Pcm γ α) : Pcm γ Bool := do
  match ← attempt x with
  | .ok _ => return false
  | .error _ => return true

def openStream (cfg : PcmSetup) : Pcm γ Unit := do
  if ← fails (pcmSinkOpen world cfg) then throw 1

def startStream : Pcm γ Unit := do
  if ← fails (spaAlsaStart world) then
    pcmSinkStop world
    throw 1

/-- An applet: what it does with the time of its start, its deadline, and how it stops the stream
and reports. -/
structure Applet (γ : Type) where
  hooks : Hooks γ
  begin : UInt64 → γ → γ
  endNs : UInt64 → Pcm γ UInt64
  early : γ → γ
  finish : Int32 → Pcm γ (Report γ)

/-- What an applet does with an open stream. There is no report when the loop is not over after that
many passes. -/
def Applet.playback (a : Applet γ) (passes : ℕ) : Pcm γ (Option (Report γ)) := do
  let start ← nowNs world
  keep fun _ => a.begin start
  startStream world
  let endNs ← a.endNs start
  match ← loop world a.hooks a.early endNs passes with
  | none => return none
  | some runtimeError =>
    let report ← a.finish runtimeError
    return some report

/-- What follows the options. An error is an exit code without a report. -/
def Applet.main (a : Applet γ) (cfg : PcmSetup) (passes : ℕ) : Pcm γ (Option (Report γ)) := do
  openStream world cfg
  a.playback world passes

end

/-! ### play -/

structure PlayStats where
  startNs : UInt64
  cycles : UInt64
  earlyWakeups : UInt64

def playHooks : Hooks PlayStats where
  cycle := keep fun _ s => { s with cycles := s.cycles + 1 }
  xrun _ := pure ()

def play (world : World Reply) (durationSec : UInt32) : Applet PlayStats where
  hooks := playHooks
  begin start s := { s with startNs := start }
  endNs _ := deadline world durationSec
  early s := { s with earlyWakeups := s.earlyWakeups + 1 }
  finish runtimeError := do
    pcmSinkStop world
    let now ← nowNs world
    let elapsed ← look fun s => now - s.2.startNs
    report world runtimeError elapsed fun s _ => decide (0 < s.xrun)

def playRun (world : World Reply) (cfg : PcmSetup) (passes : ℕ) :
    Pcm PlayStats (Option (Report PlayStats)) :=
  (play world cfg.durationSec).main world cfg passes

/-! ### xrun -/

structure XrunStats where
  callbacks : AlsaHistogram.XrunStats
  xrunCount : UInt64
  xrunFrames : UInt64
  firstXrunNs : UInt64
  lastXrunNs : UInt64
  startNs : UInt64

def xrunStats : XrunStats := ⟨.zero, 0, 0, 0, 0, 0⟩

/-- A stream that has a format has a rate and a period. -/
def onCallback (now : UInt64) (st : Stream) (s : XrunStats) : XrunStats :=
  if h : st.rate ≠ 0 ∧ st.periodFrames ≠ 0 then
    { s with
      callbacks := AlsaHistogram.onCycle ⟨st.rate, st.threshold, st.periodFrames, h.1, h.2⟩
        s.callbacks now }
  else s

def onXrun (missing now : UInt64) (s : XrunStats) : XrunStats :=
  let elapsed := now - s.startNs
  { s with
    xrunCount := s.xrunCount + 1
    xrunFrames := s.xrunFrames + missing
    firstXrunNs := if s.xrunCount + 1 = 1 then elapsed else s.firstXrunNs
    lastXrunNs := elapsed }

def xrunHooks (world : World Reply) : Hooks XrunStats where
  cycle := do
    let now ← nowNs world
    keep (onCallback now)
  xrun missing := do
    let now ← nowNs world
    keep fun _ => onXrun missing now

def xrun (world : World Reply) (durationSec : UInt32) : Applet XrunStats where
  hooks := xrunHooks world
  begin start s := { s with startNs := start }
  endNs _ := deadline world durationSec
  early := id
  finish runtimeError := do
    let now ← nowNs world
    let elapsed ← look fun s => now - s.2.startNs
    pcmSinkStop world
    report world runtimeError elapsed fun _ s => decide (0 < s.xrunCount)

def xrunRun (world : World Reply) (cfg : PcmSetup) (passes : ℕ) :
    Pcm XrunStats (Option (Report XrunStats)) :=
  (xrun world cfg.durationSec).main world cfg passes

/-! ### latency -/

structure LatencyStats where
  sampleCount : UInt64
  wallStartNs : UInt64
  lastCycleNs : UInt64
  lastConsumed : UInt64
  delayFirst : Int64
  delayLast : Int64
  polls : UInt64
  driftSum : Float
  driftPpm : Float
  gotFirstDelay : Bool

def latencyStats : LatencyStats := ⟨0, 0, 0, 0, 0, 0, 0, 0, 0, false⟩

/-- The drift of one cycle, for each after the first. -/
def drifted (st : Stream) (consumed now : UInt64) (s : LatencyStats) : LatencyStats :=
  if s.polls > 1 then
    let dConsumed := (consumed - s.lastConsumed).toFloat
    let expected := (now - s.lastCycleNs).toFloat * st.rate.toFloat / 1e9
    let driftSum := if expected > 0 then s.driftSum + (dConsumed - expected) / expected * 1e6
      else s.driftSum
    { s with driftSum := driftSum, driftPpm := driftSum / (s.polls - 1).toFloat }
  else s

def onSample (now : UInt64) (st : Stream) (s : LatencyStats) : LatencyStats :=
  let delay := st.lastDelay.toInt64
  let consumed := st.sampleCount - delay.toUInt64
  let s := drifted st consumed now { s with
    delayFirst := if s.gotFirstDelay then s.delayFirst else delay
    gotFirstDelay := true
    delayLast := delay
    sampleCount := st.sampleCount
    polls := s.polls + 1 }
  { s with lastConsumed := consumed, lastCycleNs := now }

def latencyHooks (world : World Reply) : Hooks LatencyStats where
  cycle := do
    let now ← nowNs world
    keep (onSample now)
  xrun _ := pure ()

/-- The deadline counts from the start of the measurement. -/
def latency (world : World Reply) (durationSec : UInt32) : Applet LatencyStats where
  hooks := latencyHooks world
  begin start s := { s with wallStartNs := start, lastCycleNs := start }
  endNs start := return endNs start durationSec
  early := id
  finish runtimeError := do
    let now ← nowNs world
    let elapsed ← look fun s => now - s.2.wallStartNs
    pcmSinkStop world
    report world runtimeError elapsed fun _ s => decide (s.polls = 0)

def latencyRun (world : World Reply) (cfg : PcmSetup) (passes : ℕ) :
    Pcm LatencyStats (Option (Report LatencyStats)) :=
  (latency world cfg.durationSec).main world cfg passes

/-! ### The runs -/

section
variable {γ α : Type} {o : Stream} {K : List UInt64 → γ → Prop} {b : Prop}
  {F : UInt64 → List UInt64 → Prop} {E : Stream × γ → Session → Prop} {m : Session}
  {I : Stream × γ → Session → Prop} {world : World Reply} {hooks : Hooks γ}

theorem tracks_nowNs : Tracks Session.step .start I (nowNs world) (fun _ => I) E :=
  Tracks.ask fun _ _ m h => ⟨m, rfl, h⟩

theorem tracks_stopRequested : Tracks Session.step .start I (stopRequested world) (fun _ => I) E :=
  Tracks.ask fun _ _ m h => ⟨m, rfl, h⟩

theorem tracks_keep {K' : List UInt64 → γ → Prop} {f : Stream → γ → γ}
    (h : ∀ s x g, K x g → K' x (f s g)) :
    Tracks Session.step .start (Inv o K b F) (keep f) (fun _ => Inv o K' b F) E :=
  Tracks.change fun _ _ hi => { hi.toOpen with lost := hi.lost, keeps := h _ _ _ hi.keeps }

theorem tracks_goesOn (endNs : UInt64) :
    Tracks Session.step .start I (goesOn world endNs) (fun _ => I) E := by
  refine Tracks.bind tracks_stopRequested fun stop => ?_
  split
  · exact Tracks.pure fun _ _ h => h
  · exact tracks_nowNs.bind fun _ => Tracks.pure fun _ _ h => h

theorem tracks_remaining (endNs : UInt64) :
    Tracks Session.step .start I (remaining world endNs) (fun _ => I) E := by
  refine Tracks.bind (J := fun _ => I) ?_ fun _ => Tracks.pure fun _ _ h => h
  split
  · exact tracks_nowNs
  · exact Tracks.pure fun _ _ h => h

/-- The invariant of the loop is that of one cycle. -/
theorem tracks_loop (hooks_follow : Follows hooks K) {early : γ → γ}
    (hearly : ∀ x g, K x g → K x (early g)) (endNs : UInt64) (passes : ℕ) :
    Tracks Session.step .start (Inv o K True (Scheduled o)) (loop world hooks early endNs passes)
      (fun _ => Inv o K True (Scheduled o)) E := by
  induction passes with
  | zero => exact Tracks.pure fun _ _ h => h
  | succ passes ih =>
    refine Tracks.bind (tracks_goesOn endNs) fun on => ?_
    split
    · exact Tracks.pure fun _ _ h => h
    refine Tracks.bind (tracks_remaining endNs) fun remainingMs => ?_
    split
    · exact Tracks.pure fun _ _ h => h
    refine Tracks.bind (tracks_code (kept_pcmSinkIterate hooks_follow remainingMs)) fun res => ?_
    split
    · refine Tracks.bind (J := fun _ => Inv o K True (Scheduled o)) ?_ fun stop => ?_
      · split
        · exact tracks_stopRequested
        · exact Tracks.pure fun _ _ h => h
      · split
        · exact Tracks.pure fun _ _ h => h
        · exact ih
    · split
      · exact (tracks_keep fun _ => hearly).bind fun _ => ih
      · split
        · exact Tracks.pure fun _ _ h => h
        · exact ih

theorem tracks_fails {x : Pcm γ α} {J G : Stream × γ → Session → Prop}
    (h : Tracks Session.step .start I x (fun _ => J) G) :
    Tracks Session.step .start I (fails x) (fun failed => if failed then G else J) E := by
  refine h.attempt.bind fun r => ?_
  cases r with
  | ok a => exact Tracks.pure fun _ _ hj => hj
  | error e => exact Tracks.pure fun _ _ hg => hg

/-- A stream that does not start is closed. -/
theorem tracks_startStream : Tracks Session.step .start (Unstarted o K) (startStream world)
    (fun _ => Inv o K True (Scheduled o)) (Closed o K) := by
  refine Tracks.bind (tracks_fails tracks_spaAlsaStart) fun failed => ?_
  cases failed with
  | true =>
    exact Tracks.bind (tracks_pcmSinkStop.pre fun _ _ h => h) fun _ => Tracks.throw fun _ _ h => h
  | false => exact Tracks.pure fun _ _ h => h

/-- A report tells of a closed stream, and the exit code is that of its verdict. -/
structure Ended (K : List UInt64 → γ → Prop) (fails : Stream → γ → Bool) (r : Report γ)
    (m : Session) : Prop where
  closed : Closed r.stream K (r.stream, r.stats) m
  exit : r.exit = 0 ↔ r.runtimeError = 0 ∧ fails r.stream r.stats = false

theorem tracks_report (runtimeError : Int32) (elapsedNs : UInt64) (fails : Stream → γ → Bool) :
    Tracks Session.step .start (Closed o K) (report world runtimeError elapsedNs fails)
      (fun r _ m => Ended K fails r m) E := by
  refine Tracks.bind (J := fun _ => Closed o K) ?_ fun _ => ?_
  · unfold termination
    split
    · exact Tracks.pure fun _ _ h => h
    · refine Tracks.bind tracks_stopRequested fun stop => ?_
      split
      · exact Tracks.pure fun _ _ h => h
      · exact Tracks.pure fun _ _ h => h
  · refine Tracks.look fun s m h => ⟨h.self, ?_⟩
    by_cases hverdict : runtimeError ≠ 0 ∨ fails s.1 s.2 = true
    · rw [if_pos hverdict]
      refine ⟨fun h => absurd (show (1 : Int32) = 0 from h) (by decide), fun h => ?_⟩
      exact hverdict.elim (fun hne => absurd h.1 hne) fun hf => nomatch hf.symm.trans h.2
    · rw [if_neg hverdict]
      obtain ⟨hnone, hfine⟩ := not_or.mp hverdict
      exact ⟨fun _ => ⟨not_not.mp hnone, Bool.eq_false_of_not_eq_true hfine⟩, fun _ => rfl⟩

/-- What an applet must be for its runs to be sessions. -/
structure Sound (a : Applet γ) (K : List UInt64 → γ → Prop) (fails : Stream → γ → Bool) : Prop where
  hooks : Follows a.hooks K
  begin : ∀ start x g, K x g → K x (a.begin start g)
  early : ∀ x g, K x g → K x (a.early g)
  endNs : ∀ start I, Tracks Session.step .start I (a.endNs start) (fun _ => I) fun _ _ => False
  finish : ∀ runtimeError o, Tracks Session.step .start (Inv o K True (Scheduled o))
    (a.finish runtimeError) (fun r _ m => Ended K fails r m) fun _ _ => False

/-- Everything after the opening: the session goes on, or it has ended with a report, or the stream
has been closed because it did not start. -/
theorem tracks_playback {a : Applet γ} {fails : Stream → γ → Bool} (ha : Sound a K fails)
    (passes : ℕ) : Tracks Session.step .start (Opening K) (a.playback world passes)
      (fun r s m => match r with
        | none => ∃ o, Inv o K True (Scheduled o) s m
        | some report => Ended K fails report m)
      (fun s m => Closed s.1 K s m) := by
  refine Tracks.bind tracks_nowNs fun start => ?_
  refine Tracks.bind (J := fun _ s m => ∃ o, Unstarted o K s m) (Tracks.change ?_) fun _ => ?_
  · exact fun s m h => ⟨s.1, { h.unstarted with keeps := ha.begin start _ _ h.unstarted.keeps }⟩
  refine Tracks.given fun o => ?_
  refine Tracks.bind (tracks_startStream.onError fun _ _ h => h.self) fun _ => ?_
  refine Tracks.bind (ha.endNs start _).total fun endNs => ?_
  refine Tracks.bind (tracks_loop ha.hooks ha.early endNs passes) fun ended => ?_
  cases ended with
  | none => exact Tracks.pure fun _ _ h => ⟨o, h⟩
  | some runtimeError =>
    refine Tracks.bind (ha.finish runtimeError o).total fun report => ?_
    exact Tracks.pure fun _ _ h => h

theorem fails_ok {x : Pcm γ α} {st st' : (Stream × γ) × List (Event Reply)} {v : α}
    (h : x.from st = (.ok v, st')) : (fails x).from st = (.ok false, st') := by
  rw [fails, from_bind, from_attempt, h]
  rfl

theorem fails_error {x : Pcm γ α} {st st' : (Stream × γ) × List (Event Reply)} {e : Int32}
    (h : x.from st = (.error e, st')) : (fails x).from st = (.ok true, st') := by
  rw [fails, from_bind, from_attempt, h]
  rfl

/-- The device could not be opened and set up. -/
def OpenFails (world : World Reply) (cfg : PcmSetup) (g : γ) : Prop :=
  ∃ e, ((pcmSinkOpen world cfg).from (begun g)).1 = .error e

variable (world) in
/-- A call on an open stream, with the opening before it. -/
theorem opened_outcome {rest : Pcm γ α} {J : α → Stream × γ → Session → Prop}
    (hrest : Tracks Session.step .start (Opening K) rest J E) {g : γ} (hk : K [] g)
    (cfg : PcmSetup) :
    ∃ m, Recorded ((openStream world cfg >>= fun _ => rest).from (begun g)).2.2 m ∧
      match (openStream world cfg >>= fun _ => rest).from (begun g) with
      | (.ok v, s) => J v s.1 m
      | (.error _, s) => E s.1 m ∨ OpenFails world cfg g ∧ Unarmed s.1 m := by
  have hopen := tracks_pcmSinkOpen world cfg (begun g) (watched_begun hk)
  rcases hr : (pcmSinkOpen world cfg).from (begun g) with ⟨r, s⟩
  rw [hr] at hopen
  cases r with
  | error e =>
    obtain ⟨m, hm, hunarmed⟩ := hopen
    have hstream : (openStream world cfg).from (begun g) = (.error 1, s) :=
      from_bind_ok (fails_error hr) _
    rw [from_bind_error hstream]
    exact ⟨m, hm, .inr ⟨⟨e, by rw [hr]⟩, hunarmed⟩⟩
  | ok _ =>
    have hstream : (openStream world cfg).from (begun g) = (.ok (), s) :=
      from_bind_ok (fails_ok hr) _
    rw [from_bind_ok hstream]
    have hdone := hrest s hopen
    rcases hr : rest.from s with ⟨r, s'⟩
    rw [hr] at hdone
    cases r with
    | error e =>
      obtain ⟨m, hm, he⟩ := hdone
      exact ⟨m, hm, .inl he⟩
    | ok v => exact hdone

/-- What a run comes to: it is in its loop, or has ended with a report, or has closed the stream
because it did not start, or could not open it. -/
def Outcome (world : World Reply) (cfg : PcmSetup) (g : γ) (K : List UInt64 → γ → Prop)
    (fails : Stream → γ → Bool) (result : Except Int32 (Option (Report γ))) (s : Stream × γ)
    (m : Session) : Prop :=
  match result with
  | .ok none => ∃ o, Inv o K True (Scheduled o) s m
  | .ok (some report) => Ended K fails report m
  | .error _ => Closed s.1 K s m ∨ OpenFails world cfg g ∧ Unarmed s m

variable (world) in
/-- The record of every run of an applet is one of a session. -/
theorem main_outcome {a : Applet γ} {fails : Stream → γ → Bool} (ha : Sound a K fails) {g : γ}
    (hk : K [] g) (cfg : PcmSetup) (passes : ℕ) :
    ∃ m, Recorded ((a.main world cfg passes).from (begun g)).2.2 m ∧
      Outcome world cfg g K fails ((a.main world cfg passes).from (begun g)).1
        ((a.main world cfg passes).from (begun g)).2.1 m := by
  obtain ⟨m, hm, hout⟩ := opened_outcome world (tracks_playback ha passes) hk cfg
  refine ⟨m, hm, ?_⟩
  rw [Applet.main]
  rcases hr : (openStream world cfg >>= fun _ => a.playback world passes).from (begun g) with ⟨r, s⟩
  rw [hr] at hout
  rcases r with e | ended
  · exact hout
  · cases ended with
    | none => exact hout
    | some report => exact hout

/-! ### The three applets -/

def XrunCounted (losses : List UInt64) (s : XrunStats) : Prop :=
  s.xrunCount = UInt64.ofNat losses.length ∧ s.xrunFrames = losses.sum

theorem follows_play : Follows playHooks fun _ _ => True where
  cycle _ _ := fun _ h => h
  xrun _ _ _ := Tracks.pure fun _ _ h => h

theorem follows_latency : Follows (latencyHooks world) fun _ _ => True where
  cycle _ _ := tracks_nowNs.bind fun _ => Tracks.change fun _ _ h => h
  xrun _ _ _ := Tracks.pure fun _ _ h => h

theorem onCallback_counted {losses : List UInt64} {s : XrunStats} (h : XrunCounted losses s)
    (now : UInt64) (st : Stream) : XrunCounted losses (onCallback now st s) := by
  unfold onCallback
  split
  · exact h
  · exact h

theorem onXrun_counted {losses : List UInt64} {s : XrunStats} (h : XrunCounted losses s)
    (missing now : UInt64) : XrunCounted (losses ++ [missing]) (onXrun missing now s) := by
  constructor
  · rw [onXrun, h.1, List.length_append, UInt64.ofNat_add]
    rfl
  · rw [onXrun, h.2, List.sum_append, List.sum_singleton]

theorem follows_xrun : Follows (xrunHooks world) XrunCounted where
  cycle _ _ := tracks_nowNs.bind fun _ => Tracks.change fun _ _ h =>
    ⟨h.1, onCallback_counted h.2 _ _⟩
  xrun _ _ _ := tracks_nowNs.bind fun _ => Tracks.change fun _ _ h =>
    ⟨h.1, onXrun_counted h.2 _ _⟩

theorem tracks_deadline (durationSec : UInt32) :
    Tracks Session.step .start I (deadline world durationSec) (fun _ => I) E := by
  refine Tracks.bind (J := fun _ => I) ?_ fun _ => Tracks.pure fun _ _ h => h
  split
  · exact tracks_nowNs
  · exact Tracks.pure fun _ _ h => h

/-- A session that goes on can be stopped. -/
theorem tracks_stop : Tracks Session.step .start (Inv o K True (Scheduled o)) (pcmSinkStop world)
    (fun _ => Closed o K) E :=
  tracks_pcmSinkStop.pre fun _ _ h => h.mono Scheduled.chained

theorem sound_play (durationSec : UInt32) :
    Sound (play world durationSec) (fun _ _ => True) fun s _ => decide (0 < s.xrun) where
  hooks := follows_play
  begin _ _ _ h := h
  early _ _ h := h
  endNs _ _ := tracks_deadline _
  finish := by
    intro _ o
    refine Tracks.bind (tracks_stop (o := o)) fun _ => Tracks.bind tracks_nowNs fun _ => ?_
    exact Tracks.looked fun _ => (tracks_report _ _ _).pre fun _ _ h => h.1

theorem sound_xrun (durationSec : UInt32) :
    Sound (xrun world durationSec) XrunCounted fun _ s => decide (0 < s.xrunCount) where
  hooks := follows_xrun
  begin _ _ _ h := h
  early _ _ h := h
  endNs _ _ := tracks_deadline _
  finish := by
    intro _ o
    refine Tracks.bind tracks_nowNs fun _ => Tracks.looked fun _ => ?_
    exact (tracks_stop (o := o)).pre (fun _ _ h => h.1) |>.bind fun _ => tracks_report _ _ _

theorem sound_latency (durationSec : UInt32) :
    Sound (latency world durationSec) (fun _ _ => True) fun _ s => decide (s.polls = 0) where
  hooks := follows_latency
  begin _ _ _ h := h
  early _ _ h := h
  endNs _ _ := Tracks.pure fun _ _ h => h
  finish := by
    intro _ o
    refine Tracks.bind tracks_nowNs fun _ => Tracks.looked fun _ => ?_
    exact (tracks_stop (o := o)).pre (fun _ _ h => h.1) |>.bind fun _ => tracks_report _ _ _

end

section
variable {γ : Type}

/-- All that a run has asked is a session's, with the device and the timer open while the run goes
on and closed once it is over, unless the device could not be opened and set up. -/
def Guarded (world : World Reply) (cfg : PcmSetup) (x : Pcm γ (Option (Report γ))) (g : γ) : Prop :=
  ∃ m, Recorded (x.from (begun g)).2.2 m ∧ match (x.from (begun g)).1 with
    | .ok none => m.handle = true ∧ m.timer = true
    | .ok (some _) => m.handle = false ∧ m.timer = false
    | .error _ => (m.handle = false ∧ m.timer = false) ∨ OpenFails world cfg g

/-- The timer is stopped, or set one period later, or by at most a second from where it was. -/
def Prompt (s : Stream) (time next : UInt64) : Prop :=
  next = 0 ∨ next = (time.toFloat + periodNs s).toUInt64 ∨
    next.toNat ≤ time.toNat + second.toNat ∧ time.toNat ≤ next.toNat + second.toNat

/-- Each time that a run sets the timer to follows the one before it. -/
def Punctual (x : Pcm γ (Option (Report γ))) (g : γ) : Prop :=
  ∃ m, Recorded (x.from (begun g)).2.2 m ∧ match (x.from (begun g)).1 with
    | .ok (some r) => m.armed.IsChain (Prompt r.stream)
    | _ => m.armed.IsChain (Prompt (x.from (begun g)).2.1.1)

variable {K : List UInt64 → γ → Prop} {fails : Stream → γ → Bool} {world : World Reply}
  {cfg : PcmSetup} {g : γ} {a : Applet γ}

theorem Next.prompt {s : Stream} {time next : UInt64} (h : Next s time next) :
    Prompt s time next := by
  refine h.imp_right fun h => h.imp_right fun ⟨hnext, htime⟩ => ?_
  have hsecond : second.toNat = 1000000000 := rfl
  have hle := UInt64.le_iff_toNat_le.mp (UInt64.not_lt.mp hnext)
  have hge := UInt64.le_iff_toNat_le.mp (UInt64.not_lt.mp htime)
  have hbound := next.toNat_lt
  have hbound' := time.toNat_lt
  rw [UInt64.toNat_add, hsecond] at hle hge
  rw [hsecond]
  omega

theorem main_punctual (ha : Sound a K fails) (hk : K [] g) (passes : ℕ) :
    Punctual (a.main world cfg passes) g := by
  obtain ⟨m, hm, hout⟩ := main_outcome world ha hk cfg passes
  refine ⟨m, hm, ?_⟩
  rcases hr : (a.main world cfg passes).from (begun g) with ⟨r, s⟩
  rw [hr] at hout
  rcases r with e | ended
  · rcases hout with h | ⟨-, hunarmed⟩
    · exact h.chained.imp fun _ _ => Next.prompt
    · rw [hunarmed]
      exact List.IsChain.nil
  · cases ended with
    | none =>
      obtain ⟨o, h⟩ := hout
      refine h.schedule.1.imp fun time next hn => Next.prompt ?_
      rwa [Next, periodNs_alike h.alike]
    | some report =>
      have hended : Ended K fails report m := hout
      exact hended.closed.chained.imp fun _ _ => Next.prompt

end

/-- The schedule never runs away. -/
theorem runs_punctual (world : World Reply) (cfg : PcmSetup) (passes : ℕ) :
    Punctual (playRun world cfg passes) ⟨0, 0, 0⟩ ∧
    Punctual (xrunRun world cfg passes) xrunStats ∧
    Punctual (latencyRun world cfg passes) latencyStats :=
  ⟨main_punctual (sound_play _) trivial passes, main_punctual (sound_xrun _) ⟨rfl, rfl⟩ passes,
    main_punctual (sound_latency _) trivial passes⟩

end AlsaApplets
