import Overthinkin.AlsaDeadline
import Overthinkin.AlsaHtimestamp
import Overthinkin.AlsaOptions
import Overthinkin.WatchedCall

/-! `alsa-pcm.c` and `alsa-pcm-sink.c` as calls on the state of a stream. What the ALSA library, the
timer, the clock and the signals answer is up to the world. -/
namespace AlsaStream

open StatefulCall WatchedCall AlsaOptions AlsaHtimestamp

/-- `snd_pcm_state_t`. -/
inductive PcmState where
  | opened
  | setup
  | prepared
  | running
  | xrun
  | draining
  | paused
  | suspended
  | disconnected
  deriving DecidableEq

/-- What `snd_pcm_status` fills in. The times are `struct timeval`. -/
structure Status where
  state : PcmState
  tstamp : Int64 × Int64
  triggerTstamp : Int64 × Int64
  deriving DecidableEq

/-- The steps of the negotiation of the hardware parameters, with the value that is proposed. -/
inductive HwStep where
  | any
  | setRateResample
  | setAccess (mmap : Bool)
  | setFormat (format : Format)
  | setChannelsNear (channels : UInt32)
  | setRateNear (rate : UInt32)
  | setPeriodWakeup
  | getPeriodSizeMin
  | setPeriodSizeNear (frames : UInt64)
  | getBufferSizeMax
  | setBufferSizeMin (frames : UInt64)
  | setBufferSizeNear (frames : UInt64)
  | install
  deriving DecidableEq

inductive SwStep where
  | current
  | setTstampMode
  | setTstampType
  | setStartThreshold
  | install
  deriving DecidableEq

/-- The calls to what is outside the program. -/
inductive Query where
  | pcmOpen (device : Option (List Char))
  | hw (step : HwStep)
  | isBatch
  | canDisablePeriodWakeup
  | sw (step : SwStep)
  | prepare
  | drop
  | start
  | resume
  | status
  | state
  | availUpdate
  | avail
  | htimestamp
  | mmapBegin (frames : UInt64)
  | mmapCommit (offset frames : UInt64)
  | pcmClose
  | timerfdCreate
  | timerfdSettime (time : UInt64)
  | timerfdRead
  | timerfdClose
  | poll (timeoutMs : Int32)
  | wait (ms : ℕ)
  | clock
  | stopRequested
  deriving DecidableEq

/-- The part of the ring buffer that `snd_pcm_mmap_begin` gives. -/
structure Mapping where
  offset : UInt64
  frames : UInt64
  deriving DecidableEq

/-- The result of each call, and what it writes through its pointers. Of the system calls, which
return -1, it is `-errno`. -/
abbrev Reply : Query → Type
  | .pcmOpen _ | .sw _ | .prepare | .drop | .start | .resume | .pcmClose | .timerfdCreate
  | .timerfdSettime _ | .timerfdRead | .poll _ => Int32
  | .hw _ => Int32 × UInt64
  | .isBatch | .canDisablePeriodWakeup | .stopRequested => Bool
  | .status => Int32 × Status
  | .state => PcmState
  | .availUpdate | .avail | .mmapCommit _ _ => Int64
  | .htimestamp => Int32 × UInt64 × Int64 × Int64
  | .mmapBegin _ => Int32 × Mapping
  | .timerfdClose | .wait _ => Unit
  | .clock => UInt64

def eintr : Int32 := 4
def eio : Int32 := 5
def eagain : Int32 := 11
def ebusy : Int32 := 16
def einval : Int32 := 22
def epipe : Int64 := 32
def estrpipe : Int64 := 86
def etimedout : Int32 := 110

/-- `struct spa_dll`. -/
structure Dll where
  bw : Float
  z1 : Float
  z2 : Float
  z3 : Float
  w0 : Float
  w1 : Float
  w2 : Float

/-- The fields of `alsa_state` that are read. -/
structure Stream extends AlsaHtimestamp.State where
  name : Option (List Char)
  channels : UInt32
  format : Format
  useMmap : Bool
  bufferFrames : UInt64
  periodFrames : UInt64
  periodSizeMin : UInt64
  maxDelay : UInt64
  minDelay : UInt64
  headroom : UInt32
  startDelay : UInt32
  defaultStartDelay : UInt32
  driverDuration : UInt32
  driverRateDenom : UInt32
  quantumLimit : UInt32
  usePeriodSizeMinAsHeadroom : Bool
  dll : Dll
  dllBwMax : Float
  maxError : Float
  maxResync : Float
  errAvg : Float
  errVar : Float
  errWdw : Float
  nextTime : UInt64
  baseTime : UInt64
  sampleCount : UInt64
  lastThreshold : UInt32
  opened : Bool
  prepared : Bool
  started : Bool
  alsaStarted : Bool
  isBatch : Bool
  disableBatch : Bool
  following : Bool
  xrun : UInt64
  recoveries : UInt32
  lastAvail : UInt64
  lastDelay : UInt64
  lastTarget : UInt64

def alsaStateInit : Stream where
  rate := 0
  threshold := 0
  htimestamp := false
  htimestampError := 0
  htimestampMaxErrors := 64
  recoverFails := 0
  isMatching := false
  resample := false
  disableTsched := false
  name := none
  channels := 0
  format := 0
  useMmap := true
  bufferFrames := 0
  periodFrames := 0
  periodSizeMin := 0
  maxDelay := 0
  minDelay := 0
  headroom := 0
  startDelay := 0
  defaultStartDelay := 0
  driverDuration := 0
  driverRateDenom := 0
  quantumLimit := 8192
  usePeriodSizeMinAsHeadroom := false
  dll := ⟨0, 0, 0, 0, 0, 0, 0⟩
  dllBwMax := 0.128
  maxError := 0
  maxResync := 0
  errAvg := 0
  errVar := 0
  errWdw := 0
  nextTime := 0
  baseTime := 0
  sampleCount := 0
  lastThreshold := 0
  opened := false
  prepared := false
  started := false
  alsaStarted := false
  isBatch := false
  disableBatch := false
  following := false
  xrun := 0
  recoveries := 0
  lastAvail := 0
  lastDelay := 0
  lastTarget := 0

/-- A call of the program. `γ` is what the applet keeps for itself. -/
abbrev Pcm (γ α : Type) := Asking Reply (Stream × γ) Int32 α

/-- `cycle_cb` and `xrun_cb`. -/
structure Hooks (γ : Type) where
  cycle : Pcm γ Unit
  xrun : UInt64 → Pcm γ Unit

section
variable {γ : Type}

def stream {α : Type} (f : Stream → α) : Pcm γ α := look fun s => f s.1

def update (f : Stream → Stream) : Pcm γ Unit := change fun s => (f s.1, s.2)

/-- The code that a call returns, with 0 for success. -/
def code {α : Type} (x : Pcm γ α) : Pcm γ Int32 := do
  match ← attempt x with
  | .ok _ => return 0
  | .error e => return e

/-- A call whose result is not looked at. -/
def ignore {α : Type} (x : Pcm γ α) : Pcm γ Unit := do
  let _ ← code x

/-- `CHECK`. -/
def check (err : Int32) : Pcm γ Unit := if err < 0 then throw err else return ()

variable (world : World Reply)

def hw (step : HwStep) : Pcm γ UInt64 := do
  let (err, value) ← ask world (.hw step)
  check err
  return value

def sw (step : SwStep) : Pcm γ Unit := do
  let err ← ask world (.sw step)
  check err

/-! ### Opening -/

def spaAlsaOpen : Pcm γ Unit := do
  if ← stream (·.opened) then return ()
  let name ← stream (·.name)
  let deviceName := name.map (·.take 63)
  update fun s => { s with name := deviceName.map fun n => (n ++ ['p']).take 63 }
  let err ← ask world (.pcmOpen deviceName)
  check err
  let timerfd ← ask world .timerfdCreate
  if timerfd < 0 then
    let _ ← ask world .pcmClose
    throw timerfd
  update fun s => { s with opened := true, sampleCount := 0 }

/-- The arithmetic is that of `uint32_t` and `unsigned long`. -/
def recalcHeadroom (s : Stream) : Stream :=
  let headroom : UInt32 := if s.usePeriodSizeMinAsHeadroom then s.periodSizeMin.toUInt32 else 0
  let headroom := if s.isBatch then (headroom.toUInt64 + s.periodFrames).toUInt32 else headroom
  { s with
    headroom := if s.bufferFrames ≥ s.threshold.toUInt64 then
        (min headroom.toUInt64 (s.bufferFrames - s.threshold.toUInt64)).toUInt32
      else 0 }

def setAccess : Pcm γ Unit := do
  let (err, _) ← ask world (.hw (.setAccess true))
  (if err < 0 then update fun s => { s with useMmap := false } else pure ())
  if !(← stream (·.useMmap)) then
    let (err, _) ← ask world (.hw (.setAccess false))
    check err

def setPeriodSize (periodSize : UInt32) : Pcm γ Unit := do
  let periodSizeMin ← hw world .getPeriodSizeMin
  update fun s => { s with periodSizeMin := periodSizeMin }
  let periodSizeFrames ← hw world (.setPeriodSizeNear periodSize.toUInt64)
  if periodSizeFrames = 0 then throw (-eio)
  update fun s => { s with periodFrames := periodSizeFrames }

def setBufferSize : Pcm γ Unit := do
  let most ← hw world .getBufferSizeMax
  let quantumLimit ← stream (·.quantumLimit)
  let frames ← hw world (.setBufferSizeMin (min most (quantumLimit * 4).toUInt64))
  let frames ← hw world (.setBufferSizeNear frames)
  update fun s => { s with bufferFrames := frames }
  if frames = 0 then throw (-eio)

def spaAlsaSetFormat (rate channels : UInt32) (format : Format) (periodSize : UInt32) :
    Pcm γ Unit := do
  if format = unknownFormat then throw (-einval)
  spaAlsaOpen world
  let _ ← hw world .any
  let _ ← hw world .setRateResample
  setAccess world
  let _ ← hw world (.setFormat format)
  let rchannels ← hw world (.setChannelsNear channels)
  let rrate ← hw world (.setRateNear rate)
  if rchannels.toUInt32 = 0 ∨ rrate.toUInt32 = 0 then throw (-eio)
  update fun s =>
    { s with format := format, channels := rchannels.toUInt32, rate := rrate.toUInt32 }
  let batch ← ask world .isBatch
  update fun s => { s with isBatch := batch && !s.disableBatch }
  let canDisable ← ask world .canDisablePeriodWakeup
  let _ ← (if canDisable then hw world .setPeriodWakeup else pure 0)
  setPeriodSize world periodSize
  setBufferSize world
  update fun s => recalcHeadroom { s with
    maxDelay := s.bufferFrames / 2
    minDelay := 0
    startDelay := s.defaultStartDelay }
  let _ ← hw world .install

def pcmSinkOpen (cfg : PcmSetup) : Pcm γ Unit := do
  let fields := AlsaOptions.pcmSinkOpen cfg
  update fun s => { s with
    name := fields.name
    rate := fields.rate
    channels := fields.channels
    format := fields.format
    threshold := fields.threshold
    driverDuration := fields.driverDuration
    driverRateDenom := fields.driverRateDenom }
  spaAlsaSetFormat world cfg.rate cfg.channels cfg.format cfg.period.toUInt32

/-! ### Preparing, starting and recovering -/

def setSwparams : Pcm γ Unit := do
  sw world .current
  sw world .setTstampMode
  sw world .setTstampType
  sw world .setStartThreshold
  sw world .install

def setTimeout (time : UInt64) : Pcm γ Unit := do
  let err ← ask world (.timerfdSettime time)
  check err

def spaAlsaSilence (silence : UInt64) : Pcm γ Unit := do
  if !(← stream (·.useMmap)) then throw (-eio)
  let frames ← stream (·.bufferFrames)
  let (err, mapping) ← ask world (.mmapBegin frames)
  check err
  let err ← ask world (.mmapCommit mapping.offset (min silence mapping.frames))
  check err.toInt32

/-- `state->start_delay + state->threshold + state->headroom`, a sum of `uint32_t`. -/
def prefill (s : Stream) : UInt64 := (s.startDelay + s.threshold + s.headroom).toUInt64

/-- What `do_prepare` resets once the device is prepared. -/
def prepared (s : Stream) : Stream :=
  let ahead := (s.threshold + s.headroom).toFloat
  let maxError := if 256.0 > ahead / 2.0 then 256.0 else ahead / 2.0
  { s with
    alsaStarted := false
    dll := { s.dll with bw := 0, z1 := 0, z2 := 0, z3 := 0 }
    maxError := maxError
    maxResync := if ahead < maxError then ahead else maxError
    errWdw := s.driverRateDenom.toFloat / s.driverDuration.toFloat }

def doPrepare : Pcm γ Unit := do
  update fun s => { s with lastThreshold := s.threshold }
  setSwparams world
  let err ← ask world .prepare
  if err < 0 ∧ err ≠ -ebusy then throw err
  let silence ← stream prefill
  ignore (spaAlsaSilence world silence)
  update prepared

def doDrop : Pcm γ Unit := do
  let res ← ask world .drop
  check res

def doStart : Pcm γ Unit := do
  if !(← stream (·.alsaStarted)) then
    let res ← ask world .start
    check res
    update fun s => { s with alsaStarted := true }

/-- The microseconds between two `struct timeval`, by `timersub` and `TIMEVAL_TO_USEC`. -/
def usecBetween (later earlier : Int64 × Int64) : UInt64 :=
  let sec := later.1 - earlier.1
  let usec := later.2 - earlier.2
  if usec < 0 then (sec - 1).toUInt64 * 1000000 + (usec + 1000000).toUInt64
  else sec.toUInt64 * 1000000 + usec.toUInt64

/-- The frames that an XRUN is estimated to have lost. -/
def missing (s : Stream) (status : Status) : UInt64 :=
  usecBetween status.tstamp status.triggerTstamp * s.rate.toUInt64 / 1000000 + prefill s

/-- `while (retry++ < 5 && (res = snd_pcm_resume(state->hndl)) == -EAGAIN)`. -/
def resume : ℕ → Int32 → Pcm γ Int32
  | 0, res => return res
  | retries + 1, _ => do
    let res ← ask world .resume
    if res = -eagain then
      ask world (.wait 1000)
      resume retries res
    else return res

def dropPrepareStart : Pcm γ Int32 := do
  ignore (doDrop world)
  ignore (doPrepare world)
  ignore (doStart world)
  return 0

variable (hooks : Hooks γ)

def alsaRecover : Pcm γ Int32 := do
  update fun s => { s with recoveries := s.recoveries + 1 }
  let (res, status) ← ask world .status
  if res < 0 then dropPrepareStart world
  else match status.state with
    | .xrun =>
      let missing ← stream fun s => missing s status
      update fun s => { s with xrun := s.xrun + missing }
      hooks.xrun missing
      dropPrepareStart world
    | .suspended =>
      let res ← resume world 5 res
      if res ≥ 0 then return res
      dropPrepareStart world
    | _ => dropPrepareStart world

/-! ### The state of the buffer -/

def alsaAvail : Pcm γ Int64 := do
  if ← stream fun s => !s.isMatching && s.disableTsched && !s.resample then
    ask world .availUpdate
  else ask world .avail

/-- The end of `get_avail`: the result and `*delay`, after the hardware timestamp. -/
def correctedAvail (currentTime : UInt64) (avail : Int64) : Pcm γ (Int32 × UInt64) := do
  if ← stream (·.htimestamp) then
    let (res, havail, sec, nsec) ← ask world .htimestamp
    if res < 0 then return (avail.toInt32, avail.toUInt64)
    if timestamp sec nsec ≠ 0 then
      let applied ← stream fun s =>
        applyOffset s.toState havail (offset currentTime (timestamp sec nsec) s.rate)
      update fun s => { s with toState := applied.2 }
      return (havail.toInt64.toInt32, applied.1)
    return (havail.toInt64.toInt32, havail)
  return (avail.toInt32, avail.toUInt64)

def getAvail (currentTime : UInt64) : Pcm γ (Int32 × UInt64) := do
  let avail ← alsaAvail world
  if avail < 0 then
    let res ← alsaRecover world hooks
    check res
    let avail ← alsaAvail world
    if avail < 0 then
      update fun s => { s with recoverFails := s.recoverFails + 1 }
      let avail ← stream fun s => (s.threshold * 2).toUInt64.toInt64
      correctedAvail world currentTime avail
    else correctedAvail world currentTime avail
  else correctedAvail world currentTime avail

/-- `*avail`, `*delay` and `*target`. -/
structure Levels where
  avail : UInt64
  delay : UInt64
  target : UInt64
  deriving DecidableEq

def levels (s : Stream) (res : Int32) (d : UInt64) : Levels :=
  let bufferFrames := s.bufferFrames.toInt64.toInt32
  let a := (if res < bufferFrames then res else bufferFrames).toInt64.toUInt64
  let target := (s.threshold + s.headroom).toUInt64
  { avail := s.bufferFrames - a
    delay := s.bufferFrames - min d s.bufferFrames
    target := if target < s.minDelay then s.minDelay
      else if target > s.maxDelay then s.maxDelay else target }

def getStatus (currentTime : UInt64) : Pcm γ Levels := do
  let (res, d) ← getAvail world hooks currentTime
  check res
  let levels ← stream fun s => levels s res d
  update fun s =>
    { s with lastAvail := levels.avail, lastDelay := levels.delay, lastTarget := levels.target }
  return levels

/-! ### Timing -/

/-- `NSEC_PER_SEC`. -/
def second : UInt64 := 1000000000

/-- `threshold * 1e9 / rate`. -/
def periodNs (s : Stream) : Float := s.threshold.toFloat * 1e9 / s.rate.toFloat

def spaDllSetBw (dll : Dll) (bw : Float) (period rate : UInt32) : Dll :=
  let w := 2 * 3.14159265358979323846 * bw * period.toFloat / rate.toFloat
  { dll with
    w0 := 1.0 - Float.exp (-20.0 * w)
    w1 := w * 1.5 / period.toFloat
    w2 := w / 1.5
    bw := bw }

def spaDllUpdate (dll : Dll) (err : Float) : Float × Dll :=
  let z1 := dll.z1 + dll.w0 * (dll.w1 * err - dll.z1)
  let z2 := dll.z2 + dll.w0 * (z1 - dll.z2)
  let z3 := dll.z3 + dll.w2 * z2
  (1.0 - (z2 + z3), { dll with z1 := z1, z2 := z2, z3 := z3 })

/-- `CLAMPD`. -/
def clampD (v min max : Float) : Float := if v < min then min else if v > max then max else v

/-- `update_time` starts the loop over after `do_prepare`. -/
def startDll (s : Stream) (currentTime : UInt64) : Stream :=
  if s.dll.bw == 0.0 then
    { s with
      dll := spaDllSetBw s.dll s.dllBwMax s.threshold s.rate
      nextTime := currentTime
      baseTime := currentTime }
  else s

def boundError (s : Stream) (err : Float) : Float :=
  if err > s.maxResync then if err > s.maxError then s.maxError else err
  else if err < -s.maxResync then if err < -s.maxError then -s.maxError else err
  else err

def adjustBandwidth (s : Stream) : Stream :=
  if s.nextTime - s.baseTime > 3 * second then
    let bw := (s.errAvg.abs + s.errVar.abs.sqrt) / 1000.0
    { s with
      baseTime := s.nextTime
      dll := spaDllSetBw s.dll (clampD bw 0.001 s.dllBwMax) s.threshold s.rate }
  else s

/-- The loop and the statistics of the error, in the middle of `update_time`. C leaves open what the
conversion of a negative number to `uint64_t` gives. -/
def trackError (s : Stream) (diff : Int32) (err : Float) : Stream :=
  let (corr, dll) := spaDllUpdate s.dll err
  let avg := (s.errAvg * s.errWdw + (err - s.errAvg)) / (s.errWdw + 1.0)
  { s with
    lastThreshold := s.threshold
    dll := dll
    errVar := (s.errVar * s.errWdw + (err - s.errAvg) * (err - avg)) / (s.errWdw + 1.0)
    errAvg := avg
    nextTime := if diff < 0 then
        s.nextTime + (diff.toFloat / corr * 1e9 / s.rate.toFloat).toUInt64
      else s.nextTime }

def advance (corr : Float) (s : Stream) : Stream :=
  { s with
    nextTime := s.nextTime + (s.threshold.toFloat / corr * 1e9 / s.rate.toFloat).toUInt64 }

def updateTime (currentTime : UInt64) (delay target : Int64) (s : Stream) : Stream :=
  let s := startDll s currentTime
  let diff := (s.lastThreshold - s.threshold).toInt32
  let err := (delay - target).toFloat
  let err := boundError s (if diff ≠ 0 then err - diff.toFloat else err)
  advance (spaDllUpdate s.dll err).1 (adjustBandwidth (trackError s diff err))

/-- The time of the next wakeup when this one is early. -/
def rescheduled (s : Stream) (currentTime : UInt64) (levels : Levels) : UInt64 :=
  let delay := if levels.delay > levels.target * 3 then levels.target * 3 else levels.delay
  currentTime + (delay - levels.target) * second / s.rate.toUInt64

def alsaWriteSync (currentTime : UInt64) : Pcm γ Unit := do
  match ← attempt (getStatus world hooks currentTime) with
  | .error res =>
    update fun s => { s with nextTime := s.nextTime + (periodNs s).toUInt64 }
    throw res
  | .ok levels =>
    if ← stream fun s => !s.following && s.alsaStarted &&
        decide (levels.delay.toFloat > levels.target.toFloat + s.maxError) then
      update fun s => { s with nextTime := rescheduled s currentTime levels }
      throw (-eagain)
    update (updateTime currentTime levels.delay.toInt64 levels.target.toInt64)

/-! ### The cycle -/

def mapPlayback (bufferFrames : UInt64) : Pcm γ Mapping := do
  let (res, mapping) ← ask world (.mmapBegin bufferFrames)
  if res < 0 then
    let _ ← alsaRecover world hooks
    throw res
  return mapping

def commitPlayback (offset written : UInt64) : Pcm γ Unit := do
  let commitres ← ask world (.mmapCommit offset written)
  if commitres < 0 ∧ commitres ≠ -epipe ∧ commitres ≠ -estrpipe then throw commitres.toInt32

/-- `alsa_write_frames`, and `spa_alsa_write`. -/
def alsaWriteFrames : Pcm γ Unit := do
  let useMmap ← stream (·.useMmap)
  let bufferFrames ← stream (·.bufferFrames)
  let maps := useMmap && 0 < bufferFrames
  let mapping ← (if maps then mapPlayback world hooks bufferFrames else pure ⟨0, bufferFrames⟩)
  let written := if maps then mapping.frames else 0
  (if useMmap && 0 < written then commitPlayback world mapping.offset written else pure ())
  update fun s => { s with sampleCount := s.sampleCount + written }
  if !(← stream (·.alsaStarted)) && (0 < written || mapping.frames = 0) then
    ignore (doStart world)

def alsaDoWakeupWork (currentTime : UInt64) : Pcm γ Unit := do
  let res ← code (alsaWriteSync world hooks currentTime)
  if res = -eagain then throw res
  hooks.cycle

/-- The next wakeup, at most a second from this one, or else one period after it. -/
def resetWakeup (currentTime : UInt64) (s : Stream) : Stream :=
  if s.nextTime > currentTime + second ∨ currentTime > s.nextTime + second then
    { s with nextTime := (currentTime.toFloat + periodNs s).toUInt64 }
  else s

def readTimer : Pcm γ Unit := do
  if ← stream (·.started) then
    let res ← ask world .timerfdRead
    if res < 0 ∧ res ≠ -eagain then throw res

def alsaTimerWakeup : Pcm γ Unit := do
  readTimer world
  let currentTime ← stream (·.nextTime)
  let res ← code (alsaDoWakeupWork world hooks currentTime)
  update (resetWakeup currentTime)
  let nextTime ← stream (·.nextTime)
  setTimeout world nextTime
  check res

def spaAlsaPause : Pcm γ Unit := do
  if ← stream (·.started) then
    update fun s => { s with started := false }
    ignore (setTimeout world 0)
    ignore (doDrop world)
    update fun s => { s with prepared := false }

def spaAlsaPrepare : Pcm γ Unit := do
  if !(← stream (·.opened)) then throw (-eio)
  spaAlsaPause world
  if !(← stream (·.prepared)) then
    doPrepare world
    update fun s => { s with prepared := true }

/-- `spa_alsa_start`, and `pcm_sink_start`. -/
def spaAlsaStart : Pcm γ Unit := do
  if ← stream (·.started) then return ()
  if !(← stream (·.opened)) then throw (-eio)
  spaAlsaPrepare world
  let startDelay ← stream (·.startDelay)
  (if 0 < startDelay then doStart world else pure ())
  update fun s => { s with started := true }
  let nextTime ← ask world .clock
  update fun s => { s with nextTime := nextTime }
  setTimeout world nextTime

def spaAlsaClose : Pcm γ Unit := do
  if ← stream (·.opened) then
    spaAlsaPause world
    let err ← ask world .pcmClose
    ask world .timerfdClose
    update fun s => { s with opened := false }
    check err

def pcmSinkIterate (timeoutMs : Int32) : Pcm γ Unit := do
  let res ← ask world (.poll timeoutMs)
  check res
  if res = 0 then throw (-etimedout)
  alsaTimerWakeup world hooks
  alsaWriteFrames world hooks

def pcmSinkStop : Pcm γ Unit := do
  ignore (spaAlsaPause world)
  ignore (spaAlsaClose world)

end

end AlsaStream
