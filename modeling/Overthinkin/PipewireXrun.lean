import Mathlib.Tactic.Common
import Mathlib.Data.List.Range
import Mathlib.Algebra.Order.Ring.Nat

/-! `pipewire-xrun`: buffers of a negotiated size are filled with a tone, sample by sample. Stride,
number of frames and the routine that fills are chosen from the sample format one by one. -/
namespace PipewireXrun

/-! ### Sample formats -/

def S8 : UInt32 := 0x101
def U8 : UInt32 := 0x102
def S16_LE : UInt32 := 0x103
def S16_BE : UInt32 := 0x104
def U16_LE : UInt32 := 0x105
def U16_BE : UInt32 := 0x106
def S24_32_LE : UInt32 := 0x107
def S24_32_BE : UInt32 := 0x108
def U24_32_LE : UInt32 := 0x109
def U24_32_BE : UInt32 := 0x10A
def S32_LE : UInt32 := 0x10B
def S32_BE : UInt32 := 0x10C
def U32_LE : UInt32 := 0x10D
def U32_BE : UInt32 := 0x10E
def F32_LE : UInt32 := 0x11B
def F32_BE : UInt32 := 0x11C
def F64_LE : UInt32 := 0x11D
def F64_BE : UInt32 := 0x11E

def formatSampleSize (format : UInt32) : UInt32 :=
  if format ∈ [S16_LE, S16_BE, U16_LE, U16_BE] then 2
  else if format ∈ [F32_LE, F32_BE, S32_LE, S32_BE, U32_LE, U32_BE, S24_32_LE, S24_32_BE,
    U24_32_LE, U24_32_BE] then 4
  else if format ∈ [F64_LE, F64_BE] then 8
  else if format ∈ [S8, U8] then 1
  else 0

/-! ### Configuration -/

structure BenchConfig where
  rate : UInt32
  channels : UInt32
  quantum : UInt32
  durationSec : UInt32
  format : UInt32

def isPowerOfTwo (x : UInt32) : Bool := x ≠ 0 && x &&& (x - 1) = 0

def validateConfig (cfg : BenchConfig) : Bool :=
  if cfg.rate = 0 ∨ cfg.channels = 0 ∨ cfg.quantum = 0 ∨ cfg.durationSec = 0 then false
  else if !isPowerOfTwo cfg.quantum then false
  else if formatSampleSize cfg.format = 0 then false
  else true

/-! ### Statistics -/

/-- What is measured about the intervals between callbacks is left out. -/
structure RtStats where
  lastCallbackNs : UInt64
  dequeueFail : UInt64
  nullBuffer : UInt64
  testStartNs : UInt64
  actualRate : UInt32
  actualFormat : UInt32

def RtStats.zero : RtStats := ⟨0, 0, 0, 0, 0, 0⟩

/-- At the label `record`. -/
def RtStats.record (s : RtStats) (now : UInt64) : RtStats :=
  if s.lastCallbackNs ≠ 0 then { s with lastCallbackNs := now }
  else { s with lastCallbackNs := now, testStartNs := now }

structure AudioInfo where
  rate : UInt32
  format : UInt32

/-- `SPA_PARAM_Format`. -/
def paramFormat : UInt32 := 4

/-- `param` may be null, and may be no audio format. -/
def onParamChanged (s : RtStats) (id : UInt32) (param : Option (Option AudioInfo)) : RtStats :=
  match param with
  | none => s
  | some info =>
    if id = paramFormat then
      match info with
      | some info => { s with actualRate := info.rate, actualFormat := info.format }
      | none => s
    else s

/-! ### Filling -/

inductive Routine where
  | s16
  | f32
  deriving DecidableEq, Repr

/-- `sizeof (int16_t)` and `sizeof (float)`. -/
def Routine.width : Routine → ℕ
  | .s16 => 2
  | .f32 => 4

structure Chunk where
  offset : UInt32
  stride : UInt32
  size : UInt32

/-- A buffer of PipeWire; `isNull` if its data is not mapped. -/
structure PwBuffer where
  isNull : Bool
  maxsize : UInt32
  requested : UInt64

/-- A call of a fill routine, and the chunk that is reported. -/
structure Fill where
  routine : Routine
  frames : UInt32
  channels : UInt32
  maxsize : UInt32
  chunk : Chunk

/-- The indices that `synth_fill_s16` and `synth_fill_f32` write to. -/
def synthFill (frames channels : UInt32) : List UInt32 :=
  (List.range frames.toNat).flatMap fun i =>
    (List.range channels.toNat).map fun c => UInt32.ofNat i * channels + UInt32.ofNat c

inductive Crash where
  | divisionByZero
  deriving DecidableEq, Repr

def onProcess (cfg : BenchConfig) (s : RtStats) (now : UInt64) (b : Option PwBuffer) :
    Except Crash (RtStats × Option Fill) :=
  match b with
  | none => .ok (RtStats.record { s with dequeueFail := s.dequeueFail + 1 } now, none)
  | some b =>
    if b.isNull then .ok (RtStats.record { s with nullBuffer := s.nullBuffer + 1 } now, none)
    else
      let format := if s.actualFormat = 0 then cfg.format else s.actualFormat
      let sampleSize := formatSampleSize format
      let sampleSize := if sampleSize = 0 then 4 else sampleSize
      let stride := sampleSize * cfg.channels
      if stride = 0 then .error .divisionByZero
      else
        let maxFrames := b.maxsize / stride
        let nFrames :=
          if b.requested > 0 ∧ b.requested < maxFrames.toUInt64 then b.requested.toUInt32
          else maxFrames
        let routine := if format = S16_LE ∨ format = S16_BE then Routine.s16 else Routine.f32
        .ok (s.record now,
          some ⟨routine, nFrames, cfg.channels, b.maxsize, ⟨0, stride, nFrames * stride⟩⟩)

/-! ### Runs -/

inductive Event where
  | paramChanged (id : UInt32) (param : Option (Option AudioInfo))
  | process (now : UInt64) (b : Option PwBuffer)

/-- The fills of a run, up to a division by zero. -/
def run (cfg : BenchConfig) : RtStats → List Event → List (Except Crash Fill)
  | _, [] => []
  | s, .paramChanged id param :: es => run cfg (onParamChanged s id param) es
  | s, .process now b :: es =>
    match onProcess cfg s now b with
    | .error e => [.error e]
    | .ok (s, none) => run cfg s es
    | .ok (s, some fill) => .ok fill :: run cfg s es

/-! ### What is to hold -/

def Fill.bytes (f : Fill) : ℕ := (synthFill f.frames f.channels).length * f.routine.width

/-- What is written is no more than the buffer holds, and what is reported. -/
structure Fill.Fits (f : Fill) : Prop where
  inside : f.bytes ≤ f.maxsize.toNat
  reported : f.bytes = f.chunk.size.toNat

/-- Negotiation settles on the configured format or on none. -/
def Event.Negotiated (cfg : BenchConfig) : Event → Prop
  | .paramChanged id param => ∀ info, id = paramFormat → param = some (some info) →
    info.format = 0 ∨ info.format = cfg.format
  | .process _ _ => True

/-- The routine writes samples of the width that the format has. -/
def Whole (format : UInt32) : Prop :=
  formatSampleSize format = 4 ∨ format = S16_LE ∨ format = S16_BE

def BenchConfig.frameSize (cfg : BenchConfig) : ℕ :=
  (formatSampleSize cfg.format).toNat * cfg.channels.toNat

/-- A frame has a size in 32 bits, and the buffer holds none, or the routine writes frames of that
size. -/
def Event.Sound (cfg : BenchConfig) : Event → Prop
  | .process _ (some b) => b.isNull = false → cfg.frameSize % 2 ^ 32 ≠ 0 ∧
    (b.maxsize.toNat < cfg.frameSize % 2 ^ 32 ∨ Whole cfg.format ∧ cfg.frameSize < 2 ^ 32)
  | _ => True

/-! ### One fill -/

theorem Fill.bytes_eq (f : Fill) :
    f.bytes = f.frames.toNat * f.channels.toNat * f.routine.width := by
  simp [Fill.bytes, synthFill, List.length_flatMap]

/-- No sample is written behind a buffer that the bytes fit in. -/
theorem Fill.Fits.within {f : Fill} (h : f.Fits) {index : UInt32}
    (hx : index ∈ synthFill f.frames f.channels) :
    (index.toNat + 1) * f.routine.width ≤ f.maxsize.toNat := by
  obtain ⟨i, hi, hx⟩ := List.mem_flatMap.mp hx
  obtain ⟨c, hc, rfl⟩ := List.mem_map.mp hx
  rw [List.mem_range] at hi hc
  have hin := h.inside
  rw [Fill.bytes_eq] at hin
  have hlast : i * f.channels.toNat + c + 1 ≤ f.frames.toNat * f.channels.toNat := by
    have hrow := Nat.mul_le_mul_right f.channels.toNat (Nat.succ_le_of_lt hi)
    rw [Nat.succ_mul] at hrow
    omega
  have hbytes := (Nat.mul_le_mul_right f.routine.width hlast).trans hin
  have hwidth : 1 ≤ f.routine.width := by cases f.routine <;> decide
  have hsmall : i * f.channels.toNat + c < 2 ^ 32 :=
    ((Nat.le_mul_of_pos_right _ hwidth).trans hbytes).trans f.maxsize.toNat_lt.le
  have hsame : (UInt32.ofNat i * f.channels + UInt32.ofNat c).toNat =
      i * f.channels.toNat + c := by
    rw [UInt32.toNat_add, UInt32.toNat_mul, UInt32.toNat_ofNat', UInt32.toNat_ofNat',
      Nat.mod_eq_of_lt (hi.trans f.frames.toNat_lt),
      Nat.mod_eq_of_lt (hc.trans f.channels.toNat_lt),
      Nat.mod_eq_of_lt ((Nat.le_add_right _ c).trans_lt hsmall), Nat.mod_eq_of_lt hsmall]
  rw [hsame]
  exact hbytes

/-- The request of PipeWire takes frames away, but not all. -/
theorem frames_requested (requested : UInt64) (maxFrames : UInt32) {n : UInt32}
    (hn : n = if requested > 0 ∧ requested < maxFrames.toUInt64 then requested.toUInt32
      else maxFrames) :
    n.toNat ≤ maxFrames.toNat ∧ (n.toNat = 0 ↔ maxFrames.toNat = 0) := by
  by_cases h : requested > 0 ∧ requested < maxFrames.toUInt64
  · rw [if_pos h] at hn
    have hpos : 0 < requested.toNat := by simpa [UInt64.lt_iff_toNat_lt] using h.1
    have hlt : requested.toNat < maxFrames.toNat := by simpa [UInt64.lt_iff_toNat_lt] using h.2
    have hmax := maxFrames.toNat_lt
    have hsame : n.toNat = requested.toNat := by
      rw [hn, UInt64.toNat_toUInt32]
      exact Nat.mod_eq_of_lt (by omega)
    omega
  · rw [if_neg h] at hn
    rw [hn]
    exact ⟨le_rfl, Iff.rfl⟩

theorem frame_width_iff {size width channels : ℕ} (hs : size ∈ [1, 2, 4, 8])
    (hw : width = 2 ∧ size = 2 ∨ width = 4) (hc : 0 < channels) (hlt : channels < 2 ^ 32) :
    channels * width = size * channels % 2 ^ 32 ↔ width = size ∧ size * channels < 2 ^ 32 := by
  simp only [List.mem_cons, List.not_mem_nil, or_false] at hs
  simp only [Nat.reducePow] at hlt ⊢
  rcases hw with ⟨rfl, rfl⟩ | rfl
  · omega
  · rcases hs with rfl | rfl | rfl | rfl
    · rw [Nat.one_mul, Nat.mod_eq_of_lt hlt]
      omega
    all_goals omega

/-- Bytes that a routine writes to `n` frames, against what is reported. -/
theorem fits_iff {n maxsize stride frameBytes : ℕ} (hn : n ≤ maxsize / stride)
    (hzero : n = 0 ↔ maxsize / stride = 0) (hpos : 0 < stride) :
    (n * frameBytes ≤ maxsize ∧ n * frameBytes = n * stride) ↔
      maxsize < stride ∨ frameBytes = stride := by
  have hle : n * stride ≤ maxsize :=
    (Nat.mul_le_mul_right stride hn).trans (Nat.div_mul_le_self _ _)
  rw [Nat.div_eq_zero_iff_lt hpos] at hzero
  by_cases h0 : n = 0
  · simp [h0, hzero.mp h0]
  · rw [Nat.mul_right_inj h0]
    constructor
    · exact fun h => .inr h.2
    · rintro (h | rfl)
      · exact absurd (hzero.mpr h) h0
      · exact ⟨hle, rfl⟩

theorem whole_iff {format : UInt32} (h : formatSampleSize format ≠ 0) {width : ℕ}
    (hw : width = if format = S16_LE ∨ format = S16_BE then 2 else 4) :
    (formatSampleSize format).toNat ∈ [1, 2, 4, 8] ∧
      (width = 2 ∧ (formatSampleSize format).toNat = 2 ∨ width = 4) ∧
      (width = (formatSampleSize format).toNat ↔ Whole format) := by
  by_cases h16 : format = S16_LE ∨ format = S16_BE
  · have hsize : formatSampleSize format = 2 := by
      rcases h16 with rfl | rfl <;> decide
    rw [if_pos h16] at hw
    rw [hsize, hw]
    exact ⟨by decide, .inl ⟨rfl, rfl⟩, by simp [Whole, h16]⟩
  · rw [if_neg h16] at hw
    have hsize : formatSampleSize format ∈ ([1, 2, 4, 8] : List UInt32) := by
      unfold formatSampleSize at h ⊢
      split_ifs at h ⊢ <;> first | decide | exact (h rfl).elim
    simp only [List.mem_cons, List.not_mem_nil, or_false] at hsize
    rcases hsize with hs | hs | hs | hs
    all_goals
      rw [hs, hw]
      exact ⟨by decide, .inr rfl, by simp [Whole, hs, h16]⟩

/-! ### One callback -/

variable {cfg : BenchConfig} {s s' : RtStats} {b : PwBuffer}

theorem validateConfig_eq_true (h : validateConfig cfg = true) :
    cfg.channels ≠ 0 ∧ formatSampleSize cfg.format ≠ 0 := by
  unfold validateConfig at h
  split_ifs at h with hzero _ hsize
  obtain ⟨-, hzero⟩ := not_or.mp hzero
  exact ⟨(not_or.mp hzero).1, hsize⟩

theorem actualFormat_record (s : RtStats) (now : UInt64) :
    (s.record now).actualFormat = s.actualFormat := by
  unfold RtStats.record
  split <;> rfl

/-- The format that is used is the configured one. -/
theorem format_used (hs : s.actualFormat = 0 ∨ s.actualFormat = cfg.format) :
    (if s.actualFormat = 0 then cfg.format else s.actualFormat) = cfg.format := by
  by_cases h0 : s.actualFormat = 0
  · rw [if_pos h0]
  · rw [if_neg h0, hs.resolve_left h0]

theorem fill_fits_iff {stride maxsize n : UInt32} {routine : Routine} {requested : UInt64}
    (hs : stride = formatSampleSize cfg.format * cfg.channels) (hc : cfg.channels ≠ 0)
    (hsize : formatSampleSize cfg.format ≠ 0)
    (hr : routine = if cfg.format = S16_LE ∨ cfg.format = S16_BE then .s16 else .f32)
    (hstride : stride ≠ 0)
    (hn : n = if requested > 0 ∧ requested < (maxsize / stride).toUInt64 then requested.toUInt32
      else maxsize / stride) :
    (Fill.mk routine n cfg.channels maxsize ⟨0, stride, n * stride⟩).Fits ↔
      maxsize.toNat < stride.toNat ∨ Whole cfg.format ∧ cfg.frameSize < 2 ^ 32 := by
  have hwidth : routine.width = if cfg.format = S16_LE ∨ cfg.format = S16_BE then 2 else 4 := by
    rw [hr]
    split <;> rfl
  have hpos : 0 < stride.toNat := by
    rw [Nat.pos_iff_ne_zero]
    exact fun h => hstride (UInt32.toNat_inj.mp h)
  have hcpos : 0 < cfg.channels.toNat := by
    rw [Nat.pos_iff_ne_zero]
    exact fun h => hc (UInt32.toNat_inj.mp h)
  obtain ⟨hmem, hcases, hwhole⟩ := whole_iff hsize hwidth
  obtain ⟨hle, hzero⟩ := frames_requested requested (maxsize / stride) hn
  rw [UInt32.toNat_div] at hle hzero
  have hchunk : (n * stride).toNat = n.toNat * stride.toNat := by
    have hlt := (Nat.mul_le_mul_right stride.toNat hle).trans (Nat.div_mul_le_self _ _)
    rw [UInt32.toNat_mul]
    exact Nat.mod_eq_of_lt (hlt.trans_lt maxsize.toNat_lt)
  have hframe := frame_width_iff hmem hcases hcpos cfg.channels.toNat_lt
  have hstrideNat : stride.toNat =
      (formatSampleSize cfg.format).toNat * cfg.channels.toNat % 2 ^ 32 := by
    rw [hs, UInt32.toNat_mul]
  have hfits : (Fill.mk routine n cfg.channels maxsize ⟨0, stride, n * stride⟩).Fits ↔
      n.toNat * (cfg.channels.toNat * routine.width) ≤ maxsize.toNat ∧
        n.toNat * (cfg.channels.toNat * routine.width) = n.toNat * stride.toNat := by
    rw [← hchunk, ← Nat.mul_assoc]
    constructor
    · rintro ⟨hin, hrep⟩
      rw [Fill.bytes_eq] at hin hrep
      exact ⟨hin, hrep⟩
    · rintro ⟨hin, hrep⟩
      exact ⟨by rwa [Fill.bytes_eq], by rwa [Fill.bytes_eq]⟩
  rw [hfits, fits_iff hle hzero hpos, hstrideNat, hframe, hwhole]
  rfl

theorem onProcess_mapped (hv : validateConfig cfg = true)
    (hs : s.actualFormat = 0 ∨ s.actualFormat = cfg.format) (hb : b.isNull = false)
    (now : UInt64) :
    (cfg.frameSize % 2 ^ 32 = 0 → onProcess cfg s now (some b) = .error .divisionByZero) ∧
    (cfg.frameSize % 2 ^ 32 ≠ 0 → ∃ f, onProcess cfg s now (some b) = .ok (s.record now, some f) ∧
      (f.Fits ↔ b.maxsize.toNat < cfg.frameSize % 2 ^ 32 ∨
        Whole cfg.format ∧ cfg.frameSize < 2 ^ 32)) := by
  obtain ⟨hch, hsize⟩ := validateConfig_eq_true hv
  have hstride : (formatSampleSize cfg.format * cfg.channels).toNat = cfg.frameSize % 2 ^ 32 := by
    rw [UInt32.toNat_mul, BenchConfig.frameSize]
  have hzero : formatSampleSize cfg.format * cfg.channels = 0 ↔ cfg.frameSize % 2 ^ 32 = 0 := by
    rw [← hstride, ← UInt32.toNat_inj]
    rfl
  simp only [onProcess, hb, Bool.false_eq_true, if_false, format_used hs, if_neg hsize]
  constructor
  · intro h
    rw [if_pos (hzero.mpr h)]
  · intro h
    rw [if_neg (mt hzero.mp h)]
    refine ⟨_, rfl, ?_⟩
    rw [← hstride]
    exact fill_fits_iff rfl hch hsize rfl (mt hzero.mp h) rfl

/-! ### Runs of callbacks -/

theorem actualFormat_onParamChanged {id : UInt32} {param : Option (Option AudioInfo)}
    (hs : s.actualFormat = 0 ∨ s.actualFormat = cfg.format)
    (hn : Event.Negotiated cfg (.paramChanged id param)) :
    (onParamChanged s id param).actualFormat = 0 ∨
      (onParamChanged s id param).actualFormat = cfg.format := by
  rcases param with _ | _ | info
  · exact hs
  · rw [onParamChanged]
    by_cases hid : id = paramFormat <;> simpa [hid] using hs
  · by_cases hid : id = paramFormat
    · rw [onParamChanged, if_pos hid]
      exact hn info hid rfl
    · rw [onParamChanged, if_neg hid]
      exact hs

theorem run_fits_iff (hv : validateConfig cfg = true) {es : List Event}
    (hs : s.actualFormat = 0 ∨ s.actualFormat = cfg.format) (hn : ∀ e ∈ es, e.Negotiated cfg) :
    (∀ r ∈ run cfg s es, ∃ f, r = .ok f ∧ f.Fits) ↔ ∀ e ∈ es, e.Sound cfg := by
  induction es generalizing s with
  | nil => simp [run]
  | cons e es ih =>
    have hrest := fun e' he' => hn e' (List.mem_cons_of_mem e he')
    rw [List.forall_mem_cons]
    match e with
    | .paramChanged id param =>
      rw [run, ih (actualFormat_onParamChanged hs (hn _ List.mem_cons_self)) hrest]
      exact (iff_of_eq (true_and _)).symm
    | .process now none =>
      have hkept := actualFormat_record { s with dequeueFail := s.dequeueFail + 1 } now
      rw [run, onProcess]
      dsimp only
      rw [ih (by rwa [hkept]) hrest]
      exact (iff_of_eq (true_and _)).symm
    | .process now (some b) =>
      cases hb : b.isNull with
      | true =>
        have hkept := actualFormat_record { s with nullBuffer := s.nullBuffer + 1 } now
        have hsound : Event.Sound cfg (.process now (some b)) := by simp [Event.Sound, hb]
        rw [run, onProcess, if_pos hb]
        dsimp only
        rw [ih (by rwa [hkept]) hrest]
        exact (and_iff_right hsound).symm
      | false =>
        obtain ⟨hzero, hfill⟩ := onProcess_mapped hv hs hb now
        by_cases h0 : cfg.frameSize % 2 ^ 32 = 0
        · have hunsound : ¬ Event.Sound cfg (.process now (some b)) := fun h => (h hb).1 h0
          rw [run, hzero h0]
          simp [hunsound]
        · obtain ⟨f, hf, hfits⟩ := hfill h0
          have hkept := actualFormat_record s now
          have hsound : Event.Sound cfg (.process now (some b)) ↔ f.Fits := by
            rw [hfits]
            exact ⟨fun h => (h hb).2, fun h _ => ⟨h0, h⟩⟩
          rw [run, hf]
          dsimp only
          rw [List.forall_mem_cons, ih (by rwa [hkept]) hrest, hsound]
          simp

/-- Fills fit their buffers in every run in which frames have the size that is written. -/
theorem fills_fit_iff (hv : validateConfig cfg = true) {es : List Event}
    (hn : ∀ e ∈ es, e.Negotiated cfg) :
    (∀ r ∈ run cfg .zero es, ∃ f, r = .ok f ∧ f.Fits) ↔ ∀ e ∈ es, e.Sound cfg :=
  run_fits_iff hv (.inl rfl) hn

/-- `pipewire-xrun -f S16LE`. -/
theorem fills_fit_iff_s16 : validateConfig ⟨48000, 2, 1024, 30, S16_LE⟩ = true ∧
    ∀ r ∈ run ⟨48000, 2, 1024, 30, S16_LE⟩ .zero [.process 1 (some ⟨false, 4096, 0⟩)],
      ∃ f, r = .ok f ∧ f.Fits := by
  refine ⟨by decide, (fills_fit_iff (by decide) ?_).mpr ?_⟩
  · intro e he
    obtain rfl := List.mem_singleton.mp he
    trivial
  · intro e he
    obtain rfl := List.mem_singleton.mp he
    exact fun _ => ⟨by decide, .inr ⟨.inr (.inl rfl), by decide⟩⟩

/-- `pipewire-xrun -f U8`: four bytes are written for each sample of one byte. -/
theorem fill_overruns : ¬ ∀ (cfg : BenchConfig) (es : List Event), validateConfig cfg = true →
    (∀ e ∈ es, e.Negotiated cfg) → ∀ r ∈ run cfg .zero es, ∃ f, r = .ok f ∧ f.Fits := by
  intro h
  obtain ⟨f, hf, hfits⟩ := h ⟨48000, 2, 1024, 30, U8⟩ [.process 1 (some ⟨false, 8, 0⟩)] (by decide)
    (fun e he => List.mem_singleton.mp he ▸ trivial) _ List.mem_cons_self
  cases hf
  have hin := hfits.inside
  rw [Fill.bytes_eq] at hin
  revert hin
  decide

end PipewireXrun
