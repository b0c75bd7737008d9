import Overthinkin.CStrtol

/-! The options of a PCM: how `pcm_setup_parse_opt` reads an argument, and the values that
`pcm_sink_open` hands to the stream. -/
namespace AlsaOptions

open CStrtol

/-- `snd_pcm_format_t`. -/
abbrev Format := Int32

def unknownFormat : Format := -1

def s16LE : Format := 2

structure PcmSetup where
  dev : Option (List Char)
  rate : UInt32
  channels : UInt32
  format : Format
  period : UInt64
  durationSec : UInt32
  deriving DecidableEq

def pcmSetupDefaults : PcmSetup := ⟨none, 48000, 2, s16LE, 1024, 30⟩

/-- The result of a call, the setup after it, and what it prints. -/
structure Parsed where
  accepted : Bool
  setup : PcmSetup
  stderr : Option String
  deriving DecidableEq

def invalid (what : String) (arg : List Char) : String :=
  "invalid " ++ what ++ " argument '" ++ String.ofList arg ++ "'\n"

def parseLong (lib : Library) (arg : List Char) (what : String) : Except String ℤ :=
  let result := strtol lib arg
  if result.errno = true ∨ result.rest ≠ [] then .error (invalid what arg) else .ok result.value

/-- An option that is a number: what is out of its range, and the field it is written to. -/
def parseNumber (lib : Library) (s : PcmSetup) (arg : List Char) (what : String)
    (outside : ℤ → Bool) (write : ℤ → PcmSetup) : Parsed :=
  match parseLong lib arg what with
  | .error message => ⟨false, s, some message⟩
  | .ok val => if outside val then ⟨false, s, some (invalid what arg)⟩ else ⟨true, write val, none⟩

/-- The casts are those of C. `snd_pcm_format_value` is the function of the ALSA library. -/
def pcmSetupParseOpt (lib : Library) (formatValue : List Char → Format) (s : PcmSetup)
    (opt : Char) (arg : List Char) : Parsed :=
  match opt with
  | 'D' =>
    if arg = "default".toList then
      ⟨false, s, some ("invalid device argument '" ++ String.ofList arg ++
        "' (use a hardware PCM hw:N[,P])\n")⟩
    else ⟨true, { s with dev := some arg }, none⟩
  | 'r' => parseNumber lib s arg "rate" (fun val => val < 2000 || 768000 < val)
      fun val => { s with rate := UInt32.ofInt val }
  | 'c' => parseNumber lib s arg "channels" (fun val => val < 1 || 256 < val)
      fun val => { s with channels := UInt32.ofInt val }
  | 'f' =>
    if formatValue arg = unknownFormat then
      ⟨false, { s with format := formatValue arg },
        some ("unknown format: " ++ String.ofList arg ++ "\n")⟩
    else ⟨true, { s with format := formatValue arg }, none⟩
  | 'p' => parseNumber lib s arg "period-size" (fun val => val < 1)
      fun val => { s with period := UInt64.ofInt val }
  | 'd' => parseNumber lib s arg "duration" (fun val => val < 0)
      fun val => { s with durationSec := UInt32.ofInt val }
  | _ => ⟨false, s, none⟩

/-- The fields of `alsa_state` that `pcm_sink_open` sets before it calls `spa_alsa_set_format`. -/
structure Stream where
  name : Option (List Char)
  rate : UInt32
  channels : UInt32
  format : Format
  threshold : UInt32
  defaultPeriodSize : UInt32
  driverDuration : UInt32
  driverRateDenom : UInt32
  deriving DecidableEq

/-- `name` is an array of 64 bytes. -/
def pcmSinkOpen (cfg : PcmSetup) : Stream :=
  { name := cfg.dev.map (·.take 63)
    rate := cfg.rate
    channels := cfg.channels
    format := cfg.format
    threshold := cfg.period.toUInt32
    defaultPeriodSize := cfg.period.toUInt32
    driverDuration := cfg.period.toUInt32
    driverRateDenom := cfg.rate }

/-- The options whose argument is a number. -/
inductive NumberOption where
  | rate
  | channels
  | period
  | duration
  deriving DecidableEq

namespace NumberOption

def char : NumberOption → Char
  | rate => 'r'
  | channels => 'c'
  | period => 'p'
  | duration => 'd'

def InRange : NumberOption → ℤ → Prop
  | rate, v => 2000 ≤ v ∧ v ≤ 768000
  | channels, v => 1 ≤ v ∧ v ≤ 256
  | period, v => 1 ≤ v
  | duration, v => 0 ≤ v

/-- The value that the program works with. -/
def worked : NumberOption → PcmSetup → UInt32
  | rate, s => (pcmSinkOpen s).rate
  | channels, s => (pcmSinkOpen s).channels
  | period, s => (pcmSinkOpen s).threshold
  | duration, s => s.durationSec

end NumberOption

section
variable {lib : Library} {formatValue : List Char → Format} {s : PcmSetup} {opt : NumberOption}
  {arg : List Char} {what : String} {outside : ℤ → Bool} {write : ℤ → PcmSetup} {v : ℤ}

/-- The arguments that `parse_long` reads: a numeral of a `long`, and the empty string where the
library leaves `errno` alone. -/
def Reads (lib : Library) (arg : List Char) (v : ℤ) : Prop :=
  (arg = [] ∧ lib.noConversion = false ∧ v = 0) ∨
    (Numeral lib.binary arg v ∧ longMin ≤ v ∧ v ≤ longMax)

theorem parseLong_ok : parseLong lib arg what = .ok v ↔ Reads lib arg v := by
  refine Iff.trans ?_ strtol_iff
  unfold parseLong
  by_cases h : (strtol lib arg).errno = true ∨ (strtol lib arg).rest ≠ []
  · simp only [if_pos h, reduceCtorEq, false_iff]
    intro ⟨hrest, herrno, _⟩
    exact h.elim (fun h => absurd (h.symm.trans herrno) (by decide)) (absurd hrest)
  · simp only [if_neg h, Except.ok.injEq]
    push Not at h
    exact ⟨fun hv => ⟨h.2, by simpa using h.1, hv⟩, fun h => h.2.2⟩

theorem parseLong_error {message : String} (h : parseLong lib arg what = .error message) :
    message = invalid what arg := by
  unfold parseLong at h
  by_cases hbad : (strtol lib arg).errno = true ∨ (strtol lib arg).rest ≠ []
  · simp only [if_pos hbad] at h
    exact (Except.error.inj h).symm
  · simp only [if_neg hbad] at h
    cases h

/-- A number is written when it is read and in the range; else the setup stays as it is. -/
theorem parseNumber_cases (lib : Library) (s : PcmSetup) (arg : List Char) (what : String)
    (outside : ℤ → Bool) (write : ℤ → PcmSetup) :
    (∃ v, Reads lib arg v ∧ outside v = false ∧
        parseNumber lib s arg what outside write = ⟨true, write v, none⟩) ∨
      (∀ v, Reads lib arg v → outside v = true) ∧
        parseNumber lib s arg what outside write = ⟨false, s, some (invalid what arg)⟩ := by
  unfold parseNumber
  cases hlong : parseLong lib arg what with
  | error message =>
    refine .inr ⟨fun v hv => ?_, ?_⟩
    · rw [parseLong_ok.mpr hv] at hlong
      cases hlong
    · simp only [parseLong_error hlong]
  | ok val =>
    have hval := parseLong_ok.mp hlong
    by_cases hout : outside val = true
    · refine .inr ⟨fun v hv => ?_, ?_⟩
      · have hv' : parseLong lib arg what = .ok v := parseLong_ok.mpr hv
        rw [hlong] at hv'
        rwa [← Except.ok.inj hv']
      · simp only [hout, if_true]
    · refine .inl ⟨val, hval, by simpa using hout, ?_⟩
      simp only [hout, Bool.false_eq_true, if_false]

/-- What the claim on an option comes to: an accepted argument is the numeral of a value in the
range, and the program works with that value; else nothing changes. -/
def Meant (lib : Library) (formatValue : List Char → Format) (s : PcmSetup) (opt : NumberOption)
    (arg : List Char) : Prop :=
  let parsed := pcmSetupParseOpt lib formatValue s opt.char arg
  (parsed.accepted = true → ∃ v, Numeral lib.binary arg v ∧ opt.InRange v ∧
      ((opt.worked parsed.setup).toNat : ℤ) = v) ∧
    (parsed.accepted = false → parsed.setup = s)

theorem ofInt_toNat (hpos : 0 ≤ v) (hlt : v < 2 ^ 32) : ((UInt32.ofInt v).toNat : ℤ) = v := by
  unfold UInt32.ofInt
  rw [UInt32.toNat_ofNat']
  omega

theorem ofInt_narrow (v : ℤ) : (UInt64.ofInt v).toUInt32 = UInt32.ofInt v := by
  apply UInt32.toNat_inj.mp
  unfold UInt64.ofInt UInt32.ofInt
  rw [UInt64.toNat_toUInt32, UInt64.toNat_ofNat', UInt32.toNat_ofNat']
  omega

/-- One argument for all four options; they differ in the range and in the field. -/
theorem parseNumber_meant (lib : Library) (s : PcmSetup) (arg : List Char) (what : String)
    {inRange : ℤ → Prop} (hin : ∀ v, outside v = false ↔ inRange v)
    (hpos : ∀ v, inRange v → 0 ≤ v) {work : PcmSetup → UInt32}
    (hwork : ∀ v, work (write v) = UInt32.ofInt v) :
    ((parseNumber lib s arg what outside write).accepted = true →
        ∃ v, Numeral lib.binary arg v ∧ inRange v ∧
          ((work (parseNumber lib s arg what outside write).setup).toNat : ℤ) = v) ∧
      ((parseNumber lib s arg what outside write).accepted = false →
        (parseNumber lib s arg what outside write).setup = s) ↔
    ¬ (arg = [] ∧ lib.noConversion = false ∧ inRange 0) ∧
      ∀ v, Numeral lib.binary arg v → inRange v → v ≤ longMax → v < 2 ^ 32 := by
  rcases parseNumber_cases lib s arg what outside write with ⟨v, hreads, hv, heq⟩ | ⟨hnone, heq⟩
  · have hrange := (hin v).mp hv
    rw [heq]
    simp only [hwork, reduceCtorEq, false_implies, and_true, true_implies]
    constructor
    · intro ⟨w, hw, _, hvalue⟩
      refine ⟨fun h => numeral_ne_nil hw h.1, fun u hu _ _ => ?_⟩
      rw [hu.unique hw, ← hvalue]
      have := (UInt32.ofInt v).toNat_lt
      omega
    · intro ⟨hempty, hlong⟩
      rcases hreads with ⟨harg, hlib, hzero⟩ | ⟨hnumeral, _, hmax⟩
      · exact absurd ⟨harg, hlib, hzero ▸ hrange⟩ hempty
      · exact ⟨v, hnumeral, hrange, ofInt_toNat (hpos v hrange) (hlong v hnumeral hrange hmax)⟩
  · have hout {v : ℤ} (hreads : Reads lib arg v) (hrange : inRange v) : False :=
      absurd ((hnone v hreads).symm.trans ((hin v).mpr hrange)) (by decide)
    rw [heq]
    simp only [reduceCtorEq, false_implies, true_and, true_implies, true_iff]
    refine ⟨fun ⟨harg, hlib, hrange⟩ => hout (.inl ⟨harg, hlib, rfl⟩) hrange,
      fun v hnumeral hrange hmax => ?_⟩
    have hmin : longMin ≤ v := le_trans (by decide) (hpos v hrange)
    exact (hout (.inr ⟨hnumeral, hmin, hmax⟩) hrange).elim

/-- The setup that the applets start from is one that the options can give. -/
theorem defaults_inRange (opt : NumberOption) :
    opt.InRange (opt.worked pcmSetupDefaults).toNat := by
  cases opt
  all_goals unfold NumberOption.InRange
  all_goals decide

/-- An option means what was typed, but for an empty duration and for a period or a duration that
has no room in 32 bits. -/
theorem meant_iff (lib : Library) (formatValue : List Char → Format) (s : PcmSetup)
    (opt : NumberOption) (arg : List Char) :
    Meant lib formatValue s opt arg ↔
      ¬ (opt = .duration ∧ arg = [] ∧ lib.noConversion = false) ∧
        (opt = .period ∨ opt = .duration →
          ∀ v, Numeral lib.binary arg v → v ≤ longMax → v < 2 ^ 32) := by
  cases opt with
  | rate =>
    refine (parseNumber_meant lib s arg "rate" (fun v => by simp [NumberOption.InRange])
      (fun v hv => le_trans (by decide) hv.1) (fun _ => rfl)).trans ?_
    refine iff_of_true ⟨fun h => absurd h.2.2.1 (by decide), fun v _ hv _ => ?_⟩ (by simp)
    exact lt_of_le_of_lt hv.2 (by decide)
  | channels =>
    refine (parseNumber_meant lib s arg "channels" (fun v => by simp [NumberOption.InRange])
      (fun v hv => le_trans (by decide) hv.1) (fun _ => rfl)).trans ?_
    refine iff_of_true ⟨fun h => absurd h.2.2.1 (by decide), fun v _ hv _ => ?_⟩ (by simp)
    exact lt_of_le_of_lt hv.2 (by decide)
  | period =>
    refine (parseNumber_meant lib s arg "period-size" (fun v => by simp)
      (fun v hv => le_trans (by decide) hv) ofInt_narrow).trans ?_
    refine ⟨fun h => ⟨by simp, fun _ v hv hmax => ?_⟩, fun h => ?_⟩
    · by_cases hrange : 1 ≤ v
      · exact h.2 v hv hrange hmax
      · exact lt_of_lt_of_le (not_le.mp hrange) (by decide)
    · exact ⟨fun h => absurd h.2.2 (by decide), fun v hv _ hmax => h.2 (.inl rfl) v hv hmax⟩
  | duration =>
    refine (parseNumber_meant lib s arg "duration" (fun v => by simp)
      (fun v hv => hv) (fun _ => rfl)).trans ?_
    refine ⟨fun h => ⟨fun hempty => h.1 ⟨hempty.2.1, hempty.2.2, le_refl 0⟩, fun _ v hv hmax => ?_⟩,
      fun h => ⟨fun hempty => h.1 ⟨rfl, hempty.1, hempty.2.1⟩, fun v hv _ hmax => ?_⟩⟩
    · by_cases hrange : 0 ≤ v
      · exact h.2 v hv hrange hmax
      · exact lt_of_lt_of_le (not_le.mp hrange) (by decide)
    · exact h.2 (.inr rfl) v hv hmax

/-- A duration of 2 ^ 32 seconds is taken as 0, which means without an end. -/
theorem duration_endless : ¬ Meant ⟨true, false⟩ (fun _ => s16LE) pcmSetupDefaults .duration
    "4294967296".toList := by
  intro h
  obtain ⟨v, hv, _, hwork⟩ := h.1 (by decide)
  have hzero : v = 0 := hwork.symm
  rw [hzero] at hv
  have hread : (strtol ⟨true, false⟩ "4294967296".toList).rest = [] ∧ _ :=
    strtol_iff.mpr (.inr ⟨hv, by decide, by decide⟩)
  exact absurd hread.2.2 (by decide)

end

end AlsaOptions
