import Mathlib.Algebra.Order.Ring.Int

/-! `get_avail`: the frames that the device has consumed, and the delay corrected by the offset
of the hardware timestamp from the time that the cycle is scheduled for. -/
namespace AlsaHtimestamp

/-- The fields of `alsa_state` that `get_avail` reads or writes. -/
structure State where
  rate : UInt32
  threshold : UInt32
  htimestamp : Bool
  htimestampError : UInt32
  htimestampMaxErrors : UInt32
  recoverFails : UInt32
  isMatching : Bool
  resample : Bool
  disableTsched : Bool
  deriving DecidableEq

/-- The answers of the driver, in the order of the calls: `snd_pcm_avail_update` or
`snd_pcm_avail`, what `alsa_recover` does, the same question again, and `snd_pcm_htimestamp` with
its `havail`, `tv_sec` and `tv_nsec`. -/
structure Answers where
  availUpdate : Int64
  avail : Int64
  alsaRecover : State → Int32 × State
  availUpdateAgain : Int64
  availAgain : Int64
  htimestamp : Except Int32 (UInt64 × Int64 × Int64)

/-- The result, `*delay` if it was written, and the state afterwards. -/
structure Got where
  result : Int32
  delay : Option UInt64
  state : State
  deriving DecidableEq

/-- The choice that `alsa_avail` makes. -/
def alsaAvail (s : State) (update avail : Int64) : Int64 :=
  if !s.isMatching && s.disableTsched && !s.resample then update else avail

def nsecPerSec : UInt64 := 1000000000

/-- `then`, from a `timespec`. -/
def timestamp (sec nsec : Int64) : UInt64 := sec.toUInt64 * nsecPerSec + nsec.toUInt64

/-- `diff`. `NSEC_PER_SEC` is an `unsigned long long`, and so is the quotient. -/
def offset (currentTime stamp : UInt64) (rate : UInt32) : Int64 :=
  if stamp < currentTime then
    (((currentTime - stamp).toInt64 * rate.toUInt64.toInt64).toUInt64 / nsecPerSec).toInt64
  else
    ((-(stamp - currentTime).toInt64 * rate.toUInt64.toInt64).toUInt64 / nsecPerSec).toInt64

def clamp (v min max : Int64) : Int64 := if v < min then min else if max < v then max else v

/-- What the offset does to the delay and to the count of errors. -/
def applyOffset (s : State) (delay : UInt64) (diff : Int64) : UInt64 × State :=
  let threshold := s.threshold.toUInt64.toInt64
  if diff < threshold * 3 ∧ -threshold * 3 < diff then
    (delay + (clamp diff (-threshold) threshold).toUInt64, { s with htimestampError := 0 })
  else if s.htimestampMaxErrors ≠ 0 then
    if s.htimestampMaxErrors < s.htimestampError + 1 then
      (delay, { s with htimestampError := 0, htimestamp := false })
    else (delay, { s with htimestampError := s.htimestampError + 1 })
  else (delay, s)

/-- `get_avail` once the available frames are known. -/
def withTimestamp (s : State) (a : Answers) (currentTime : UInt64) (avail : Int64) : Got :=
  if s.htimestamp then
    match a.htimestamp with
    | .error _ => ⟨avail.toInt32, some avail.toUInt64, s⟩
    | .ok (havail, sec, nsec) =>
      if timestamp sec nsec ≠ 0 then
        let applied := applyOffset s havail (offset currentTime (timestamp sec nsec) s.rate)
        ⟨havail.toInt64.toInt32, some applied.1, applied.2⟩
      else ⟨havail.toInt64.toInt32, some havail, s⟩
  else ⟨avail.toInt32, some avail.toUInt64, s⟩

def getAvail (s : State) (a : Answers) (currentTime : UInt64) : Got :=
  let avail := alsaAvail s a.availUpdate a.avail
  if avail < 0 then
    let (res, s) := a.alsaRecover s
    if res < 0 then ⟨res, none, s⟩
    else
      let avail := alsaAvail s a.availUpdateAgain a.availAgain
      if avail < 0 then
        withTimestamp { s with recoverFails := s.recoverFails + 1 } a currentTime
          (s.threshold * 2).toUInt64.toInt64
      else withTimestamp s a currentTime avail
  else withTimestamp s a currentTime avail

/-- The nanoseconds by which the schedule is ahead of the timestamp, times the rate. -/
def scaled (currentTime stamp : UInt64) (rate : UInt32) : ℤ :=
  ((currentTime.toNat : ℤ) - stamp.toNat) * rate.toNat

/-- The offset in frames, truncated toward zero. -/
def frames (currentTime stamp : UInt64) (rate : UInt32) : ℤ :=
  (scaled currentTime stamp rate).tdiv 1000000000

/-- The offset is right; and a timestamp that is ahead of the schedule by no more frames than the
threshold lowers the delay by so many and resets the count of errors. -/
structure Meant (currentTime stamp : UInt64) (rate : UInt32) : Prop where
  exact : (offset currentTime stamp rate).toInt = frames currentTime stamp rate
  lowered : ∀ (s : State) (a : Answers) havail sec nsec, s.rate = rate → s.htimestamp = true →
    0 ≤ alsaAvail s a.availUpdate a.avail → a.htimestamp = .ok (havail, sec, nsec) →
    timestamp sec nsec = stamp → stamp ≠ 0 → currentTime < stamp →
    -frames currentTime stamp rate ≤ s.threshold.toNat →
    (getAvail s a currentTime).delay =
        some (havail - UInt64.ofNat (-frames currentTime stamp rate).toNat) ∧
      (getAvail s a currentTime).state.htimestampError = 0

section
variable {currentTime stamp : UInt64} {rate : UInt32}

theorem toInt_toInt64 {x : UInt64} (h : x.toNat < 2 ^ 63) : x.toInt64.toInt = x.toNat := by
  rw [Int64.toInt, UInt64.toBitVec_toInt64, BitVec.toInt_eq_toNat_of_lt]
  · rfl
  · rw [UInt64.toNat_toBitVec]
    omega

theorem nsecPerSec_toNat : nsecPerSec.toNat = 1000000000 := rfl

theorem offset_of_lt (h : stamp < currentTime) : offset currentTime stamp rate =
    ((currentTime - stamp) * rate.toUInt64 / nsecPerSec).toInt64 := if_pos h

theorem offset_of_not_lt (h : ¬ stamp < currentTime) : offset currentTime stamp rate =
    (-(stamp - currentTime) * rate.toUInt64 / nsecPerSec).toInt64 := if_neg h

/-- A timestamp that is behind the schedule: the product is not negative. -/
theorem offset_behind (hlt : stamp < currentTime)
    (hbound : |scaled currentTime stamp rate| < 2 ^ 63) :
    (offset currentTime stamp rate).toInt = frames currentTime stamp rate := by
  have hnat := UInt64.lt_iff_toNat_lt.mp hlt
  have hdiff := UInt64.toNat_sub_of_le currentTime stamp (UInt64.le_of_lt hlt)
  have hscaled : scaled currentTime stamp rate =
      ((currentTime.toNat - stamp.toNat) * rate.toNat : ℕ) := by
    rw [scaled, Nat.cast_mul, Nat.cast_sub hnat.le]
  rw [hscaled, abs_of_nonneg (Int.natCast_nonneg _)] at hbound
  have hsmall : (currentTime.toNat - stamp.toNat) * rate.toNat < 2 ^ 63 := by exact_mod_cast hbound
  have hproduct : ((currentTime - stamp) * rate.toUInt64).toNat =
      (currentTime.toNat - stamp.toNat) * rate.toNat := by
    rw [UInt64.toNat_mul, hdiff, UInt32.toNat_toUInt64]
    exact Nat.mod_eq_of_lt (by omega)
  have hquotient : ((currentTime - stamp) * rate.toUInt64 / nsecPerSec).toNat =
      (currentTime.toNat - stamp.toNat) * rate.toNat / 1000000000 := by
    rw [UInt64.toNat_div, hproduct, nsecPerSec_toNat]
  rw [offset_of_lt hlt, toInt_toInt64 (by omega), hquotient, frames, hscaled]
  rfl

theorem offset_equal (time : UInt64) (rate : UInt32) :
    (offset time time rate).toInt = frames time time rate := by
  have hzero : scaled time time rate = 0 := by rw [scaled, Int.sub_self, Int.zero_mul]
  rw [offset_of_not_lt (UInt64.lt_irrefl time), frames, hzero, UInt64.sub_self, UInt64.neg_zero,
    UInt64.zero_mul]
  rfl

/-- A timestamp that is ahead of it: the product is negative, wraps around, and gives a large
positive quotient. -/
theorem offset_ahead (hlt : currentTime < stamp) (hrate : 0 < rate)
    (hbound : |scaled currentTime stamp rate| < 2 ^ 63) :
    9223372036 ≤ (offset currentTime stamp rate).toInt ∧ frames currentTime stamp rate ≤ 0 := by
  have hnat := UInt64.lt_iff_toNat_lt.mp hlt
  have hpositive := UInt32.lt_iff_toNat_lt.mp hrate
  have hdiff := UInt64.toNat_sub_of_le stamp currentTime (UInt64.le_of_lt hlt)
  have hscaled : scaled currentTime stamp rate =
      -((stamp.toNat - currentTime.toNat) * rate.toNat : ℕ) := by
    rw [scaled, Nat.cast_mul, Nat.cast_sub hnat.le, ← Int.neg_mul, Int.neg_sub]
  rw [hscaled, abs_neg, abs_of_nonneg (Int.natCast_nonneg _)] at hbound
  have hsmall : (stamp.toNat - currentTime.toNat) * rate.toNat < 2 ^ 63 := by exact_mod_cast hbound
  have hnonzero : 0 < (stamp.toNat - currentTime.toNat) * rate.toNat :=
    Nat.mul_pos (by omega) hpositive
  have hproduct : (-(stamp - currentTime) * rate.toUInt64).toNat =
      2 ^ 64 - (stamp.toNat - currentTime.toNat) * rate.toNat := by
    have hmul : ((stamp - currentTime) * rate.toUInt64).toNat =
        (stamp.toNat - currentTime.toNat) * rate.toNat := by
      rw [UInt64.toNat_mul, hdiff, UInt32.toNat_toUInt64]
      exact Nat.mod_eq_of_lt (by omega)
    rw [UInt64.neg_mul, UInt64.toNat_neg, hmul]
    exact Nat.mod_eq_of_lt (Nat.sub_lt (by decide) hnonzero)
  have hquotient : (-(stamp - currentTime) * rate.toUInt64 / nsecPerSec).toNat =
      (2 ^ 64 - (stamp.toNat - currentTime.toNat) * rate.toNat) / 1000000000 := by
    rw [UInt64.toNat_div, hproduct, nsecPerSec_toNat]
  constructor
  · rw [offset_of_not_lt (UInt64.lt_asymm hlt), toInt_toInt64 (by omega), hquotient]
    omega
  · rw [frames, hscaled, Int.neg_tdiv]
    exact Int.neg_nonpos_of_nonneg (Int.tdiv_nonneg (Int.natCast_nonneg _) (by decide))

/-- The offset is right for every timestamp that is not ahead of the schedule, and for no other. -/
theorem offset_meant_iff (hrate : 0 < rate)
    (hbound : |scaled currentTime stamp rate| < 2 ^ 63) :
    Meant currentTime stamp rate ↔ stamp ≤ currentTime := by
  constructor
  · intro h
    by_contra hahead
    obtain ⟨hlarge, hnegative⟩ := offset_ahead (UInt64.not_le.mp hahead) hrate hbound
    rw [h.exact] at hlarge
    omega
  · intro hle
    constructor
    · by_cases hlt : stamp < currentTime
      · exact offset_behind hlt hbound
      · rw [UInt64.le_antisymm hle (UInt64.not_lt.mp hlt)]
        exact offset_equal currentTime rate
    · intro s a havail sec nsec _ _ _ _ _ _ hahead
      exact absurd hle (UInt64.not_le.mpr hahead)

end

theorem offset_meant_iff_behind :
    (0 < (48000 : UInt32) ∧ |scaled 2000000 1000000 48000| < 2 ^ 63) ∧
      (Meant 2000000 1000000 48000 ↔ (1000000 : UInt64) ≤ 2000000) :=
  ⟨⟨by decide, by decide +kernel⟩, offset_meant_iff (by decide) (by decide +kernel)⟩

def running : State := ⟨48000, 1024, true, 0, 64, 0, false, false, false⟩

/-- A timestamp that is one millisecond ahead of the schedule is 48 frames ahead, but counts as an
error and leaves the delay as it is. -/
theorem offset_one_ahead :
    frames 1000000 2000000 48000 = -48 ∧
    (offset 1000000 2000000 48000).toInt = 18446744025 ∧
    getAvail running ⟨0, 480, fun s => (0, s), 0, 480, .ok (480, 0, 2000000)⟩ 1000000 =
      ⟨480, some 480, { running with htimestampError := 1 }⟩ := by
  decide +kernel

end AlsaHtimestamp
