import Overthinkin.PipewireXrun
import Overthinkin.Tally

/-! `pipewire-xrun`: what is measured about the intervals between callbacks, and what the report
says about it. -/
namespace PipewireStats

open Tally

def maxHistogramBuckets : ℕ := 128

structure Config extends PipewireXrun.BenchConfig where
  threshold1 : Float
  threshold2 : Float
  threshold3 : Float

/-- What `parse_args` starts from. No option changes the thresholds. -/
def defaults : Config := ⟨⟨48000, 2, 1024, 30, PipewireXrun.F32_LE⟩, 1.1, 1.5, 2.0⟩

def Config.expectedPeriodNs (cfg : Config) : Float :=
  1e9 * cfg.quantum.toFloat / cfg.rate.toFloat

/-- The integers that an interval is compared with. -/
def Config.limit1 (cfg : Config) : UInt64 := (cfg.expectedPeriodNs * cfg.threshold1).toUInt64

def Config.limit2 (cfg : Config) : UInt64 := (cfg.expectedPeriodNs * cfg.threshold2).toUInt64

def Config.limit3 (cfg : Config) : UInt64 := (cfg.expectedPeriodNs * cfg.threshold3).toUInt64

/-- The members of `rt_stats` about intervals. -/
structure RtStats where
  callbackCount : UInt64
  sumNs : UInt64
  sumSqNs : UInt64
  maxNs : UInt64
  p95Ns : UInt64
  p99Ns : UInt64
  overThreshold1 : UInt64
  overThreshold2 : UInt64
  overThreshold3 : UInt64
  zeroInterval : UInt64
  histogram : List UInt64
  rawIntervals : List UInt64
  rawCapacity : UInt64
  rawCount : UInt64

def statsAlloc (cfg : Config) : RtStats :=
  let maxCallbacks := cfg.durationSec.toUInt64 * cfg.rate.toUInt64 / cfg.quantum.toUInt64 + 4096
  { callbackCount := 0, sumNs := 0, sumSqNs := 0, maxNs := 0, p95Ns := 0, p99Ns := 0
    overThreshold1 := 0, overThreshold2 := 0, overThreshold3 := 0, zeroInterval := 0
    histogram := List.replicate maxHistogramBuckets 0
    rawIntervals := List.replicate maxCallbacks.toNat 0
    rawCapacity := maxCallbacks, rawCount := 0 }

/-- Which of the three counters an interval raises, if any. -/
inductive Band where
  | below
  | over1
  | over2
  | over3
  deriving DecidableEq

def band (cfg : Config) (interval : UInt64) : Band :=
  if cfg.limit3 < interval then .over3
  else if cfg.limit2 < interval then .over2
  else if cfg.limit1 < interval then .over1
  else .below

def bucket (cfg : Config) (interval : UInt64) : ℕ :=
  min (interval.toFloat * 16.0 / cfg.expectedPeriodNs).toUInt64.toNat (maxHistogramBuckets - 1)

def statsRecordInterval (cfg : Config) (s : RtStats) (interval : UInt64) : RtStats :=
  { s with
    callbackCount := s.callbackCount + 1
    sumNs := s.sumNs + interval
    sumSqNs := s.sumSqNs + interval * interval
    zeroInterval := if interval = 0 then s.zeroInterval + 1 else s.zeroInterval
    maxNs := if s.maxNs < interval then interval else s.maxNs
    overThreshold3 := if band cfg interval = .over3 then s.overThreshold3 + 1 else s.overThreshold3
    overThreshold2 := if band cfg interval = .over2 then s.overThreshold2 + 1 else s.overThreshold2
    overThreshold1 := if band cfg interval = .over1 then s.overThreshold1 + 1 else s.overThreshold1
    histogram := bump s.histogram (bucket cfg interval)
    rawCount := s.rawCount + 1
    rawIntervals :=
      if s.rawCount < s.rawCapacity then s.rawIntervals.set s.rawCount.toNat interval
      else s.rawIntervals }

def recorded (cfg : Config) (intervals : List UInt64) : RtStats :=
  intervals.foldl (statsRecordInterval cfg) (statsAlloc cfg)

def statsComputePercentiles (s : RtStats) : RtStats :=
  let count := if s.rawCapacity < s.rawCount then s.rawCapacity else s.rawCount
  if count = 0 then { s with p95Ns := 0, p99Ns := 0 }
  else
    let sorted := (s.rawIntervals.take count.toNat).mergeSort (· ≤ ·)
    { s with
      rawIntervals := sorted ++ s.rawIntervals.drop count.toNat
      p95Ns := sorted.getD ((count - 1) * 95 / 100).toNat 0
      p99Ns := sorted.getD ((count - 1) * 99 / 100).toNat 0 }

/-- A line `>tx period: count (percent)`. -/
structure Line where
  threshold : Float
  count : UInt64
  percent : Float

/-- The part of the report that is about intervals. -/
structure Report where
  expectedPeriodUs : Float
  totalCallbacks : UInt64
  avgUs : Float
  p95Us : Float
  p99Us : Float
  maxUs : Float
  line1 : Line
  line2 : Line
  line3 : Line

def reportResults (cfg : Config) (s : RtStats) : Report :=
  let percent (count : UInt64) : Float :=
    if 0 < s.callbackCount then 100.0 * count.toFloat / s.callbackCount.toFloat else 0.0
  { expectedPeriodUs := 1e6 * cfg.quantum.toFloat / cfg.rate.toFloat
    totalCallbacks := s.callbackCount
    avgUs :=
      if 0 < s.callbackCount then s.sumNs.toFloat / s.callbackCount.toFloat / 1000.0 else 0.0
    p95Us := s.p95Ns.toFloat / 1000.0
    p99Us := s.p99Ns.toFloat / 1000.0
    maxUs := s.maxNs.toFloat / 1000.0
    line1 := ⟨cfg.threshold1, s.overThreshold1, percent s.overThreshold1⟩
    line2 := ⟨cfg.threshold2, s.overThreshold2, percent s.overThreshold2⟩
    line3 := ⟨cfg.threshold3, s.overThreshold3, percent s.overThreshold3⟩ }

/-- The report at the end of `main`. -/
def report (cfg : Config) (intervals : List UInt64) : Report :=
  reportResults cfg (statsComputePercentiles (recorded cfg intervals))

/-! ### What the counters count -/

/-- The counters after a run, by the intervals that it recorded. -/
structure Counted (cfg : Config) (intervals : List UInt64) (s : RtStats) : Prop where
  callbacks : s.callbackCount = UInt64.ofNat intervals.length
  sum : s.sumNs = intervals.sum
  largest : ∀ i ∈ intervals, i ≤ s.maxNs
  zero : s.zeroInterval = counter (· = 0) intervals
  over1 : s.overThreshold1 = counter (band cfg · = .over1) intervals
  over2 : s.overThreshold2 = counter (band cfg · = .over2) intervals
  over3 : s.overThreshold3 = counter (band cfg · = .over3) intervals
  histogram : s.histogram = tally (bucket cfg) maxHistogramBuckets intervals

section
variable {cfg : Config} {intervals : List UInt64} {s : RtStats}

theorem counted_alloc (cfg : Config) : Counted cfg [] (statsAlloc cfg) where
  callbacks := rfl
  sum := rfl
  largest := fun _ h => absurd h List.not_mem_nil
  zero := rfl
  over1 := rfl
  over2 := rfl
  over3 := rfl
  histogram := rfl

theorem Counted.record (h : Counted cfg intervals s) (interval : UInt64) :
    Counted cfg (intervals ++ [interval]) (statsRecordInterval cfg s interval) where
  callbacks := by
    rw [List.length_append, UInt64.ofNat_add, ← h.callbacks]
    rfl
  sum := by
    rw [List.sum_append, ← h.sum, List.sum_cons, List.sum_nil, UInt64.add_zero]
    rfl
  largest := by
    intro i hi
    simp only [statsRecordInterval]
    rw [List.mem_append, List.mem_singleton] at hi
    by_cases hmax : s.maxNs < interval
    · rw [if_pos hmax]
      rcases hi with hi | rfl
      · exact UInt64.le_of_lt (UInt64.lt_of_le_of_lt (h.largest i hi) hmax)
      · exact UInt64.le_refl i
    · rw [if_neg hmax]
      rcases hi with hi | rfl
      · exact h.largest i hi
      · exact UInt64.not_lt.mp hmax
  zero := by
    simp only [statsRecordInterval, counter_append, h.zero, decide_eq_true_eq]
  over1 := by
    simp only [statsRecordInterval, counter_append, h.over1, decide_eq_true_eq]
  over2 := by
    simp only [statsRecordInterval, counter_append, h.over2, decide_eq_true_eq]
  over3 := by
    simp only [statsRecordInterval, counter_append, h.over3, decide_eq_true_eq]
  histogram := by
    simp only [statsRecordInterval, tally_append, h.histogram]

theorem Counted.run (h : Counted cfg intervals s) (more : List UInt64) :
    Counted cfg (intervals ++ more) (more.foldl (statsRecordInterval cfg) s) := by
  induction more generalizing intervals s with
  | nil => simpa using h
  | cons interval more ih =>
    have hrun := ih (h.record interval)
    rwa [List.append_assoc, List.singleton_append] at hrun

theorem counted_recorded (cfg : Config) (intervals : List UInt64) :
    Counted cfg intervals (recorded cfg intervals) := (counted_alloc cfg).run intervals

theorem percentiles_counters (s : RtStats) :
    (statsComputePercentiles s).overThreshold1 = s.overThreshold1 ∧
      (statsComputePercentiles s).overThreshold2 = s.overThreshold2 ∧
      (statsComputePercentiles s).overThreshold3 = s.overThreshold3 := by
  unfold statsComputePercentiles
  by_cases h : (if s.rawCapacity < s.rawCount then s.rawCapacity else s.rawCount) = 0
  · simp only [if_pos h, and_self]
  · simp only [if_neg h, and_self]

/-- Each line prints the number of intervals in its band. -/
theorem report_counts (cfg : Config) (hlen : intervals.length < 2 ^ 64) :
    (report cfg intervals).line1.count.toNat = intervals.countP (band cfg · = .over1) ∧
      (report cfg intervals).line2.count.toNat = intervals.countP (band cfg · = .over2) ∧
      (report cfg intervals).line3.count.toNat = intervals.countP (band cfg · = .over3) := by
  obtain ⟨h1, h2, h3⟩ := percentiles_counters (recorded cfg intervals)
  have h := counted_recorded cfg intervals
  refine ⟨?_, ?_, ?_⟩
  · exact (congrArg UInt64.toNat (h1.trans h.over1)).trans (toNat_counter hlen)
  · exact (congrArg UInt64.toNat (h2.trans h.over2)).trans (toNat_counter hlen)
  · exact (congrArg UInt64.toNat (h3.trans h.over3)).trans (toNat_counter hlen)

theorem band_over3 {i : UInt64} : band cfg i = .over3 ↔ cfg.limit3 < i := by
  unfold band
  split_ifs with h3 h2 h1
  all_goals simp [h3]

theorem band_over2 {i : UInt64} : band cfg i = .over2 ↔ cfg.limit2 < i ∧ ¬ cfg.limit3 < i := by
  unfold band
  split_ifs with h3 h2 h1
  all_goals simp [*]

theorem band_over1 {i : UInt64} :
    band cfg i = .over1 ↔ cfg.limit1 < i ∧ ¬ cfg.limit2 < i ∧ ¬ cfg.limit3 < i := by
  unfold band
  split_ifs with h3 h2 h1
  all_goals simp [*]

theorem countP_above {limit : UInt64} :
    intervals.countP (limit < ·) = 0 ↔ ∀ i ∈ intervals, i ≤ limit := by
  simp only [List.countP_eq_zero, decide_eq_true_eq, UInt64.not_lt]

/-- As long as no interval exceeds the second limit, only the first line counts. -/
theorem lines_of_le (h23 : cfg.limit2 ≤ cfg.limit3) (hlen : intervals.length < 2 ^ 64)
    (hall : ∀ i ∈ intervals, i ≤ cfg.limit2) :
    (report cfg intervals).line1.count.toNat = intervals.countP (cfg.limit1 < ·) ∧
      (report cfg intervals).line2.count.toNat = 0 ∧
      (report cfg intervals).line3.count.toNat = 0 := by
  obtain ⟨h1, h2, h3⟩ := report_counts cfg hlen
  have hnot2 (i) (hi : i ∈ intervals) : ¬ cfg.limit2 < i := UInt64.not_lt.mpr (hall i hi)
  have hnot3 (i) (hi : i ∈ intervals) : ¬ cfg.limit3 < i :=
    UInt64.not_lt.mpr (UInt64.le_trans (hall i hi) h23)
  refine ⟨?_, ?_, ?_⟩
  · rw [h1]
    refine List.countP_congr fun i hi => ?_
    rw [decide_eq_true_eq, decide_eq_true_eq, band_over1]
    exact ⟨fun h => h.1, fun h => ⟨h, hnot2 i hi, hnot3 i hi⟩⟩
  · rw [h2]
    exact List.countP_eq_zero.mpr fun i hi h =>
      hnot2 i hi (band_over2.mp (of_decide_eq_true h)).1
  · rw [h3]
    exact List.countP_eq_zero.mpr fun i hi h => hnot3 i hi (band_over3.mp (of_decide_eq_true h))

/-- What the lines of the report say: each counts the intervals above its limit. -/
structure CountsRight (cfg : Config) (intervals : List UInt64) : Prop where
  line1 : (report cfg intervals).line1.count.toNat = intervals.countP (cfg.limit1 < ·)
  line2 : (report cfg intervals).line2.count.toNat = intervals.countP (cfg.limit2 < ·)
  line3 : (report cfg intervals).line3.count.toNat = intervals.countP (cfg.limit3 < ·)
  falling12 : (report cfg intervals).line2.count ≤ (report cfg intervals).line1.count
  falling23 : (report cfg intervals).line3.count ≤ (report cfg intervals).line2.count

/-- An interval is counted once, for the highest limit that it exceeds. The lines are right when
no interval exceeds the second. -/
theorem counts_right_iff (h12 : cfg.limit1 ≤ cfg.limit2) (h23 : cfg.limit2 ≤ cfg.limit3)
    (hlen : intervals.length < 2 ^ 64) :
    CountsRight cfg intervals ↔ ∀ i ∈ intervals, i ≤ cfg.limit2 := by
  constructor
  · intro h i hi
    have hcount := (report_counts cfg hlen).1.symm.trans h.line1
    have hall := (countP_eq_iff (fun i _ hband => ?_)).mp hcount
    · by_contra hlt
      have habove : cfg.limit1 < i := UInt64.lt_of_le_of_lt h12 (UInt64.not_le.mp hlt)
      have hover := of_decide_eq_true (hall i hi (decide_eq_true habove))
      exact (band_over1.mp hover).2.1 (UInt64.not_le.mp hlt)
    · exact decide_eq_true (band_over1.mp (of_decide_eq_true hband)).1
  · intro hall
    obtain ⟨h1, h2, h3⟩ := lines_of_le h23 hlen hall
    exact {
      line1 := h1
      line2 := h2.trans (countP_above.mpr hall).symm
      line3 := h3.trans (countP_above.mpr fun i hi => UInt64.le_trans (hall i hi) h23).symm
      falling12 := UInt64.le_iff_toNat_le.mpr (h2 ▸ Nat.zero_le _)
      falling23 := UInt64.le_iff_toNat_le.mpr (by rw [h2, h3]) }

theorem counts_right_default :
    CountsRight defaults [20000000, 25000000] ↔ ∀ i ∈ [20000000, 25000000], i ≤ defaults.limit2 :=
  counts_right_iff (by decide +kernel) (by decide +kernel) (by decide)

/-- An interval of 50 ms is more than twice the period, and the lines for 1.1 and 1.5 periods
print 0. -/
theorem counts_missed : ¬ ∀ (cfg : Config) (intervals : List UInt64), cfg.limit1 ≤ cfg.limit2 →
    cfg.limit2 ≤ cfg.limit3 → intervals.length < 2 ^ 64 → CountsRight cfg intervals := by
  intro h
  have hright := h defaults [50000000] (by decide +kernel) (by decide +kernel) (by decide)
  exact absurd hright.line1 (by decide +kernel)

end

end PipewireStats
