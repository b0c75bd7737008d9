import Overthinkin.AlsaStream
import Overthinkin.Tally
import Mathlib.Algebra.Order.Ring.Rat
import Mathlib.Tactic.Linarith
import Mathlib.Tactic.Positivity
import Mathlib.Tactic.GCongr

/-! The histogram of the applet `xrun`: the bucket that a callback counts its interval in, and the
bounds that the report prints beside it. -/
namespace AlsaHistogram

open StatefulCall WatchedCall Tally AlsaStream

open AlsaOptions (PcmSetup pcmSetupDefaults)

def maxHistogramBuckets : ℕ := 128

/-- The fields of `alsa_state` that the two sides read, once a format is set. -/
structure State where
  rate : UInt32
  threshold : UInt32
  periodFrames : UInt64
  rate_ne : rate ≠ 0
  period_ne : periodFrames ≠ 0

/-- `pcm_sink_open` succeeds, and leaves these fields in the stream. -/
def Negotiates (world : World Reply) (cfg : PcmSetup) (st : State) : Prop :=
  ∃ s record, (pcmSinkOpen world cfg).from ((alsaStateInit, ()), []) =
    (.ok (), ((s, ()), record)) ∧
    s.rate = st.rate ∧ s.threshold = st.threshold ∧ s.periodFrames = st.periodFrames

/-- The members of `xrun_stats` that `on_cycle` writes. -/
structure XrunStats where
  callbackCount : UInt64
  sumNs : UInt64
  maxNs : UInt64
  lastCallbackNs : UInt64
  histogram : List UInt64

def XrunStats.zero : XrunStats := ⟨0, 0, 0, 0, List.replicate maxHistogramBuckets 0⟩

def State.expectedPeriodNs (st : State) : UInt64 :=
  (1e9 * st.threshold.toFloat / st.rate.toFloat).toUInt64

def bucket (st : State) (interval : UInt64) : ℕ :=
  let expectedPeriodNs := st.expectedPeriodNs
  let bucket := if 0 < expectedPeriodNs then interval * 16 / expectedPeriodNs else 0
  if maxHistogramBuckets ≤ bucket.toNat then maxHistogramBuckets - 1 else bucket.toNat

def onCycle (st : State) (s : XrunStats) (now : UInt64) : XrunStats :=
  if s.lastCallbackNs ≠ 0 then
    let interval := now - s.lastCallbackNs
    { callbackCount := s.callbackCount + 1
      sumNs := s.sumNs + interval
      maxNs := if s.maxNs < interval then interval else s.maxNs
      lastCallbackNs := now
      histogram := bump s.histogram (bucket st interval) }
  else { s with lastCallbackNs := now }

/-- The statistics after the cycles at these readings of the clock. -/
def cycles (st : State) (readings : List UInt64) : XrunStats :=
  readings.foldl (onCycle st) .zero

/-- The intervals that are counted at the readings that follow `last`. -/
def intervals (last : UInt64) : List UInt64 → List UInt64
  | [] => []
  | now :: readings =>
    if last ≠ 0 then (now - last) :: intervals now readings else intervals now readings

/-- The bounds are exact here; the program computes them with `double`. -/
def State.periodUs (st : State) : ℚ := 10 ^ 9 * st.periodFrames.toNat / st.rate.toNat / 1000

def lo (st : State) (i : ℕ) : ℚ := i * st.periodUs / 16

def hi (st : State) (i : ℕ) : ℚ := (i + 1) * st.periodUs / 16

/-- A row of the histogram, with the number of the pass that prints it. The last has no upper
bound. -/
structure Row where
  index : ℕ
  lo : ℚ
  hi : Option ℚ
  count : UInt64

def row (st : State) (i : ℕ) (v : UInt64) : Row :=
  ⟨i, lo st i, if i = maxHistogramBuckets - 1 then none else some (hi st i), v⟩

def printReport (st : State) (s : XrunStats) : List Row :=
  (List.range maxHistogramBuckets).filterMap fun i =>
    let v := s.histogram.getD i 0
    if v = 0 then none else some (row st i v)

/-- The interval in nanoseconds is one of the row, up to a nanosecond. -/
def Row.Holds (r : Row) (interval : UInt64) : Prop :=
  r.lo * 1000 - 1 ≤ interval.toNat ∧ ∀ hi ∈ r.hi, (interval.toNat : ℚ) < hi * 1000 + 1

/-- `on_cycle` counts the interval that ends now in bucket `i`, and in no other. -/
def CountsIn (st : State) (s : XrunStats) (now : UInt64) (i : ℕ) : Prop :=
  i < maxHistogramBuckets ∧ (onCycle st s now).histogram = bump s.histogram i

/-- What the report says of the readings of the clock: every interval between two callbacks is
counted in a row that is printed and holds it, and the printed rows hold all intervals. -/
structure Honest (st : State) (readings : List UInt64) : Prop where
  rows : ∀ before last now after, readings = before ++ last :: now :: after → last ≠ 0 →
    ∃ r ∈ printReport st (cycles st readings),
      CountsIn st (cycles st (before ++ [last])) now r.index ∧ r.Holds (now - last)
  sum : ((printReport st (cycles st readings)).map (·.count.toNat)).sum =
    (cycles st readings).callbackCount.toNat

/-! ### What the histogram counts -/

structure Counted (st : State) (xs : List UInt64) (s : XrunStats) : Prop where
  callbacks : s.callbackCount = UInt64.ofNat xs.length
  sum : s.sumNs = xs.sum
  histogram : s.histogram = tally (bucket st) maxHistogramBuckets xs

section
variable {st : State} {s : XrunStats} {xs readings : List UInt64} {x : UInt64} {i j : ℕ}

theorem Counted.cycle (h : Counted st xs s) (now : UInt64) :
    Counted st (xs ++ intervals s.lastCallbackNs [now]) (onCycle st s now) := by
  unfold intervals onCycle
  by_cases hlast : s.lastCallbackNs ≠ 0
  · rw [if_pos hlast, if_pos hlast]
    exact {
      callbacks := by
        rw [h.callbacks, intervals, List.length_append, UInt64.ofNat_add]
        rfl
      sum := by
        rw [h.sum, intervals, List.sum_append, List.sum_cons, List.sum_nil, UInt64.add_zero]
      histogram := by
        rw [h.histogram, intervals, tally_append] }
  · rw [if_neg hlast, if_neg hlast, intervals, List.append_nil]
    exact ⟨h.callbacks, h.sum, h.histogram⟩

theorem lastCallbackNs_onCycle (st : State) (s : XrunStats) (now : UInt64) :
    (onCycle st s now).lastCallbackNs = now := by
  unfold onCycle
  split_ifs <;> rfl

theorem intervals_cons (last now : UInt64) (readings : List UInt64) :
    intervals last (now :: readings) = intervals last [now] ++ intervals now readings := by
  simp only [intervals]
  split_ifs <;> rfl

theorem Counted.run (h : Counted st xs s) (readings : List UInt64) :
    Counted st (xs ++ intervals s.lastCallbackNs readings) (readings.foldl (onCycle st) s) := by
  induction readings generalizing xs s with
  | nil =>
    rw [intervals, List.append_nil]
    exact h
  | cons now readings ih =>
    have hrun := ih (h.cycle now)
    rw [lastCallbackNs_onCycle, List.append_assoc, ← intervals_cons] at hrun
    exact hrun

theorem counted_zero (st : State) : Counted st [] .zero := ⟨rfl, rfl, rfl⟩

theorem counted_cycles (st : State) (readings : List UInt64) :
    Counted st (intervals 0 readings) (cycles st readings) := (counted_zero st).run readings

theorem bucket_lt (st : State) (x : UInt64) : bucket st x < maxHistogramBuckets := by
  unfold bucket
  dsimp only
  split_ifs
  all_goals simp only [maxHistogramBuckets] at *
  all_goals omega

theorem histogram_getD (readings : List UInt64) (h : i < maxHistogramBuckets) :
    (cycles st readings).histogram.getD i 0 =
      counter (bucket st · = i) (intervals 0 readings) := by
  rw [(counted_cycles st readings).histogram, tally_eq, List.getD_eq_getElem?_getD,
    List.getElem?_map, List.getElem?_range h]
  rfl

/-- A row is printed for each bucket that is not empty, with its count. -/
theorem mem_printReport {r : Row} : r ∈ printReport st (cycles st readings) ↔
    ∃ i, i < maxHistogramBuckets ∧ counter (bucket st · = i) (intervals 0 readings) ≠ 0 ∧
      r = row st i (counter (bucket st · = i) (intervals 0 readings)) := by
  unfold printReport
  rw [List.mem_filterMap]
  refine exists_congr fun i => ?_
  rw [List.mem_range]
  refine and_congr_right fun hi => ?_
  dsimp only
  rw [histogram_getD readings hi]
  by_cases hzero : counter (bucket st · = i) (intervals 0 readings) = 0
  · simp [hzero]
  · rw [if_neg hzero, Option.some.injEq]
    exact ⟨fun h => ⟨hzero, h.symm⟩, fun h => h.2.symm⟩

theorem map_count_printReport (st : State) (readings : List UInt64) :
    (printReport st (cycles st readings)).map Row.count =
      (tally (bucket st) maxHistogramBuckets (intervals 0 readings)).filter (· ≠ 0) := by
  rw [tally_eq, ← List.filterMap_eq_filter, List.filterMap_map]
  unfold printReport
  rw [List.map_filterMap]
  refine List.filterMap_congr fun i hi => ?_
  dsimp only [Function.comp]
  rw [histogram_getD readings (List.mem_range.mp hi)]
  by_cases hzero : counter (bucket st · = i) (intervals 0 readings) = 0
  · simp [hzero, Option.guard]
  · simp [hzero, Option.guard, row]

/-- The printed counts sum to the count of the callbacks. -/
theorem sum_toNat_counts (h : (intervals 0 readings).length < 2 ^ 64) :
    ((printReport st (cycles st readings)).map (·.count.toNat)).sum =
      (cycles st readings).callbackCount.toNat := by
  have hcount : (printReport st (cycles st readings)).map (·.count.toNat) =
      ((printReport st (cycles st readings)).map Row.count).map UInt64.toNat := by
    rw [List.map_map]
    rfl
  rw [hcount, map_count_printReport, sum_toNat_filter,
    sum_toNat_tally (fun x _ => bucket_lt st x) h, (counted_cycles st readings).callbacks,
    UInt64.toNat_ofNat_of_lt' h]

/-- The recording side puts the interval at the lower bound of row `j` or above. The product is
that of the machine. -/
def Reached (st : State) (j : ℕ) (x : UInt64) : Prop :=
  0 < st.expectedPeriodNs.toNat ∧ j * st.expectedPeriodNs.toNat ≤ (x * 16).toNat

/-- The printing side agrees with it about the bound, up to a nanosecond. -/
def Agree (st : State) (j : ℕ) (x : UInt64) : Prop :=
  (Reached st j x → lo st j * 1000 - 1 ≤ x.toNat) ∧
    (¬ Reached st j x → (x.toNat : ℚ) < lo st j * 1000 + 1)

theorem le_bucket_iff (hj : 0 < j) (hlt : j < maxHistogramBuckets) :
    j ≤ bucket st x ↔ Reached st j x := by
  unfold bucket Reached
  dsimp only
  by_cases hE : 0 < st.expectedPeriodNs
  · have hpos : 0 < st.expectedPeriodNs.toNat := UInt64.lt_iff_toNat_lt.mp hE
    rw [if_pos hE, UInt64.toNat_div, ← Nat.le_div_iff_mul_le hpos]
    by_cases hlast : maxHistogramBuckets ≤ (x * 16).toNat / st.expectedPeriodNs.toNat
    · rw [if_pos hlast]
      omega
    · rw [if_neg hlast]
      omega
  · rw [if_neg hE]
    have hzero : ¬ 0 < st.expectedPeriodNs.toNat := fun h => hE (UInt64.lt_iff_toNat_lt.mpr h)
    simp only [maxHistogramBuckets, hzero, false_and, iff_false]
    exact Nat.not_le.mpr hj

theorem hi_eq (st : State) (i : ℕ) : hi st i = lo st (i + 1) := by
  simp only [hi, lo, Nat.cast_add, Nat.cast_one]

theorem periodUs_pos (st : State) : 0 < st.periodUs := by
  have hrate : 0 < st.rate.toNat :=
    Nat.pos_of_ne_zero fun h => st.rate_ne (UInt32.toNat_inj.mp h)
  have hperiod : 0 < st.periodFrames.toNat :=
    Nat.pos_of_ne_zero fun h => st.period_ne (UInt64.toNat_inj.mp h)
  unfold State.periodUs
  positivity

theorem lo_mono (st : State) (h : i ≤ j) : lo st i ≤ lo st j := by
  have hperiod := periodUs_pos st
  have hij : (i : ℚ) ≤ j := Nat.cast_le.mpr h
  rw [lo, lo]
  gcongr

/-- An interval is in the row of its bucket if the two sides agree about every bound. -/
theorem holds_iff (st : State) (x v : UInt64) : (row st (bucket st x) v).Holds x ↔
    ∀ j, 0 < j → j < maxHistogramBuckets → Agree st j x := by
  constructor
  · intro ⟨hlo, hhi⟩ j hj hlt
    refine ⟨fun hreached => ?_, fun hreached => ?_⟩
    · have hle := lo_mono st ((le_bucket_iff hj hlt).mpr hreached)
      change lo st (bucket st x) * 1000 - 1 ≤ x.toNat at hlo
      linarith
    · have hbelow : bucket st x < j := by
        by_contra hge
        exact hreached ((le_bucket_iff hj hlt).mp (not_lt.mp hge))
      have hnotlast : bucket st x ≠ maxHistogramBuckets - 1 := by omega
      have hupper := hhi (hi st (bucket st x)) (if_neg hnotlast)
      have hle := lo_mono st (Nat.succ_le_of_lt hbelow)
      rw [hi_eq] at hupper
      linarith
  · intro h
    refine ⟨?_, fun upper hupper => ?_⟩
    · change lo st (bucket st x) * 1000 - 1 ≤ x.toNat
      by_cases hzero : bucket st x = 0
      · have hx : (0 : ℚ) ≤ x.toNat := Nat.cast_nonneg _
        rw [hzero, lo, Nat.cast_zero]
        linarith
      · have hpos := Nat.pos_of_ne_zero hzero
        have hlt := bucket_lt st x
        exact (h _ hpos hlt).1 ((le_bucket_iff hpos hlt).mp le_rfl)
    · by_cases hlast : bucket st x = maxHistogramBuckets - 1
      · simp [row, hlast] at hupper
      · have hlt : bucket st x + 1 < maxHistogramBuckets := by
          have := bucket_lt st x
          omega
        have hreached : ¬ Reached st (bucket st x + 1) x := fun hreached =>
          absurd ((le_bucket_iff (Nat.succ_pos _) hlt).mpr hreached) (Nat.not_succ_le_self _)
        have hbound := (h _ (Nat.succ_pos _) hlt).2 hreached
        simp only [row, if_neg hlast, Option.mem_some_iff] at hupper
        rwa [← hupper, hi_eq]

theorem bump_injective {table : List UInt64} (hi : i < table.length)
    (h : bump table i = bump table j) : i = j := by
  by_contra hne
  have hentry := congrArg (·[i]?) h
  simp [bump, List.getElem?_eq_getElem hi, Ne.symm hne] at hentry

theorem length_histogram (st : State) (readings : List UInt64) :
    (cycles st readings).histogram.length = maxHistogramBuckets := by
  rw [(counted_cycles st readings).histogram, tally_eq, List.length_map, List.length_range]

/-- A cycle that has one before it counts in the bucket of its interval. -/
theorem countsIn_iff (before : List UInt64) {last : UInt64} (hlast : last ≠ 0) (now : UInt64) :
    CountsIn st (cycles st (before ++ [last])) now i ↔ i = bucket st (now - last) := by
  have hprevious : (cycles st (before ++ [last])).lastCallbackNs = last := by
    rw [cycles, List.foldl_append]
    exact lastCallbackNs_onCycle st _ last
  have hcycle : (onCycle st (cycles st (before ++ [last])) now).histogram =
      bump (cycles st (before ++ [last])).histogram (bucket st (now - last)) := by
    unfold onCycle
    rw [hprevious, if_pos hlast]
  unfold CountsIn
  rw [hcycle]
  constructor
  · rintro ⟨hlt, he⟩
    exact bump_injective (by rwa [length_histogram]) he.symm
  · rintro rfl
    exact ⟨bucket_lt st _, rfl⟩

/-- The intervals are those between a reading that is not 0 and the next one. -/
theorem mem_intervals {last : UInt64} : x ∈ intervals last readings ↔
    ∃ before first now after, last :: readings = before ++ first :: now :: after ∧ first ≠ 0 ∧
      x = now - first := by
  induction readings generalizing last with
  | nil =>
    simp only [intervals, List.not_mem_nil, false_iff]
    rintro ⟨before, first, now, after, he, -⟩
    have hlen := congrArg List.length he
    simp only [List.length_append, List.length_cons, List.length_nil] at hlen
    omega
  | cons now readings ih =>
    rw [intervals_cons, List.mem_append, ih]
    constructor
    · rintro (hx | ⟨before, first, second, after, he, hne, hx⟩)
      · simp only [intervals] at hx
        split at hx
        · rename_i hlast
          exact ⟨[], last, now, readings, rfl, hlast, List.mem_singleton.mp hx⟩
        · cases hx
      · exact ⟨last :: before, first, second, after, by rw [he, List.cons_append], hne, hx⟩
    · rintro ⟨before, first, second, after, he, hne, hx⟩
      cases before with
      | nil =>
        obtain ⟨rfl, hrest⟩ := List.cons.inj he
        obtain ⟨rfl, -⟩ := List.cons.inj hrest
        exact Or.inl (by simp [intervals, hne, hx])
      | cons _ before =>
        exact Or.inr ⟨before, first, second, after, (List.cons.inj he).2, hne, hx⟩

/-- The interval between two readings of the run, the first of them not 0. -/
theorem mem_intervals_zero : x ∈ intervals 0 readings ↔
    ∃ before last now after, readings = before ++ last :: now :: after ∧ last ≠ 0 ∧
      x = now - last := by
  rw [mem_intervals]
  constructor
  · rintro ⟨before, first, now, after, he, hne, hx⟩
    cases before with
    | nil => exact absurd (List.cons.inj he).1.symm hne
    | cons _ before => exact ⟨before, first, now, after, (List.cons.inj he).2, hne, hx⟩
  · rintro ⟨before, last, now, after, rfl, hne, hx⟩
    exact ⟨0 :: before, last, now, after, rfl, hne, hx⟩

/-- As long as no counter has turned over, the row of every counted interval is printed. -/
theorem printed_of_mem (hlen : (intervals 0 readings).length < 2 ^ 64)
    (hx : x ∈ intervals 0 readings) :
    row st (bucket st x) (counter (bucket st · = bucket st x) (intervals 0 readings)) ∈
      printReport st (cycles st readings) := by
  refine mem_printReport.mpr ⟨bucket st x, bucket_lt st x, fun hzero => ?_, rfl⟩
  have hcount := toNat_counter (p := (bucket st · = bucket st x)) hlen
  rw [hzero] at hcount
  have hpos : 0 < (intervals 0 readings).countP (bucket st · = bucket st x) :=
    List.countP_pos_iff.mpr ⟨x, hx, decide_eq_true rfl⟩
  rw [← hcount] at hpos
  exact absurd hpos (by decide)

/-- The rows are right if the two sides agree about every bound. -/
theorem honest_of_agree (hlen : (intervals 0 readings).length < 2 ^ 64)
    (h : ∀ x ∈ intervals 0 readings, ∀ j, 0 < j → j < maxHistogramBuckets → Agree st j x) :
    Honest st readings := by
  refine ⟨fun before last now after he hlast => ?_, sum_toNat_counts hlen⟩
  have hx : now - last ∈ intervals 0 readings :=
    mem_intervals_zero.mpr ⟨before, last, now, after, he, hlast, rfl⟩
  exact ⟨_, printed_of_mem hlen hx, (countsIn_iff before hlast now).mpr rfl,
    (holds_iff st _ _).mpr (h _ hx)⟩

/-- The report is right about fewer than 2^64 intervals just when the two sides agree about every
bound. -/
theorem honest_iff (st : State) (readings : List UInt64)
    (hlen : (intervals 0 readings).length < 2 ^ 64) : Honest st readings ↔
      ∀ x ∈ intervals 0 readings, ∀ j, 0 < j → j < maxHistogramBuckets → Agree st j x := by
  refine ⟨fun h x hx => ?_, honest_of_agree hlen⟩
  obtain ⟨before, last, now, after, he, hlast, rfl⟩ := mem_intervals_zero.mp hx
  obtain ⟨r, hr, hcounts, hholds⟩ := h.rows before last now after he hlast
  obtain ⟨i, _, _, rfl⟩ := mem_printReport.mp hr
  obtain rfl : i = bucket st (now - last) := (countsIn_iff before hlast now).mp hcounts
  exact (holds_iff st (now - last) _).mp hholds

/-- A stream of 48000 Hz whose driver grants the period of 1024 frames, and two periods. -/
theorem honest_iff_granted :
    let st : State := ⟨48000, 1024, 1024, by decide, by decide⟩
    Honest st [1000000000, 1021333333, 1042666666] ↔
      ∀ x ∈ intervals 0 [1000000000, 1021333333, 1042666666],
        ∀ j, 0 < j → j < maxHistogramBuckets → Agree st j x :=
  honest_iff _ _ (by decide)

theorem expectedPeriod_reached (hE : 0 < st.expectedPeriodNs.toNat) (hx : x.toNat < 2 ^ 60) :
    Reached st j x ↔ j * st.expectedPeriodNs.toNat ≤ x.toNat * 16 := by
  have hproduct : (x * 16).toNat = x.toNat * 16 := by
    rw [UInt64.toNat_mul]
    exact Nat.mod_eq_of_lt (by change x.toNat * 16 < 2 ^ 64; omega)
  rw [Reached, hproduct]
  exact and_iff_right hE

/-- The rows are right when the driver grants a period that is a whole number of nanoseconds. -/
theorem honest_of_granted (hE : (st.expectedPeriodNs.toNat : ℚ) = st.periodUs * 1000)
    (hlen : (intervals 0 readings).length < 2 ^ 64)
    (hx : ∀ x ∈ intervals 0 readings, x.toNat < 2 ^ 60) : Honest st readings := by
  have hpos : 0 < st.expectedPeriodNs.toNat := by
    have := periodUs_pos st
    exact_mod_cast hE ▸ (show 0 < st.periodUs * 1000 by linarith)
  refine honest_of_agree hlen fun x hmem j _ _ => ?_
  unfold Agree lo
  rw [expectedPeriod_reached hpos (hx x hmem)]
  refine ⟨fun hreached => ?_, fun hreached => ?_⟩
  · have hreached : (j * st.expectedPeriodNs.toNat : ℚ) ≤ x.toNat * 16 := by exact_mod_cast hreached
    rw [hE] at hreached
    linarith
  · have hreached : (x.toNat * 16 : ℚ) < j * st.expectedPeriodNs.toNat := by
      exact_mod_cast not_le.mp hreached
    rw [hE] at hreached
    linarith

/-! ### The negotiation -/

section
variable {γ α β : Type} {P Q R : Stream → Prop} {world : World Reply} {threshold : UInt32}

/-- From a stream in `P` the call leads to one in `Q`, unless it fails. -/
def Leads (P : Stream → Prop) (x : Pcm γ α) (Q : Stream → Prop) : Prop :=
  Triple (fun s => P s.1.1) x (fun _ s => Q s.1.1) fun _ => True

theorem Leads.bind {x : Pcm γ α} {f : α → Pcm γ β} (hx : Leads P x Q)
    (hf : ∀ a, Leads Q (f a) R) : Leads P (x >>= f) R := Triple.bind hx hf

theorem leads_pure (a : α) : Leads P (pure a : Pcm γ α) P := Triple.pure fun _ h => h

theorem leads_throw (e : Int32) : Leads P (throw e : Pcm γ α) Q := Triple.throw fun _ _ => trivial

theorem leads_ask (q : Query) : Leads P (ask world q : Pcm γ _) P := fun _ h => h

theorem leads_stream (f : Stream → α) : Leads P (stream f : Pcm γ α) P := fun _ h => h

theorem leads_update {f : Stream → Stream} (h : ∀ s, P s → Q (f s)) :
    Leads P (update f : Pcm γ Unit) Q := fun s hs => h s.1.1 hs

theorem keeps_update {f : Stream → Stream} (h : ∀ s, P s → P (f s)) :
    Leads P (update f : Pcm γ Unit) P := leads_update h

theorem leads_check (err : Int32) : Leads P (check err : Pcm γ Unit) P := by
  unfold check
  split
  · exact leads_throw err
  · exact leads_pure ()

theorem leads_hw (step : HwStep) : Leads P (hw world step : Pcm γ _) P :=
  (leads_ask _).bind fun r => (leads_check r.1).bind fun _ => leads_pure r.2

theorem leads_spaAlsaOpen :
    Leads (·.threshold = threshold) (spaAlsaOpen world : Pcm γ Unit) (·.threshold = threshold) := by
  refine Leads.bind (leads_stream _) fun opened => ?_
  split
  · exact leads_pure ()
  · refine Leads.bind (leads_stream _) fun name => ?_
    refine Leads.bind (keeps_update fun _ h => h) fun _ => ?_
    refine Leads.bind (leads_ask _) fun err => Leads.bind (leads_check err) fun _ => ?_
    refine Leads.bind (leads_ask _) fun timerfd => ?_
    split
    · exact Leads.bind (leads_ask _) fun _ => Leads.bind (leads_throw timerfd) fun _ =>
        keeps_update fun _ h => h
    · exact keeps_update fun _ h => h

theorem leads_setAccess :
    Leads (·.threshold = threshold) (setAccess world : Pcm γ Unit) (·.threshold = threshold) := by
  refine Leads.bind (leads_ask _) fun r => Leads.bind (Q := (·.threshold = threshold)) ?_
    fun _ => Leads.bind (leads_stream _) fun mmap => ?_
  · split
    · exact keeps_update fun _ h => h
    · exact leads_pure ()
  · split
    · exact Leads.bind (leads_ask _) fun r => leads_check r.1
    · exact leads_pure ()

/-- What a stream has once the driver has granted a rate and a period. -/
structure Granted (threshold : UInt32) (s : Stream) : Prop where
  rate : s.rate ≠ 0
  period : s.periodFrames ≠ 0
  threshold : s.threshold = threshold

theorem leads_setPeriodSize (periodSize : UInt32) :
    Leads (fun s => s.rate ≠ 0 ∧ s.threshold = threshold)
      (setPeriodSize world periodSize : Pcm γ Unit) (Granted threshold) := by
  refine Leads.bind (leads_hw _) fun least => Leads.bind (keeps_update fun _ h => h) fun _ => ?_
  refine Leads.bind (leads_hw _) fun frames => ?_
  split
  · exact leads_throw (-eio)
  · exact leads_update fun s h => ⟨h.1, ‹_›, h.2⟩

theorem leads_setBufferSize :
    Leads (Granted threshold) (setBufferSize world : Pcm γ Unit) (Granted threshold) := by
  refine Leads.bind (leads_hw _) fun most => Leads.bind (leads_stream _) fun limit => ?_
  refine Leads.bind (leads_hw _) fun _ => Leads.bind (leads_hw _) fun frames => ?_
  refine Leads.bind (keeps_update fun _ h => ⟨h.rate, h.period, h.threshold⟩) fun _ => ?_
  split
  · exact leads_throw (-eio)
  · exact leads_pure ()

theorem leads_spaAlsaSetFormat (rate channels : UInt32) (format : AlsaOptions.Format)
    (periodSize : UInt32) : Leads (·.threshold = threshold)
      (spaAlsaSetFormat world rate channels format periodSize : Pcm γ Unit)
      (Granted threshold) := by
  unfold spaAlsaSetFormat
  split
  · exact leads_throw _
  refine Leads.bind leads_spaAlsaOpen fun _ => ?_
  refine Leads.bind (leads_hw _) fun _ => Leads.bind (leads_hw _) fun _ => ?_
  refine Leads.bind leads_setAccess fun _ => Leads.bind (leads_hw _) fun _ => ?_
  refine Leads.bind (leads_hw _) fun rchannels => Leads.bind (leads_hw _) fun rrate => ?_
  split
  · exact leads_throw _
  rename_i hgranted
  refine Leads.bind (Q := fun s => s.rate ≠ 0 ∧ s.threshold = threshold)
    (leads_update fun s h => ⟨fun hr => hgranted (.inr hr), h⟩) fun _ => ?_
  refine Leads.bind (leads_ask _) fun batch => Leads.bind (keeps_update fun _ h => h) fun _ => ?_
  refine Leads.bind (leads_ask _) fun canDisable => ?_
  refine Leads.bind (Q := fun s => s.rate ≠ 0 ∧ s.threshold = threshold) ?_ fun _ => ?_
  · split
    · exact leads_hw _
    · exact leads_pure _
  refine Leads.bind (leads_setPeriodSize periodSize) fun _ => ?_
  refine Leads.bind leads_setBufferSize fun _ => ?_
  refine Leads.bind (keeps_update fun _ h => ⟨h.rate, h.period, h.threshold⟩) fun _ => ?_
  exact Leads.bind (leads_hw _) fun _ => leads_pure ()

theorem leads_pcmSinkOpen (world : World Reply) (cfg : PcmSetup) : Leads (fun _ => True)
    (pcmSinkOpen world cfg : Pcm γ Unit) (Granted cfg.period.toUInt32) :=
  Leads.bind (leads_update fun _ _ => rfl) fun _ => leads_spaAlsaSetFormat _ _ _ _

/-- Every stream that the applet has opened is in such a state. -/
theorem negotiates_of_opened {cfg : PcmSetup} {s : Stream} {record : List (Event Reply)}
    (h : (pcmSinkOpen world cfg).from ((alsaStateInit, ()), []) =
      (.ok (), ((s, ()), record))) : ∃ st, Negotiates world cfg st := by
  have hgranted := leads_pcmSinkOpen world cfg ((alsaStateInit, ()), []) trivial
  rw [h] at hgranted
  exact ⟨⟨s.rate, s.threshold, s.periodFrames, hgranted.rate, hgranted.period⟩,
    s, record, h, rfl, rfl, rfl⟩

end

/-- A world in which every call succeeds, and the driver grants this rate and this period. -/
def granting (rate : UInt32) (periodFrames : UInt64) : World Reply := fun _ q =>
  match q with
  | .hw (.setChannelsNear channels) => (0, channels.toUInt64)
  | .hw (.setRateNear _) => (0, rate.toUInt64)
  | .hw (.setPeriodSizeNear _) => (0, periodFrames)
  | .hw _ => (0, 4096)
  | .pcmOpen _ | .sw _ | .prepare | .drop | .start | .resume | .pcmClose | .timerfdCreate
  | .timerfdSettime _ | .timerfdRead | .poll _ => (0 : Int32)
  | .isBatch | .canDisablePeriodWakeup | .stopRequested => false
  | .status => (0, ⟨.opened, (0, 0), (0, 0)⟩)
  | .state => PcmState.opened
  | .availUpdate | .avail | .mmapCommit _ _ => (0 : Int64)
  | .htimestamp => (0, 0, 0, 0)
  | .mmapBegin _ => (0, ⟨0, 0⟩)
  | .timerfdClose | .wait _ => ()
  | .clock => (0 : UInt64)

theorem opens_granting {s₀ : Stream} (hclosed : s₀.opened = false) (hmmap : s₀.useMmap = true)
    (st : State) :
    ∃ s record, (pcmSinkOpen (granting st.rate st.periodFrames)
      { pcmSetupDefaults with period := st.threshold.toUInt64 }).from ((s₀, ()), []) =
        (.ok (), ((s, ()), record)) ∧
      s.rate = st.rate ∧ s.threshold = st.threshold ∧ s.periodFrames = st.periodFrames := by
  simp [pcmSinkOpen, spaAlsaSetFormat, spaAlsaOpen, setAccess, setPeriodSize, setBufferSize, hw,
    check, stream, update, from_bind, granting, hclosed, hmmap, st.rate_ne, st.period_ne,
    pcmSetupDefaults, AlsaOptions.pcmSinkOpen, AlsaOptions.unknownFormat, AlsaOptions.s16LE,
    recalcHeadroom]

/-- Every state is one that a driver can lead to. -/
theorem negotiates_granting (st : State) : Negotiates (granting st.rate st.periodFrames)
    { pcmSetupDefaults with period := st.threshold.toUInt64 } st :=
  opens_granting rfl rfl st

/-- A driver that grants 256 frames where 1024 were asked for: an interval of one period of 1024
frames is counted in bucket 16, which is printed as about 5.3 ms. -/
theorem row_misplaced : ¬ ∀ (world : World Reply) (cfg : PcmSetup) (st : State)
    (readings : List UInt64), Negotiates world cfg st → Honest st readings := by
  intro h
  let st : State := ⟨48000, 1024, 256, by decide, by decide⟩
  have hst := h _ _ st [1000000000, 1021333333] (negotiates_granting st)
  obtain ⟨r, hr, hcounts, hholds⟩ := hst.rows [] 1000000000 1021333333 [] rfl (by decide)
  obtain ⟨i, _, _, rfl⟩ := mem_printReport.mp hr
  have hbucket : bucket st 21333333 = 16 := by decide +kernel
  obtain rfl : i = 16 := ((countsIn_iff [] (by decide) _).mp hcounts).trans hbucket
  have hrow := hholds.2 (hi st 16) rfl
  exact absurd hrow (by decide +kernel)

end

end AlsaHistogram
