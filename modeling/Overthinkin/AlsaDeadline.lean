import Mathlib.Algebra.Order.Ring.Nat

/-! The timed loops of the applets `play`, `xrun` and `latency`: the deadline, the time that
remains as it is handed to `poll`, and the ways out of the loop. -/
namespace AlsaDeadline

def uint64Max : UInt64 := 0xFFFFFFFFFFFFFFFF

def intMax : ℕ := 2 ^ 31 - 1

/-- `end_ns`, from the reading of the clock before the loop. -/
def endNs (start : UInt64) (durationSec : UInt32) : UInt64 :=
  if durationSec ≠ 0 then start + durationSec.toUInt64 * 1000000000 else uint64Max

/-- `remaining_ms`, from the second reading of the clock in a pass. -/
def remainingMs (endNs now : UInt64) : Int32 :=
  if endNs ≠ uint64Max then ((endNs - now) / 1000000).toUInt32.toInt32 else 500

/-- What one pass of the loop gets: the answers of `stop_requested()` and the readings of the
clock, in order, and the result of `pcm_sink_iterate`. -/
structure Pass where
  stop : Bool
  condition : UInt64
  reading : UInt64
  result : ℤ
  stopAfter : Bool
  deriving DecidableEq

def eintr : ℤ := 4
def eagain : ℤ := 11
def etimedout : ℤ := 110

inductive Exit where
  | condition
  | noTime
  | interrupted
  | failed (error : ℤ)
  deriving DecidableEq

/-- What follows a call of `pcm_sink_iterate`. -/
def afterIterate (endNs : UInt64) (p : Pass) : Option Exit :=
  if p.result = -eintr ∨ p.result = -etimedout then
    if endNs = uint64Max ∧ p.stopAfter = false then none else some .interrupted
  else if p.result < 0 ∧ p.result ≠ -eagain then some (.failed p.result)
  else none

/-- The passes that compute `remaining_ms`, each with its value, and how the loop ends, if it
does. -/
def loop (endNs : UInt64) : List Pass → List (Pass × Int32) × Option Exit
  | [] => ([], none)
  | p :: passes =>
    if p.stop = true ∨ endNs ≤ p.condition then ([], some .condition)
    else if remainingMs endNs p.reading ≤ 0 then
      ([(p, remainingMs endNs p.reading)], some .noTime)
    else
      match afterIterate endNs p with
      | some exit => ([(p, remainingMs endNs p.reading)], some exit)
      | none =>
        let rest := loop endNs passes
        ((p, remainingMs endNs p.reading) :: rest.1, rest.2)

/-- `xrun_run`, from the reading that `end_ns` is computed from. -/
def xrunRun (start : UInt64) (durationSec : UInt32) (passes : List Pass) :
    List (Pass × Int32) × Option Exit :=
  loop (endNs start durationSec) passes

/-- `latency_run`: the deadline counts from the start of the measurement. -/
def latencyRun (wallStart : UInt64) (durationSec : UInt32) (passes : List Pass) :
    List (Pass × Int32) × Option Exit :=
  loop (endNs wallStart durationSec) passes

/-- `play_run`, which also counts the early wakeups. -/
def playRun (start : UInt64) (durationSec : UInt32) (passes : List Pass) :
    (List (Pass × Int32) × Option Exit) × ℕ :=
  let run := loop (endNs start durationSec) passes
  (run, run.1.countP fun x => 0 < x.2 ∧ x.1.result = -eagain)

/-- The whole milliseconds from the reading to the deadline. -/
def millisLeft (endNs now : UInt64) : ℕ := (endNs.toNat - now.toNat) / 1000000

/-- The same once the clock has passed the deadline and the difference wraps around. -/
def millisWrapped (endNs now : UInt64) : ℕ := (2 ^ 64 - (now.toNat - endNs.toNat)) / 1000000

/-- The remaining time as it is meant. -/
def clipped (endNs now : UInt64) : ℕ := min (millisLeft endNs now) intMax

/-- The clock has not passed the deadline, and what remains is an `int`. Apart from that the value
is right only by accident: for a remaining time of 500 ms when the deadline is the greatest
number, or when the lower 32 bits happen to be those of the clipped value. -/
def Exact (endNs now : UInt64) : Prop :=
  if endNs = uint64Max then millisLeft endNs now = 500
  else if now ≤ endNs then
    millisLeft endNs now ≤ intMax ∨ millisLeft endNs now % 2 ^ 32 = intMax
  else millisWrapped endNs now % 2 ^ 32 = 0

instance (endNs now : UInt64) : Decidable (Exact endNs now) := by
  unfold Exact
  infer_instance

section
variable {stop now : UInt64}

theorem narrow_toInt (x : UInt64) :
    x.toUInt32.toInt32.toInt = (x.toNat : ℤ).bmod (2 ^ 32) := by
  rw [Int32.toInt, UInt32.toBitVec_toInt32, BitVec.toInt_eq_toNat_bmod, UInt32.toNat_toBitVec,
    UInt64.toNat_toUInt32, Int.natCast_mod]
  exact Int.emod_bmod _ (2 ^ 32)

theorem remainingMs_before (h : stop ≠ uint64Max) (hle : now ≤ stop) :
    (remainingMs stop now).toInt = (millisLeft stop now : ℤ).bmod (2 ^ 32) := by
  have hnat := UInt64.le_iff_toNat_le.mp hle
  have hstop := stop.toNat_lt
  have hwrap : (2 ^ 64 - now.toNat + stop.toNat) % 2 ^ 64 = stop.toNat - now.toNat := by omega
  have hmillion : (1000000 : UInt64).toNat = 1000000 := rfl
  rw [remainingMs, if_pos h, narrow_toInt, UInt64.toNat_div, UInt64.toNat_sub, hwrap, hmillion,
    millisLeft]

theorem remainingMs_after (h : stop ≠ uint64Max) (hlt : stop < now) :
    (remainingMs stop now).toInt = (millisWrapped stop now : ℤ).bmod (2 ^ 32) := by
  have hnat := UInt64.lt_iff_toNat_lt.mp hlt
  have hnow := now.toNat_lt
  have hwrap : (2 ^ 64 - now.toNat + stop.toNat) % 2 ^ 64 =
      2 ^ 64 - (now.toNat - stop.toNat) := by omega
  have hmillion : (1000000 : UInt64).toNat = 1000000 := rfl
  rw [remainingMs, if_pos h, narrow_toInt, UInt64.toNat_div, UInt64.toNat_sub, hwrap, hmillion,
    millisWrapped]

/-- Where nothing wraps, the deadline is the start and the duration. -/
theorem endNs_toNat {start : UInt64} {durationSec : UInt32} (hd : durationSec ≠ 0)
    (hfits : start.toNat + durationSec.toNat * 10 ^ 9 < 2 ^ 64) :
    (endNs start durationSec).toNat = start.toNat + durationSec.toNat * 10 ^ 9 := by
  have hbillion : (1000000000 : UInt64).toNat = 10 ^ 9 := rfl
  have hproduct : (durationSec.toUInt64 * 1000000000).toNat = durationSec.toNat * 10 ^ 9 := by
    rw [UInt64.toNat_mul, UInt32.toNat_toUInt64, hbillion, Nat.mod_eq_of_lt (by omega)]
  rw [endNs, if_pos hd, UInt64.toNat_add, hproduct, Nat.mod_eq_of_lt hfits]

/-- The value is right under this condition, and under no other. -/
theorem remainingMs_iff (stop now : UInt64) :
    (remainingMs stop now).toInt = clipped stop now ↔ Exact stop now := by
  by_cases hmax : stop = uint64Max
  · have hvalue : (remainingMs stop now).toInt = 500 := by
      rw [remainingMs, if_neg (not_not.mpr hmax)]
      decide
    rw [hvalue, Exact, if_pos hmax, clipped, intMax]
    omega
  · by_cases hle : now ≤ stop
    · rw [remainingMs_before hmax hle, Exact, if_neg hmax, if_pos hle, clipped, intMax,
        Int.bmod_def]
      split <;> omega
    · have hlt := UInt64.not_le.mp hle
      have hnat := UInt64.lt_iff_toNat_lt.mp hlt
      have hnone : clipped stop now = 0 := by
        rw [clipped, millisLeft]
        omega
      rw [remainingMs_after hmax hlt, Exact, if_neg hmax, if_neg hle, hnone, Int.bmod_def]
      split <;> omega

theorem loop_mem (passes : List Pass) : ∀ x ∈ (loop stop passes).1,
    x.2 = remainingMs stop x.1.reading ∧ x.1.stop = false ∧ x.1.condition < stop := by
  induction passes with
  | nil => exact fun x hx => nomatch hx
  | cons p passes ih =>
    by_cases hcondition : p.stop = true ∨ stop ≤ p.condition
    · rw [loop, if_pos hcondition]
      exact fun x hx => nomatch hx
    · have hfirst : p.stop = false ∧ p.condition < stop := by
        simpa [UInt64.not_le] using hcondition
      rw [loop, if_neg hcondition]
      by_cases htime : remainingMs stop p.reading ≤ 0
      · rw [if_pos htime]
        exact fun x hx => List.mem_singleton.mp hx ▸ ⟨rfl, hfirst⟩
      · rw [if_neg htime]
        cases afterIterate stop p with
        | some exit => exact fun x hx => List.mem_singleton.mp hx ▸ ⟨rfl, hfirst⟩
        | none => exact fun x hx => (List.mem_cons.mp hx).elim (fun h => h ▸ ⟨rfl, hfirst⟩) (ih x)

/-- The loop stops for want of time in its last pass. -/
theorem loop_noTime (passes : List Pass) (h : (loop stop passes).2 = some .noTime) :
    ∃ x, (loop stop passes).1.getLast? = some x ∧ x.2 ≤ 0 := by
  induction passes with
  | nil => cases h
  | cons p passes ih =>
    by_cases hcondition : p.stop = true ∨ stop ≤ p.condition
    · rw [loop, if_pos hcondition] at h
      cases h
    · rw [loop, if_neg hcondition] at h ⊢
      by_cases htime : remainingMs stop p.reading ≤ 0
      · rw [if_pos htime]
        exact ⟨_, List.getLast?_singleton, htime⟩
      · rw [if_neg htime] at h ⊢
        cases hafter : afterIterate stop p with
        | some exit =>
          rw [hafter] at h
          simp only [Option.some.injEq] at h
          subst h
          unfold afterIterate at hafter
          split_ifs at hafter <;> cases hafter
        | none =>
          rw [hafter] at h
          obtain ⟨x, hx, hzero⟩ := ih h
          refine ⟨x, ?_, hzero⟩
          rw [List.getLast?_cons, hx, Option.getD_some]

end

/-- What a loop that ran is to have made of its deadline. -/
structure Timed (stop : UInt64) (run : List (Pass × Int32) × Option Exit) : Prop where
  lasts : run.2 = some .noTime →
    ∃ x, run.1.getLast? = some x ∧ stop.toNat - x.1.reading.toNat < 1000000
  within : ∀ x ∈ run.1, 0 < x.2.toInt → x.2.toInt * 1000000 + x.1.reading.toNat ≤ stop.toNat

theorem timed_loop {stop : UInt64} {passes : List Pass}
    (h : ∀ x ∈ (loop stop passes).1, x.2.toInt = clipped stop x.1.reading) :
    Timed stop (loop stop passes) := by
  constructor
  · intro hexit
    obtain ⟨x, hx, hzero⟩ := loop_noTime passes hexit
    have hle : x.2.toInt ≤ 0 := Int32.le_iff_toInt_le.mp hzero
    refine ⟨x, hx, ?_⟩
    rw [h x (List.mem_of_getLast? hx), clipped, millisLeft, intMax] at hle
    omega
  · intro x hx hpos
    have hclipped := h x hx
    rw [clipped, millisLeft, intMax] at hclipped
    omega

/-- The remaining time is right in every pass of a loop if and only if every pass meets the
condition. Then the loop stops for want of time only in the last millisecond, and no time is
handed to `poll` that goes beyond the deadline. -/
theorem loop_exact (start : UInt64) (durationSec : UInt32) (passes : List Pass) :
    ∀ run ∈ [xrunRun start durationSec passes, latencyRun start durationSec passes,
        (playRun start durationSec passes).1],
      ((∀ x ∈ run.1, x.2.toInt = clipped (endNs start durationSec) x.1.reading) ↔
        ∀ x ∈ run.1, Exact (endNs start durationSec) x.1.reading) ∧
      ((∀ x ∈ run.1, Exact (endNs start durationSec) x.1.reading) →
        Timed (endNs start durationSec) run) := by
  intro run hrun
  have hloop : run = loop (endNs start durationSec) passes := by
    simpa only [xrunRun, latencyRun, playRun, List.mem_cons, List.not_mem_nil, or_false,
      or_self] using hrun
  have hvalue : (∀ x ∈ run.1, x.2.toInt = clipped (endNs start durationSec) x.1.reading) ↔
      ∀ x ∈ run.1, Exact (endNs start durationSec) x.1.reading := by
    rw [hloop]
    refine forall₂_congr fun x hx => ?_
    rw [(loop_mem passes x hx).1]
    exact remainingMs_iff _ x.1.reading
  refine ⟨hvalue, fun hexact => ?_⟩
  rw [hloop] at hvalue hexact ⊢
  exact timed_loop (hvalue.mpr hexact)

/-- So a loop that stops for want of time has lasted as long as was asked for, but for less than a
millisecond. -/
theorem loop_lasts {start : UInt64} {durationSec : UInt32} {passes : List Pass}
    (hd : durationSec ≠ 0) (hfits : start.toNat + durationSec.toNat * 10 ^ 9 < 2 ^ 64)
    (hexact : ∀ x ∈ (loop (endNs start durationSec) passes).1,
      Exact (endNs start durationSec) x.1.reading)
    (hexit : (loop (endNs start durationSec) passes).2 = some .noTime) :
    ∃ x, (loop (endNs start durationSec) passes).1.getLast? = some x ∧
      start.toNat + durationSec.toNat * 10 ^ 9 < x.1.reading.toNat + 1000000 := by
  have hvalues : ∀ x ∈ (loop (endNs start durationSec) passes).1,
      x.2.toInt = clipped (endNs start durationSec) x.1.reading := by
    intro x hx
    rw [(loop_mem passes x hx).1]
    exact (remainingMs_iff _ _).mpr (hexact x hx)
  obtain ⟨x, hx, hlate⟩ := (timed_loop hvalues).lasts hexit
  rw [endNs_toNat hd hfits] at hlate
  exact ⟨x, hx, by omega⟩

theorem loop_exact_second : Timed (endNs 0 1) (xrunRun 0 1 [⟨false, 0, 1000000, 0, false⟩]) :=
  (loop_exact 0 1 [⟨false, 0, 1000000, 0, false⟩] _ List.mem_cons_self).2 (by decide +kernel)

/-- 2147484 s are more milliseconds than an `int` holds: the loop ends at once, for want of time. A
clock that passes the deadline between the two readings leaves a negative time. -/
theorem loop_inexact :
    xrunRun 0 2147484 [⟨false, 0, 0, 0, false⟩] =
      ([(⟨false, 0, 0, 0, false⟩, -2147483296)], some .noTime) ∧
    clipped (endNs 0 2147484) 0 = intMax ∧
    xrunRun 0 1 [⟨false, 999999999, 1000000001, 0, false⟩] =
      ([(⟨false, 999999999, 1000000001, 0, false⟩, -140462611)], some .noTime) ∧
    clipped (endNs 0 1) 1000000001 = 0 := by
  decide +kernel

end AlsaDeadline
