import Mathlib.Tactic

/-!
# Timeouts of the mutex

`mutex_acquire_impl` and `mutex_acquire_shared_impl` turn the wait of their caller into an absolute
time, which their loops compare with the clock and hand to `mutex_wait`
(`kernel/src/badgelib/mutex.c` lines 62–87, 126–159 and 180–244).

* `absoluteTimeout_toInt`: that time is the deadline.
* `timerExact_iff`: the timer is set to it exactly if there is no deadline or the clock is at 0.

**Deviation.** `mutex_wait` takes the absolute time for a wait and adds the clock to it once more
(`timer_too_late`).
-/

namespace BadgerOS.Mutex

open Option

/-- `TIMESTAMP_US_MAX`, which stands for no timeout. -/
def timestampUsMax : Int64 := Int64.maxValue

/-- The timeout that the loops get (lines 184–189 and 229–234). -/
def absoluteTimeout (now timeout : Int64) : Int64 :=
  if timeout < 0 ∨ timeout - timestampUsMax + now ≥ 0 then timestampUsMax else timeout + now

/-- The time at which the timer of `mutex_wait` fires, if it sets one (lines 72–78). -/
def waitTimer (now timeout : Int64) : Option Int64 :=
  if timeout < timestampUsMax then some (now + timeout) else none

/-- What a wait of `timeout` from `now` on means. -/
def deadline (now timeout : Int64) : Option ℤ :=
  if 0 ≤ timeout.toInt ∧ now.toInt + timeout.toInt < timestampUsMax.toInt then
    some (now.toInt + timeout.toInt)
  else none

/-- The timer that is set at time `later` is set to the deadline. -/
def TimerExact (now timeout later : Int64) : Prop :=
  (waitTimer later (absoluteTimeout now timeout)).map Int64.toInt = deadline now timeout

variable {now timeout later : Int64}

theorem toInt_timestampUsMax : timestampUsMax.toInt = 2 ^ 63 - 1 := by decide

theorem nonneg_iff {time : Int64} : 0 ≤ time ↔ 0 ≤ time.toInt := Int64.le_iff_toInt_le

theorem toInt_excess (hnow : 0 ≤ now) (htimeout : 0 ≤ timeout) :
    (timeout - timestampUsMax + now).toInt = timeout.toInt - (2 ^ 63 - 1) + now.toInt := by
  rw [nonneg_iff] at hnow htimeout
  have hn := now.toInt_lt
  have ht := timeout.toInt_lt
  rw [Int64.toInt_add, Int64.toInt_sub, toInt_timestampUsMax]
  rw [Int.bmod_eq_of_le (n := timeout.toInt - (2 ^ 63 - 1)) (by omega) (by omega)]
  exact Int.bmod_eq_of_le (by omega) (by omega)

theorem absoluteTimeout_toInt (hnow : 0 ≤ now) (timeout : Int64) : (absoluteTimeout now timeout).toInt =
      (deadline now timeout).getD timestampUsMax.toInt := by
  have hn := nonneg_iff.mp hnow
  have hmax := toInt_timestampUsMax
  unfold absoluteTimeout deadline
  by_cases hneg : timeout < 0
  · have hlt : timeout.toInt < 0 := Int64.lt_iff_toInt_lt.mp hneg
    rw [if_pos (.inl hneg), if_neg (by omega)]
    rfl
  · have htimeout : 0 ≤ timeout := Int64.not_lt.mp hneg
    have ht := nonneg_iff.mp htimeout
    have hexcess := toInt_excess hnow htimeout
    by_cases hlarge : timeout - timestampUsMax + now ≥ 0
    · have hge := nonneg_iff.mp hlarge
      rw [if_pos (.inr hlarge), if_neg (by omega)]
      rfl
    · have hlt := mt nonneg_iff.mpr hlarge
      rw [if_neg (not_or.mpr ⟨hneg, hlarge⟩), if_pos (by omega), Int64.toInt_add,
        Int.bmod_eq_of_le (by omega) (by omega), getD_some, Int.add_comm]

/-- The timer is right exactly if none is needed or nothing is added to the deadline. -/
theorem timerExact_iff (hnow : 0 ≤ now) :
    TimerExact now timeout later ↔ deadline now timeout = none ∨ later = 0 := by
  have htime := absoluteTimeout_toInt hnow timeout
  unfold TimerExact waitTimer
  cases hdeadline : deadline now timeout with
  | none =>
    rw [hdeadline, getD_none] at htime
    rw [if_neg (by rw [Int64.lt_iff_toInt_lt]; omega)]
    simp
  | some time =>
    rw [hdeadline, getD_some] at htime
    have hlt : time < timestampUsMax.toInt := by
      unfold deadline at hdeadline
      split_ifs at hdeadline with h
      have heq := some.inj hdeadline
      omega
    rw [if_pos (by rw [Int64.lt_iff_toInt_lt]; omega), map_some, ← htime, some_inj, Int64.toInt_inj]
    simp

/-- A wait of 5 µs while the clock stands at 0. -/
theorem timerExact_start : TimerExact 0 5 0 := (timerExact_iff (by decide)).mpr (.inr rfl)

/-- The timer of a wait of 5 µs at time 1000 is set to time 2005. -/
theorem timer_too_late : waitTimer 1000 (absoluteTimeout 1000 5) = some 2005 ∧
    deadline 1000 5 = some 1005 ∧ ¬ TimerExact 1000 5 1000 := by
  unfold TimerExact
  decide

end BadgerOS.Mutex
