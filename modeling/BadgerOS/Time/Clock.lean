import Mathlib.Tactic

/-!
# The clock and the timer of the CPU

The conversions between ticks and microseconds of `kernel/cpu/riscv/src/sbi_time.c`.

* `conversionsExact_iff`: when the clock is exact up to a number of ticks, and the timer for a
  timestamp does not fire before it.

**Deviation.** `time_us` multiplies the ticks before it divides. With 10 MHz the product wraps and
the clock goes back after 21 days (`clock_goes_back`). The ticks of the timer are rounded down, and
for large timestamps their product overflows.
-/

namespace BadgerOS.Time

/-- `time_us` (lines 107–112), given the result of `time_ticks`. -/
def timeUs (ticksPerSec ticks : ℕ) : ℤ :=
  if ticksPerSec = 0 then 0
  else (BitVec.ofNat 64 (ticks * 1000000 % 2 ^ 64 / ticksPerSec)).toInt

/-- The ticks that `time_set_cpu_timer` (line 56) gives to `set_timer_ticks`. The product is one of
    signed numbers; `none` stands for an overflow, which is undefined. -/
def timerTicks (ticksPerSec timestamp : ℕ) : Option ℕ :=
  if timestamp * ticksPerSec < 2 ^ 63 then some (timestamp * ticksPerSec / 1000000) else none

/-- The counter at which the timer fires (lines 46–52). -/
def setTimerTicks (baseTick ticks : ℕ) : ℕ := (ticks + baseTick) % 2 ^ 64

/-- `time_ticks` (lines 25–43), given the counter. -/
def timeTicks (baseTick counter : ℕ) : ℕ := (counter + (2 ^ 64 - baseTick)) % 2 ^ 64

/-- Up to `ticks` the clock is exact and does not go back. When the timer for `timestamp` fires,
    the clock has come to `timestamp`. -/
structure ConversionsExact (ticksPerSec baseTick ticks timestamp : ℕ) : Prop where
  clock : ∀ t ≤ ticks, timeUs ticksPerSec t = (t * 1000000 / ticksPerSec : ℕ)
  mono : ∀ t ≤ ticks, ∀ u ≤ t, timeUs ticksPerSec u ≤ timeUs ticksPerSec t
  timer : ∃ t, timerTicks ticksPerSec timestamp = some t ∧
    timestamp ≤ timeUs ticksPerSec (timeTicks baseTick (setTimerTicks baseTick t))

variable {f base ticks timestamp : ℕ}

theorem timeTicks_setTimerTicks (hb : base < 2 ^ 64) {t : ℕ} (ht : t < 2 ^ 64) : timeTicks base (setTimerTicks base t) = t := by
  unfold timeTicks setTimerTicks
  omega

variable (hf : 0 < f) (hf' : f < 2 ^ 32)

include hf hf'

theorem timeUs_eq_iff : timeUs f ticks = (ticks * 1000000 / f : ℕ) ↔
    ticks * 1000000 < 2 ^ 64 ∧ ticks * 1000000 / f < 2 ^ 63 := by
  rw [timeUs, if_neg hf.ne', BitVec.toInt_eq_toNat_cond, BitVec.toNat_ofNat]
  generalize ticks * 1000000 = x
  have hlt : x % 2 ^ 64 / f < 2 ^ 64 := (Nat.div_le_self _ _).trans_lt (Nat.mod_lt _ (by simp))
  rw [Nat.mod_eq_of_lt hlt]
  by_cases hx : x < 2 ^ 64
  · rw [Nat.mod_eq_of_lt hx] at hlt ⊢
    omega
  · -- a product that wraps loses at least one microsecond
    have hstep : x % 2 ^ 64 / f + 1 ≤ x / f := by
      rw [← Nat.add_div_right _ hf]
      exact Nat.div_le_div_right (by omega)
    omega

theorem le_timeUs_iff (hb : base < 2 ^ 64) : (∃ t, timerTicks f timestamp = some t ∧
      timestamp ≤ timeUs f (timeTicks base (setTimerTicks base t))) ↔
      timestamp * f < 2 ^ 63 ∧ 1000000 ∣ timestamp * f := by
  unfold timerTicks
  by_cases hlt : timestamp * f < 2 ^ 63
  · have hle := Nat.div_mul_le_self (timestamp * f) 1000000
    have hus := (@timeUs_eq_iff f (timestamp * f / 1000000) hf hf').2
      ⟨by omega, (Nat.div_le_self _ _).trans_lt (by omega)⟩
    simp only [hlt, if_true, Option.some.injEq, exists_eq_left', true_and]
    rw [timeTicks_setTimerTicks hb (by omega), hus, Nat.cast_le, Nat.le_div_iff_mul_le hf]
    omega
  · simp only [hlt, if_false, reduceCtorEq, false_and, exists_false]

/-- The clock is exact as long as the product of the ticks fits, and the timer is when the
    timestamp is a whole number of ticks and its product fits. -/
theorem conversionsExact_iff (hb : base < 2 ^ 64) : ConversionsExact f base ticks timestamp ↔
    (ticks * 1000000 < 2 ^ 64 ∧ ticks * 1000000 / f < 2 ^ 63) ∧
      timestamp * f < 2 ^ 63 ∧ 1000000 ∣ timestamp * f := by
  rw [← timeUs_eq_iff hf hf', ← le_timeUs_iff hf hf' hb]
  refine ⟨fun h => ⟨h.clock _ le_rfl, h.timer⟩, fun ⟨hclock, htimer⟩ => ?_⟩
  have hbound := (timeUs_eq_iff hf hf').1 hclock
  have hexact : ∀ t ≤ ticks, timeUs f t = (t * 1000000 / f : ℕ) := fun t ht =>
    (timeUs_eq_iff hf hf').2 ⟨by omega, (Nat.div_le_div_right (by omega)).trans_lt hbound.2⟩
  refine ⟨hexact, fun t ht u hu => ?_, htimer⟩
  rw [hexact u (hu.trans ht), hexact t ht, Nat.cast_le]
  exact Nat.div_le_div_right (by omega)

omit hf hf'

theorem conversionsExact_day : ConversionsExact 10000000 5 864000000000 86400000000 := (conversionsExact_iff (by decide) (by decide) (by decide)).2 (by decide)

/-- A clock of 10 MHz goes back after 21 days. With 32768 Hz the timer for 100 µs fires at 91 µs.
    The greatest timestamp, which asks for no alarm, overflows. -/
theorem clock_goes_back :
    timeUs 10000000 18446744073710 < timeUs 10000000 18446744073709 ∧
    18446744073710 / 10000000 / 86400 = 21 ∧
    timerTicks 32768 100 = some 3 ∧ timeUs 32768 3 = 91 ∧
    timerTicks 10000000 (2 ^ 63 - 1) = none := by
  decide

end BadgerOS.Time
