import Mathlib.Algebra.Order.Ring.Int

/-!
# The deadline of a timed wait

`Semaphore::timed_wait` adds its timeout, in microseconds, to the time of the clock, which is
in seconds and nanoseconds, and "has to clean things up" because `sem_timedwait` takes fewer
than `10^9` nanoseconds. It carries a second over when there are more than that, and not when
there are exactly as many. The kernel then refuses the deadline, and `timed_wait`, which only
looks for `ETIMEDOUT`, takes that for a success.

The wait of the delay thread is for a whole second, and never comes to that.
-/

namespace MutilsTasks.BlockingQueue

/-- `struct timespec`. -/
structure Timespec where
  /-- `tv_sec`. -/
  sec : ℤ
  /-- `tv_nsec`. -/
  nsec : ℤ
  deriving DecidableEq

namespace Timespec

/-- `usecs_in_1_sec`. -/
def usecsInSec : ℤ := 1000000

/-- `nsecs_in_1_sec`. -/
def nsecsInSec : ℤ := 1000000000

/-- What `clock_gettime` gives and `sem_timedwait` takes. -/
def Valid (ts : Timespec) : Prop := 0 ≤ ts.nsec ∧ ts.nsec < nsecsInSec

instance (ts : Timespec) : Decidable ts.Valid := inferInstanceAs (Decidable (_ ∧ _))

/-- The time in nanoseconds. -/
def toNsec (ts : Timespec) : ℤ := ts.sec * nsecsInSec + ts.nsec

/-- The deadline of `timed_wait(usecs)` at time `ts`. -/
def deadline (ts : Timespec) (usecs : ℤ) : Timespec :=
  if ts.nsec + usecs % usecsInSec * 1000 > nsecsInSec then
    ⟨ts.sec + usecs / usecsInSec + 1, ts.nsec + usecs % usecsInSec * 1000 - nsecsInSec⟩
  else ⟨ts.sec + usecs / usecsInSec, ts.nsec + usecs % usecsInSec * 1000⟩

/-- The deadline is as far away as it should be, carry or no carry. -/
theorem toNsec_deadline (ts : Timespec) (usecs : ℤ) :
    (ts.deadline usecs).toNsec = ts.toNsec + usecs * 1000 := by
  have h := Int.mul_ediv_add_emod usecs usecsInSec
  unfold deadline
  split <;> simp only [toNsec, nsecsInSec, usecsInSec] at * <;> omega

/-- The kernel takes the deadline unless its nanoseconds come to exactly a second. -/
theorem deadline_valid_iff {ts : Timespec} (h : ts.Valid) (usecs : ℤ) :
    (ts.deadline usecs).Valid ↔ ts.nsec + usecs % usecsInSec * 1000 ≠ nsecsInSec := by
  obtain ⟨h₀, h₁⟩ := h
  have hmod : 0 ≤ usecs % usecsInSec := Int.emod_nonneg usecs (by decide)
  have hlt : usecs % usecsInSec < usecsInSec := Int.emod_lt_of_pos usecs (by decide)
  unfold deadline
  split <;> simp only [Valid, nsecsInSec, usecsInSec] at * <;> omega

/-- Whole seconds do not touch the nanoseconds. -/
theorem deadline_valid_of_whole {ts : Timespec} (h : ts.Valid) {usecs : ℤ}
    (hw : usecs % usecsInSec = 0) : (ts.deadline usecs).Valid := by
  rw [deadline_valid_iff h, hw, Int.zero_mul, Int.add_zero]
  exact h.2.ne

/-- The one nanosecond at which a wait of one microsecond goes wrong. -/
example : ¬ ((⟨5, 999999000⟩ : Timespec).deadline 1).Valid := by decide

end Timespec

end MutilsTasks.BlockingQueue
