import MethodCapture.Duration

/-!
Timers. A timer goes off at the first whole millisecond at which its time has run. No timer runs
longer than thirty years, and none goes off after the last millisecond that timers count. Instants
are in nanoseconds.
-/

namespace MethodCapture.Timer

/-- The first whole millisecond that is not before `instant`. -/
def wholeMillisecond (instant : Nat) : Nat :=
  (instant + (Duration.nanosecondsPerMillisecond - 1)) / Duration.nanosecondsPerMillisecond
    * Duration.nanosecondsPerMillisecond

theorem wholeMillisecond_lt (instant : Nat) :
    wholeMillisecond instant < instant + Duration.nanosecondsPerMillisecond := by
  simp only [wholeMillisecond, Duration.nanosecondsPerMillisecond]
  omega

/-- Thirty years of 365 days. -/
def longest : Duration := .ofSeconds (30 * 365 * 86400)

/-- The time that a timer set for `d` runs. -/
def span (d : Duration) : Duration :=
  if d.nanoseconds ≤ longest.nanoseconds then d else longest

/-- The last instant at which a timer can go off. Timers count milliseconds in 64 bits, and the two
highest counts stand for no time. -/
def latest : Nat := 18446744073709551613 * Duration.nanosecondsPerMillisecond

/-- When a timer that is set for `d` at `start` goes off. -/
def deadline (start : Nat) (d : Duration) : Nat :=
  min (wholeMillisecond (start + (span d).nanoseconds)) latest

theorem deadline_lt (start : Nat) (d : Duration) :
    deadline start d < start + (span d).nanoseconds + Duration.nanosecondsPerMillisecond :=
  Nat.lt_of_le_of_lt (Nat.min_le_left _ _) (wholeMillisecond_lt _)

end MethodCapture.Timer
