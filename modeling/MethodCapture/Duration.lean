import MethodCapture.Text.Digits

/-!
Lengths of time, counted in nanoseconds. The text of a duration uses the largest unit in which its
whole part is not zero and is exact.
-/

namespace MethodCapture

structure Duration where
  nanoseconds : Nat
  deriving DecidableEq

namespace Duration

def nanosecondsPerSecond : Nat := 1000000000

def nanosecondsPerMillisecond : Nat := 1000000

def ofSeconds (n : Nat) : Duration := ⟨n * nanosecondsPerSecond⟩

def ofMilliseconds (n : Nat) : Duration := ⟨n * nanosecondsPerMillisecond⟩

def ofParts (seconds nanoseconds : Nat) : Duration :=
  ⟨seconds * nanosecondsPerSecond + nanoseconds⟩

def seconds (d : Duration) : Nat := d.nanoseconds / nanosecondsPerSecond

def subsecond (d : Duration) : Nat := d.nanoseconds % nanosecondsPerSecond

theorem seconds_add_subsecond (d : Duration) :
    d.seconds * nanosecondsPerSecond + d.subsecond = d.nanoseconds :=
  Nat.div_add_mod' ..

@[simp] theorem ofParts_seconds_subsecond (d : Duration) : ofParts d.seconds d.subsecond = d := by
  cases d
  simp only [ofParts, mk.injEq]
  exact seconds_add_subsecond _

def text (d : Duration) : String :=
  if 1000000000 ≤ d.nanoseconds then Digits.scaled 9 d.nanoseconds ++ "s"
  else if 1000000 ≤ d.nanoseconds then Digits.scaled 6 d.nanoseconds ++ "ms"
  else if 1000 ≤ d.nanoseconds then Digits.scaled 3 d.nanoseconds ++ "µs"
  else Digits.scaled 0 d.nanoseconds ++ "ns"

end Duration

end MethodCapture
