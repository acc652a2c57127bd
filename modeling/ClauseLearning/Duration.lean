import ClauseLearning.Fault

/-!
# Spans and points of time

Both are counted in whole nanoseconds, a point of time from an origin that the clock chooses.
-/

namespace ClauseLearning

/-- A span of time. -/
structure Duration where
  nanoseconds : Nat
  deriving DecidableEq, Repr

/-- A reading of a clock that never goes back. -/
structure Instant where
  nanoseconds : Nat
  deriving DecidableEq, Repr

namespace Duration

def nanosecondsPerSecond : Nat := 1000000000

def ofSeconds (seconds : Nat) : Duration := ⟨seconds * nanosecondsPerSecond⟩

/-- The whole seconds of the span. -/
def seconds (d : Duration) : Nat := d.nanoseconds / nanosecondsPerSecond

/-- What the span has beyond its whole seconds. -/
def subsecond (d : Duration) : Nat := d.nanoseconds % nanosecondsPerSecond

end Duration

/-- The point of time a span after another. The seconds of a clock are signed 64-bit numbers. -/
def Instant.after (now : Instant) (d : Duration) : Except Fault Instant :=
  if (now.nanoseconds + d.nanoseconds) / Duration.nanosecondsPerSecond < 0x8000000000000000 then
    .ok ⟨now.nanoseconds + d.nanoseconds⟩
  else .error .timeOverflow

end ClauseLearning
