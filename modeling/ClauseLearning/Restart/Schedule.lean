import ClauseLearning.Restart.Luby
import ClauseLearning.Restart.Policy

/-!
# Restart schedules

A schedule counts conflicts against the interval in progress and says when a restart is due.
-/

namespace ClauseLearning.Restart

structure Schedule where
  policy : Policy
  /-- The number of restarts so far. -/
  restarts : Nat
  /-- The number of conflicts since the last restart. -/
  conflicts : Nat
  /-- The number of conflicts that brings on the next restart, if any does. -/
  interval : Option Nat
  deriving DecidableEq, Repr

namespace Schedule

def start (policy : Policy) : Schedule where
  policy := policy
  restarts := 0
  conflicts := 0
  interval :=
    match policy with
    | .never => none
    | .fixed n | .geometric n | .luby n => some n.toNat

/-- The interval that follows one of the given length, once `restarts` restarts have happened.
A term of the Luby sequence that no word holds counts as the largest word. -/
def nextInterval (policy : Policy) (interval restarts : Nat) : Nat :=
  match policy with
  | .geometric _ => Word.saturate (interval * 3) / 2 + 10
  | .luby unit => Word.saturate (unit.toNat * (luby? restarts).getD (Word.limit - 1))
  | .never | .fixed _ => interval

/-- Counts a conflict; true when a restart is due. -/
def onConflict (s : Schedule) : Bool × Schedule :=
  match s.interval with
  | none => (false, s)
  | some interval =>
    if s.conflicts + 1 < interval then (false, { s with conflicts := s.conflicts + 1 })
    else
      (true, { s with
        restarts := s.restarts + 1
        conflicts := 0
        interval := some (nextInterval s.policy interval (s.restarts + 1)) })

end Schedule

end ClauseLearning.Restart
