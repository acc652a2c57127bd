import ClauseLearning.Model
import ClauseLearning.Search.Transition

/-!
# Running a search

Transitions follow one another until the search has a verdict or its time limit has passed.
-/

namespace ClauseLearning.Search

variable {α : Type} [Score α]

/-- Makes transitions up to a final status, but at most `fuel`. The `n`-th question whether the time
limit has passed is answered by `expired n`; there is one before each transition. -/
def run (expired : Nat → Bool) : (fuel made : Nat) → Status → State α → Except Fault (Status × State α)
  | 0, _, status, s => .ok (status, s)
  | fuel + 1, made, status, s =>
    if status.isFinal then .ok (status, s)
    else
      match s.step (expired made) status with
      | .error f => .error f
      | .ok (status, s) => run expired fuel (made + 1) status s

/-- More transitions than a search over `n` variables makes. Every learnt clause is a new set of
literals of distinct variables, of which there are `3 ^ n`, and between two conflicts there is at
most one decision for each variable. -/
def transitionBound (n : Nat) : Nat := Nat.pow 4 (n + 2) * (n + 2)

/-- The point of time at which the time limit passes. -/
def deadline? (now : Instant) : Option Duration → Except Fault (Option Instant)
  | none => .ok none
  | some limit => (now.after limit).map some

/-- The time limit has passed. -/
def isExpired (deadline : Option Instant) (now : Instant) : Bool :=
  match deadline with
  | none => false
  | some deadline => deadline.nanoseconds ≤ now.nanoseconds

/-- Where a search begins, and its deadline. A formula that is refuted at load needs neither. -/
def State.begin (s : State α) (now : Instant) (timeLimit : Option Duration) :
    Except Fault (Status × Option Instant) :=
  if s.refutedAtLoad then .ok (.refuted, none)
  else (deadline? now timeLimit).map fun deadline => (.propagating, deadline)

/-- Searches from a state on. The clock is read once for the deadline and once before
each transition. -/
def State.search (clock : Nat → Instant) (timeLimit : Option Duration) (s : State α) :
    Except Fault (Status × State α) := do
  let (status, deadline) ← s.begin (clock 0) timeLimit
  run (fun made => isExpired deadline (clock (made + 1)))
    (transitionBound s.trail.cells.size) 0 status s

/-- The answer to a formula. -/
inductive Outcome where
  | satisfiable (model : Model)
  | unsatisfiable
  | unknown

/-- What a final status says of the formula. -/
def outcome (f : Formula) (status : Status) (s : State α) : Except Fault Outcome :=
  match status with
  | .satisfied => (Model.ofValues f s.trail.values).map .satisfiable
  | .refuted => .ok .unsatisfiable
  | .propagating | .conflict _ | .deciding | .interrupted => .ok .unknown

/-- The state with the end of its search told. -/
def State.finish (s : State α) : State α :=
  (s.tell (.finished s.statistics)).tell
    (.stored s.database.clauses.size s.database.learntCount)

/-- Answers a formula, with the journal of the search from its beginning on. -/
def solve (clock : Nat → Instant) (settings : Settings α) (f : Formula) :
    Except Fault (Outcome × List Event) := do
  let (status, s) ← (← State.start settings f).search clock settings.timeLimit
  pure (← outcome f status s, s.finish.journal.reverse)

end ClauseLearning.Search
